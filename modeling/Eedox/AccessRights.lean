import Eedox.EndOfFile
import Eedox.DiskFiles

namespace Eedox.AccessRights

open Library.Runs Library.Bytes Util Pipe Semaphore Descriptor Syscall Endpoints DiskFiles
open EndOfFile (Phase fdOf withPipe finish pipeRead wake)

/-- `input` is the queue of lines for the standard input. -/
structure State extends EndOfFile.State where
  input : List (List UInt8)

/-- What a call returns with the bytes it has copied out, if it does not sleep. -/
inductive Reply
  | returned (ret : ℤ) (buffer : List UInt8)
  | blocked

inductive Action
  | call (t : ℕ) (c : Call)
  | read (t fdId : ℕ) (len : Int32)
  | write (t fdId : ℕ) (ptr : ℕ → UInt8) (len : Int32)
  | resume (t : ℕ)
  | line (text : List UInt8)

def syscallErrWriteonly : ℤ := -2

def syscallErrReadonly : ℤ := -3

def syscallErrInvalidLength : ℤ := -4

def init (objects : Objects) (unset : Fd) : State := ⟨EndOfFile.init objects unset, []⟩

/-- The bytes that a read takes from the front message. -/
def delivered (messages : List (List UInt8)) (len : ℕ) : List UInt8 :=
  let input := messages.head?.getD []
  input.take (min len (strlen input))

def returnBytes (bytes : List UInt8) : Reply := .returned bytes.length bytes

def syscallReadStdin (s : State) (len : ℕ) : Option (State × Reply) :=
  match s.input with
  | [] => none
  | input :: rest =>
    let inputLen := strlen input
    let input' := if len < inputLen then shift input len (inputLen - len) :: rest else rest
    some ({ s with input := input' }, returnBytes (delivered s.input len))

def readPipe (s : State) (t ptr len : ℕ) : Option (State × Reply) :=
  let pipe := s.k.objects.pipes ptr
  let reply :=
    if atEnd pipe then returnBytes []
    else if mustSleep pipe.lock then .blocked
    else returnBytes (delivered pipe.list len)
  (pipeRead s.toState t ptr len).map fun u => ({ s with toState := u }, reply)

def setEntry (s : State) (t fdId : ℕ) (fd : Fd) : State :=
  match s.k.tasks[t]? with
  | none => s
  | some task => { s with k := setTable s.k t task s.k.objects (fdTableSet task.table fdId fd) }

def readDisk (s : State) (t fdId : ℕ) (fd : Fd) (node len : ℕ) : State × Reply :=
  let read := syscallReadDisk s.k.objects.fs fd node len
  (setEntry s t fdId read.1, .returned read.2.1 read.2.2)

/-- The access is tested with `|`, so the test never fails. -/
def syscallRead (s : State) (t fdId : ℕ) (len : Int32) : Option (State × Reply) :=
  match fdOf s.k t fdId with
  | none => some (s, .returned syscallErrInvalidFd [])
  | some fd =>
    if fd.access ||| fdAccessRead = 0 then some (s, .returned syscallErrWriteonly [])
    else if len ≤ 0 then some (s, .returned syscallErrInvalidLength [])
    else
      let len := len.toInt.toNat
      match fd.target with
      | .stdin => syscallReadStdin s len
      | .pipe ptr | .mq ptr => readPipe s t ptr len
      | .disk node | .dir node => some (readDisk s t fdId fd node len)
      | .stdout => none

def writePipe (s : State) (ptr : ℕ) (buffer : List UInt8) : State :=
  let next := pipeWrite (s.k.objects.pipes ptr) buffer
  { s with k := withPipe s.k ptr next.1, phase := wake s.phase next.2 }

def writeDisk (s : State) (t fdId : ℕ) (fd : Fd) (node : ℕ) (buffer : List UInt8) : State × Reply :=
  let written := syscallWriteDisk s.k.objects.fs fd node buffer
  (setEntry { s with k := setFs s.k written.1 } t fdId written.2.1, .returned written.2.2 [])

def syscallWrite (s : State) (t fdId : ℕ) (ptr : ℕ → UInt8) (len : Int32) : Option (State × Reply) :=
  match fdOf s.k t fdId with
  | none => some (s, .returned syscallErrInvalidFd [])
  | some fd =>
    if fd.access &&& fdAccessWrite = 0 then some (s, .returned syscallErrReadonly [])
    else if len ≤ 0 then some (s, .returned syscallErrInvalidLength [])
    else
      let buffer := slice ptr 0 len.toInt.toNat
      match fd.target with
      | .stdout => some (s, .returned len.toInt [])
      | .pipe ptr | .mq ptr => some (writePipe s ptr buffer, .returned len.toInt [])
      | .disk node | .dir node => some (writeDisk s t fdId fd node buffer)
      | .stdin => none

/-- The end of `pipe_read` in a task that has been woken. -/
def resume (s : State) (t : ℕ) : Option (State × Reply) :=
  match s.phase t with
  | .woken ptr len => (finish s.toState t ptr len).map fun u =>
      ({ s with toState := u }, returnBytes (delivered (s.k.objects.pipes ptr).list len))
  | _ => none

def step (s : State) : Action → Option State
  | .call t c => (EndOfFile.step s.toState (.call t c)).map fun u => { s with toState := u }
  | .read t fdId len => if s.phase t = .out then (syscallRead s t fdId len).map (·.1) else none
  | .write t fdId ptr len => if s.phase t = .out then (syscallWrite s t fdId ptr len).map (·.1) else none
  | .resume t => (resume s t).map (·.1)
  | .line text => some { s with input := s.input ++ [text] }

def Alive (o : Objects) (p : ℕ) : Prop := p < o.nextPipe ∧ (o.pipes p).dead = false

def Lacks (s : State) (t fdId access : ℕ) : Prop :=
  s.phase t = .out ∧ ∃ fd, fdOf s.k t fdId = some fd ∧ fd.access &&& access = 0

/-- Without the access a call returns its error and changes nothing. -/
def Rights (s : State) : Action → Prop
  | .read t fdId len => Lacks s t fdId fdAccessRead →
      syscallRead s t fdId len = some (s, .returned syscallErrWriteonly [])
  | .write t fdId ptr len => Lacks s t fdId fdAccessWrite →
      syscallWrite s t fdId ptr len = some (s, .returned syscallErrReadonly [])
  | _ => True

def Grants (fd : Fd) (p access : ℕ) : Prop := pipeOf fd = some p ∧ fd.access &&& access ≠ 0

/-- The call goes through an open end of pipe `p` with this access. -/
def Through (s : State) (p access : ℕ) : Action → Prop
  | .read t fdId _ => ∃ fd, fdOf s.k t fdId = some fd ∧ Grants fd p access
  | .write t fdId _ _ => ∃ fd, fdOf s.k t fdId = some fd ∧ Grants fd p access
  | .resume t => ∃ task fd, s.k.tasks[t]? = some task ∧ fd ∈ openFds task.table ∧ Grants fd p access
  | _ => False

/-- Bytes have left from the front. -/
def Left (list list' : List (List UInt8)) : Prop := ∃ input rest, list = input :: rest ∧
  (list' = rest ∨ ∃ len, list' = shift input len (strlen input - len) :: rest)

def Entered (list list' : List (List UInt8)) : Prop := ∃ message, list' = list ++ [message]

def Flow (s s' : State) (a : Action) : Prop :=
  ∀ p, Alive s.k.objects p → Alive s'.k.objects p →
    (s'.k.objects.pipes p).list = (s.k.objects.pipes p).list ∨
    Left (s.k.objects.pipes p).list (s'.k.objects.pipes p).list ∧ Through s p fdAccessRead a ∨
    Entered (s.k.objects.pipes p).list (s'.k.objects.pipes p).list ∧ Through s p fdAccessWrite a

/-- No read goes through an open descriptor whose access lacks the read bit. -/
def Readable (s : State) : Action → Prop
  | .read t fdId _ => ¬ Lacks s t fdId fdAccessRead
  | _ => True

/-- A task inside `pipe_read` has an open read end. -/
def Reading (s : State) : Prop := ∀ t p, (s.phase t).ptr = some p →
  ∃ task fd, s.k.tasks[t]? = some task ∧ fd ∈ openFds task.table ∧ Grants fd p fdAccessRead

theorem Reading.kept {s s' : State} (h : Reading s)
    (hphase : ∀ t p, (s'.phase t).ptr = some p → (s.phase t).ptr = some p)
    (htasks : ∀ t task, (s.phase t).ptr ≠ none → s.k.tasks[t]? = some task →
      s'.k.tasks[t]? = some task) : Reading s' := by
  intro t p ht
  have ht' := hphase t p ht
  obtain ⟨task, fd, htask, hmem, hfd⟩ := h t p ht'
  exact ⟨task, fd, htasks t task (by simp [ht']) htask, hmem, hfd⟩

/-- What a read of the pipe `ptr` by the task `t` may do. -/
structure Reads (e u : EndOfFile.State) (t ptr : ℕ) : Prop where
  tasks : u.k.tasks = e.k.tasks
  other : ∀ q, q ≠ ptr → u.k.objects.pipes q = e.k.objects.pipes q
  list : (u.k.objects.pipes ptr).list = (e.k.objects.pipes ptr).list ∨
    Left (e.k.objects.pipes ptr).list (u.k.objects.pipes ptr).list
  phase : ∀ v p, (u.phase v).ptr = some p → (e.phase v).ptr = some p ∨ v = t ∧ p = ptr

theorem reads_finish {e u : EndOfFile.State} {t ptr len : ℕ} (h : finish e t ptr len = some u) :
    Reads e u t ptr := by
  obtain ⟨next, hnext, rfl⟩ := Option.map_eq_some_iff.mp h
  refine ⟨rfl, fun q hq => by simp [withPipe, setPipe, hq], Or.inr ?_, fun v p hv => ?_⟩
  · cases hl : (e.k.objects.pipes ptr).list with
    | nil => simp [pipeReadEnd, hl] at hnext
    | cons input rest =>
      refine ⟨input, rest, rfl, ?_⟩
      rcases EndOfFile.pipeReadEnd_cases hl len with ⟨-, he⟩ | ⟨-, he⟩
      · obtain rfl := Option.some.inj (he.symm.trans hnext)
        exact Or.inr ⟨len, by simp [withPipe, setPipe]⟩
      · obtain rfl := Option.some.inj (he.symm.trans hnext)
        exact Or.inl (by simp [withPipe, setPipe])
  · rw [EndOfFile.ptr_wake] at hv
    by_cases hvt : v = t
    · subst hvt
      simp [Phase.ptr] at hv
    · rw [Function.update_of_ne hvt] at hv
      exact Or.inl hv

theorem reads_pipeRead {e u : EndOfFile.State} {t ptr len : ℕ} (h : pipeRead e t ptr len = some u) :
    Reads e u t ptr := by
  simp only [pipeRead] at h
  split_ifs at h with hend hsleep
  · obtain rfl := Option.some.inj h
    exact ⟨rfl, fun _ _ => rfl, Or.inl rfl, fun _ _ hv => Or.inl hv⟩
  · obtain rfl := Option.some.inj h
    refine ⟨rfl, fun q hq => by simp [withPipe, setPipe, hq], Or.inl (by simp [withPipe, setPipe]),
      fun v p hv => ?_⟩
    simp only at hv
    by_cases hvt : v = t
    · subst hvt
      rw [Function.update_self, Phase.ptr] at hv
      exact Or.inr ⟨rfl, (Option.some.inj hv).symm⟩
    · rw [Function.update_of_ne hvt] at hv
      exact Or.inl hv
  · obtain ⟨htasks, hother, hlist, hphase⟩ := reads_finish h
    refine ⟨htasks, fun q hq => ?_, ?_, hphase⟩
    · rw [hother q hq]
      simp [withPipe, setPipe, hq]
    · simpa [withPipe, setPipe] using hlist

section steps

variable {s s' : State} {u : EndOfFile.State} {t ptr : ℕ} {a : Action}

theorem flow_reads (hr : Reads s.toState u t ptr) (ht : Through s ptr fdAccessRead a) :
    Flow s { s with toState := u } a := by
  intro p _ _
  by_cases hp : p = ptr
  · subst hp
    exact hr.list.imp_right fun hl => Or.inl ⟨hl, ht⟩
  · exact Or.inl (congrArg PipeT.list (hr.other p hp))

theorem reading_reads (h : Reading s) (hr : Reads s.toState u t ptr)
    (hfd : ∃ task fd, s.k.tasks[t]? = some task ∧ fd ∈ openFds task.table ∧ Grants fd ptr fdAccessRead) :
    Reading { s with toState := u } := by
  intro v p hv
  rw [show ({ s with toState := u } : State).k.tasks = s.k.tasks from hr.tasks]
  rcases hr.phase v p hv with hold | ⟨rfl, rfl⟩
  · exact h v p hold
  · exact hfd

/-- A step that touches no pipe. -/
theorem flow_same (h : s'.k.objects.pipes = s.k.objects.pipes) : Flow s s' a :=
  fun p _ _ => Or.inl (by rw [h])

theorem setEntry_eq (s : State) (t fdId : ℕ) (fd : Fd) :
    (setEntry s t fdId fd).k.objects = s.k.objects ∧ (setEntry s t fdId fd).phase = s.phase ∧
      ∀ v, v ≠ t → (setEntry s t fdId fd).k.tasks[v]? = s.k.tasks[v]? := by
  unfold setEntry
  split
  · exact ⟨rfl, rfl, fun _ _ => rfl⟩
  · exact ⟨rfl, rfl, fun v hv => List.getElem?_set_ne hv.symm⟩

theorem reading_entry (h : Reading s) (ht : s.phase t = .out) (hphase : s'.phase = s.phase)
    (htasks : ∀ v, v ≠ t → s'.k.tasks[v]? = s.k.tasks[v]?) : Reading s' := by
  refine h.kept (fun v p hv => by rwa [hphase] at hv) fun v task hv htask => ?_
  rw [htasks v, htask]
  rintro rfl
  exact hv (by rw [ht, Phase.ptr])

theorem read_kept {fdId : ℕ} {len : Int32} (h : Reading s) (hg : Readable s (.read t fdId len))
    (hs : step s (.read t fdId len) = some s') : Reading s' ∧ Flow s s' (.read t fdId len) := by
  simp only [step, Option.ite_none_right_eq_some] at hs
  obtain ⟨ht, hs⟩ := hs
  obtain ⟨⟨v, reply⟩, hr, rfl⟩ := Option.map_eq_some_iff.mp hs
  unfold syscallRead at hr
  cases hfd : fdOf s.k t fdId with
  | none =>
    rw [hfd] at hr
    cases hr
    exact ⟨h, flow_same rfl⟩
  | some fd =>
    rw [hfd] at hr
    simp only at hr
    have hread : fd.access &&& fdAccessRead ≠ 0 := fun hz => hg ⟨ht, fd, hfd, hz⟩
    have of_pipe (ptr : ℕ) (hp : pipeOf fd = some ptr)
        (hr : readPipe s t ptr len.toInt.toNat = some (v, reply)) :
        Reading v ∧ Flow s v (.read t fdId len) := by
      obtain ⟨u, hu, he⟩ := Option.map_eq_some_iff.mp hr
      obtain ⟨rfl, -⟩ := Prod.mk.inj he
      obtain ⟨task, htask, hmem⟩ := EndOfFile.fdOf_some hfd
      have hreads := reads_pipeRead hu
      exact ⟨reading_reads h hreads ⟨task, fd, htask, hmem, hp, hread⟩,
        flow_reads hreads ⟨fd, hfd, hp, hread⟩⟩
    have of_disk (node : ℕ) (hr : some (readDisk s t fdId fd node len.toInt.toNat) = some (v, reply)) :
        Reading v ∧ Flow s v (.read t fdId len) := by
      obtain ⟨rfl, -⟩ := Prod.mk.inj (Option.some.inj hr)
      obtain ⟨hobjects, hphase, htasks⟩ := setEntry_eq s t fdId
        (syscallReadDisk s.k.objects.fs fd node len.toInt.toNat).1
      exact ⟨reading_entry h ht hphase htasks, flow_same (by rw [hobjects])⟩
    split_ifs at hr
    · cases hr
      exact ⟨h, flow_same rfl⟩
    · cases hr
      exact ⟨h, flow_same rfl⟩
    · cases htarget : fd.target with
      | stdin =>
        rw [htarget] at hr
        simp only [syscallReadStdin] at hr
        split at hr
        · cases hr
        · cases hr
          exact ⟨h, flow_same rfl⟩
      | stdout =>
        rw [htarget] at hr
        cases hr
      | pipe ptr =>
        rw [htarget] at hr
        exact of_pipe ptr (by rw [pipeOf, htarget]) hr
      | mq ptr =>
        rw [htarget] at hr
        exact of_pipe ptr (by rw [pipeOf, htarget]) hr
      | disk node =>
        rw [htarget] at hr
        exact of_disk node hr
      | dir node =>
        rw [htarget] at hr
        exact of_disk node hr

theorem write_kept {fdId : ℕ} {mem : ℕ → UInt8} {len : Int32} (h : Reading s)
    (hs : step s (.write t fdId mem len) = some s') : Reading s' ∧ Flow s s' (.write t fdId mem len) := by
  simp only [step, Option.ite_none_right_eq_some] at hs
  obtain ⟨ht, hs⟩ := hs
  obtain ⟨⟨v, reply⟩, hr, rfl⟩ := Option.map_eq_some_iff.mp hs
  unfold syscallWrite at hr
  cases hfd : fdOf s.k t fdId with
  | none =>
    rw [hfd] at hr
    cases hr
    exact ⟨h, flow_same rfl⟩
  | some fd =>
    rw [hfd] at hr
    simp only at hr
    split_ifs at hr with hwrite
    · cases hr
      exact ⟨h, flow_same rfl⟩
    · cases hr
      exact ⟨h, flow_same rfl⟩
    generalize slice mem 0 len.toInt.toNat = buffer at hr
    have of_pipe (ptr : ℕ) (hp : pipeOf fd = some ptr)
        (hr : some (writePipe s ptr buffer, Reply.returned len.toInt []) = some (v, reply)) :
        Reading v ∧ Flow s v (.write t fdId mem len) := by
      obtain ⟨rfl, -⟩ := Prod.mk.inj (Option.some.inj hr)
      refine ⟨h.kept (fun v p hv => ?_) fun v task _ htask => htask, fun p _ _ => ?_⟩
      · rwa [writePipe, EndOfFile.ptr_wake] at hv
      · by_cases hpp : p = ptr
        · subst hpp
          by_cases hr : (s.k.objects.pipes p).readerCount = 0
          · exact Or.inl (by simp [writePipe, withPipe, setPipe, pipeWrite, hr])
          · refine Or.inr (Or.inr ⟨⟨buffer ++ [0], ?_⟩, fd, hfd, hp, hwrite⟩)
            simp [writePipe, withPipe, setPipe, pipeWrite, hr]
        · exact Or.inl (by simp [writePipe, withPipe, setPipe, hpp])
    have of_disk (node : ℕ) (hr : some (writeDisk s t fdId fd node buffer) = some (v, reply)) :
        Reading v ∧ Flow s v (.write t fdId mem len) := by
      obtain ⟨rfl, -⟩ := Prod.mk.inj (Option.some.inj hr)
      obtain ⟨hobjects, hphase, htasks⟩ := setEntry_eq
        { s with k := setFs s.k (syscallWriteDisk s.k.objects.fs fd node buffer).1 } t fdId
        (syscallWriteDisk s.k.objects.fs fd node buffer).2.1
      exact ⟨reading_entry h ht hphase htasks, flow_same ((congrArg Objects.pipes hobjects).trans rfl)⟩
    cases htarget : fd.target with
    | stdin =>
      rw [htarget] at hr
      cases hr
    | stdout =>
      rw [htarget] at hr
      cases hr
      exact ⟨h, flow_same rfl⟩
    | pipe ptr =>
      rw [htarget] at hr
      exact of_pipe ptr (by rw [pipeOf, htarget]) hr
    | mq ptr =>
      rw [htarget] at hr
      exact of_pipe ptr (by rw [pipeOf, htarget]) hr
    | disk node =>
      rw [htarget] at hr
      exact of_disk node hr
    | dir node =>
      rw [htarget] at hr
      exact of_disk node hr

theorem resume_kept (h : Reading s) (hs : step s (.resume t) = some s') :
    Reading s' ∧ Flow s s' (.resume t) := by
  obtain ⟨⟨v, reply⟩, hr, rfl⟩ := Option.map_eq_some_iff.mp hs
  unfold resume at hr
  split at hr
  · rename_i ptr len hwoken
    obtain ⟨u, hu, he⟩ := Option.map_eq_some_iff.mp hr
    obtain ⟨rfl, -⟩ := Prod.mk.inj he
    have hfd := h t ptr (by rw [hwoken, Phase.ptr])
    have hreads := reads_finish hu
    exact ⟨reading_reads h hreads hfd, flow_reads hreads hfd⟩
  · cases hr

theorem call_kept {c : Call} (h : Reading s) (hs : step s (.call t c) = some s') :
    Reading s' ∧ Flow s s' (.call t c) := by
  simp only [step, EndOfFile.step, Option.map_eq_some_iff, Option.ite_none_right_eq_some] at hs
  obtain ⟨u, ⟨ht, k', hk, rfl⟩, rfl⟩ := hs
  obtain ⟨task, htask, hp, -⟩ := step_eq_some.mp hk
  refine ⟨h.kept (fun v p hv => ?_) fun v other hv hother => ?_, fun p halive halive' => ?_⟩
  · rcases EndOfFile.agree_leave ht c p v with he | ⟨-, hne⟩
    · simp only at hv
      rwa [he] at hv
    · exact absurd hv hne
  · refine EndOfFile.perform_other hp ?_ hother
    rintro rfl
    exact hv (by rw [ht, Phase.ptr])
  · rcases EndOfFile.perform_pipes htask hp halive'.1 halive'.2 with ⟨-, -, -, hlist⟩ | ⟨-, hdead⟩
    · exact Or.inl hlist
    · have hd := hdead halive.1
      rw [halive.2] at hd
      cases hd

theorem step_kept (h : Reading s) (hg : Readable s a) (hs : step s a = some s') :
    Reading s' ∧ Flow s s' a := by
  cases a with
  | call t c => exact call_kept h hs
  | read t fdId len => exact read_kept h hg hs
  | write t fdId mem len => exact write_kept h hs
  | resume t => exact resume_kept h hs
  | line text =>
    obtain rfl := Option.some.inj hs
    exact ⟨h, flow_same rfl⟩

end steps

theorem readDisk_ne (s : State) (t fdId : ℕ) (fd : Fd) (node len : ℕ) :
    (readDisk s t fdId fd node len).2 ≠ .returned syscallErrWriteonly [] := by
  intro h
  obtain ⟨hret, hbytes⟩ := Reply.returned.inj h
  simp only [syscallReadDisk] at hret hbytes
  split_ifs at hret hbytes with hdeleted
  · cases hret
  · simp only [fsRead] at hret hbytes hdeleted
    split_ifs at hret hbytes hdeleted
    · simp only at hbytes
      rw [hbytes] at hret
      cases hret
    · exact hdeleted rfl

theorem returnBytes_ne (bytes : List UInt8) : returnBytes bytes ≠ .returned syscallErrWriteonly [] := by
  intro h
  have hret := (Reply.returned.inj h).1
  simp only [syscallErrWriteonly] at hret
  omega

theorem syscallRead_ne {s : State} {t fdId : ℕ} {len : Int32} {fd : Fd} (hfd : fdOf s.k t fdId = some fd) :
    syscallRead s t fdId len ≠ some (s, .returned syscallErrWriteonly []) := by
  have haccess : ¬ fd.access ||| fdAccessRead = 0 := by
    intro hz
    exact absurd (Nat.or_eq_zero_iff.mp hz).2 (by decide)
  have of_pipe (ptr : ℕ) : readPipe s t ptr len.toInt.toNat ≠
      some (s, .returned syscallErrWriteonly []) := by
    intro h
    obtain ⟨u, -, he⟩ := Option.map_eq_some_iff.mp h
    have hreply := (Prod.mk.inj he).2
    split_ifs at hreply
    · exact returnBytes_ne _ hreply
    · exact returnBytes_ne _ hreply
  have of_disk (node : ℕ) : some (readDisk s t fdId fd node len.toInt.toNat) ≠
      some (s, .returned syscallErrWriteonly []) := fun h =>
    readDisk_ne s t fdId fd node len.toInt.toNat (congrArg Prod.snd (Option.some.inj h))
  unfold syscallRead
  rw [hfd]
  simp only [if_neg haccess]
  split_ifs
  · simp [syscallErrInvalidLength, syscallErrWriteonly]
  · cases fd.target with
    | stdin =>
      simp only [syscallReadStdin]
      split
      · simp
      · intro h
        exact returnBytes_ne _ (congrArg Prod.snd (Option.some.inj h))
    | stdout => simp
    | pipe ptr => exact of_pipe ptr
    | mq ptr => exact of_pipe ptr
    | disk node => exact of_disk node
    | dir node => exact of_disk node

theorem rights_iff_readable (s : State) (a : Action) : Rights s a ↔ Readable s a := by
  cases a with
  | read t fdId len =>
    constructor
    · intro h hlacks
      obtain ⟨-, fd, hfd, -⟩ := id hlacks
      exact syscallRead_ne hfd (h hlacks)
    · exact fun h hlacks => absurd hlacks h
  | write t fdId mem len =>
    refine iff_of_true ?_ trivial
    rintro ⟨-, fd, hfd, hz⟩
    simp [syscallWrite, hfd, hz]
  | call t c => exact Iff.rfl
  | resume t => exact Iff.rfl
  | line text => exact Iff.rfl

/-- In a run the access rights are enforced at every call exactly when no read goes through a descriptor
without the read bit. -/
theorem enforced_iff (objects : Objects) (unset : Fd) (as : List Action) :
    Meets step Readable (init objects unset) as ↔
      ∀ bs a s, bs ++ [a] <+: as → exec step (init objects unset) bs = some s →
        Rights s a ∧ ∀ s', step s a = some s' → Flow s s' a := by
  refine meets_iff_steps (fun s a t h hg hs => (step_kept h hg hs).1) (fun s a h => ?_) ?_
  · rw [rights_iff_readable]
    exact and_iff_left_of_imp fun hg s' hs => (step_kept h hg hs).2
  · intro t p ht
    cases ht

/-- The write end 3 of a pipe gives back the byte written to it. -/
theorem readable_write_end : ¬ ∀ (objects : Objects) (unset : Fd) (as bs : List Action) (a : Action)
    (s : State), bs ++ [a] <+: as → exec step (init objects unset) bs = some s →
    Rights s a ∧ ∀ s', step s a = some s' → Flow s s' a := by
  intro h
  have hr := (h blankObjects blankFd _ [.call 0 .pipe, .write 0 3 (fun _ => 65) 1] (.read 0 3 1) _
    List.prefix_rfl rfl).1 ⟨rfl, _, rfl, rfl⟩
  exact syscallRead_ne rfl hr

end Eedox.AccessRights
