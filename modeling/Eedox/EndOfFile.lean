import Eedox.Endpoints

namespace Eedox.EndOfFile

open Library.Runs Util Semaphore Pipe Descriptor Mq Syscall Endpoints

inductive Phase
  | out
  | asleep (ptr len : ℕ)
  | woken (ptr len : ℕ)
  | exited
  deriving DecidableEq

def Phase.awake : Phase → Phase
  | .asleep ptr len => .woken ptr len
  | ph => ph

def Phase.ptr : Phase → Option ℕ
  | .asleep ptr _ | .woken ptr _ => some ptr
  | .out | .exited => none

structure State where
  k : Kernel
  phase : ℕ → Phase

inductive Action
  | call (t : ℕ) (c : Call)
  | read (t fdId len : ℕ)
  | write (t fdId : ℕ) (buffer : List UInt8)
  | resume (t : ℕ)

def init (objects : Objects) (unset : Fd) : State := ⟨boot objects unset, fun _ => .out⟩

def withPipe (k : Kernel) (ptr : ℕ) (pipe : PipeT ℕ) : Kernel :=
  { k with objects := setPipe k.objects ptr pipe }

def wake (phase : ℕ → Phase) : Option ℕ → ℕ → Phase
  | none => phase
  | some u => Function.update phase u (phase u).awake

def fdOf (k : Kernel) (t fdId : ℕ) : Option Fd :=
  k.tasks[t]?.bind fun task => task.table.records[fdId]?.filter fun fd => fd.isopen

def finish (s : State) (t ptr len : ℕ) : Option State :=
  (pipeReadEnd (s.k.objects.pipes ptr) len).map fun next =>
    ⟨withPipe s.k ptr next.1, wake (Function.update s.phase t .out) next.2.1⟩

def pipeRead (s : State) (t ptr len : ℕ) : Option State :=
  let pipe := s.k.objects.pipes ptr
  if atEnd pipe then some s
  else
    let waited := withPipe s.k ptr { pipe with lock := ksemaphoreWait pipe.lock t }
    if mustSleep pipe.lock then some ⟨waited, Function.update s.phase t (.asleep ptr len)⟩
    else finish ⟨waited, s.phase⟩ t ptr len

/-- A read of a pipe. The test of the access never fails, so the write end can be read too. -/
def syscallRead (s : State) (t fdId len : ℕ) : Option State :=
  match fdOf s.k t fdId with
  | none => some s
  | some fd =>
    if fd.access ||| fdAccessRead = 0 ∨ len = 0 then some s
    else (pipeOf fd).bind fun ptr => pipeRead s t ptr len

def syscallWrite (s : State) (t fdId : ℕ) (buffer : List UInt8) : Option State :=
  match fdOf s.k t fdId with
  | none => some s
  | some fd =>
    if fd.access &&& fdAccessWrite = 0 ∨ buffer = [] then some s
    else (pipeOf fd).map fun ptr =>
      let next := pipeWrite (s.k.objects.pipes ptr) buffer
      ⟨withPipe s.k ptr next.1, wake s.phase next.2⟩

def leave (c : Call) (phase : Phase) : Phase :=
  match c with
  | .exit => .exited
  | _ => phase

def step (s : State) : Action → Option State
  | .call t c =>
    if s.phase t = .out then
      (Syscall.step s.k (t, c)).map fun k => ⟨k, Function.update s.phase t (leave c .out)⟩
    else none
  | .read t fdId len => if s.phase t = .out then syscallRead s t fdId len else none
  | .write t fdId buffer => if s.phase t = .out then syscallWrite s t fdId buffer else none
  | .resume t =>
    match s.phase t with
    | .woken ptr len => finish s t ptr len
    | _ => none

/-- A task sleeps in `pipe_read` on a pipe that is empty and has no writer. -/
def Stranded (s : State) : Prop := ∃ t p len, s.phase t = .asleep p len ∧
  (s.k.objects.pipes p).list = [] ∧ (s.k.objects.pipes p).writerCount = 0

def closing (table : FdTable) : Call → List Fd
  | .close fdId => (table.records[fdId]?.filter fun fd => fd.isopen).toList
  | .exit => openFds table
  | _ => []

/-- The last write end of an empty pipe is only closed when nobody sleeps on it, and the last message of
a pipe without a writer is only taken whole when nobody else sleeps on it. -/
def Safe (s : State) : Action → Prop
  | .call t c => ∀ task, s.k.tasks[t]? = some task → ∀ p,
      (s.k.objects.pipes p).list = [] → 0 < (s.k.objects.pipes p).writerCount →
      (s.k.objects.pipes p).writerCount = (ends fdAccessWrite (closing task.table c)).count p →
      ∀ u len, s.phase u ≠ .asleep p len
  | .resume t => ∀ p len input, s.phase t = .woken p len → (s.k.objects.pipes p).list = [input] →
      strlen input ≤ len → (s.k.objects.pipes p).writerCount = 0 →
      ∀ u len, s.phase u ≠ .asleep p len
  | _ => True

def SameAt (o o' : Objects) (p : ℕ) : Prop := p < o.nextPipe ∧ (o.pipes p).dead = false ∧
  (o'.pipes p).lock = (o.pipes p).lock ∧ (o'.pipes p).list = (o.pipes p).list

def NewAt (o o' : Objects) (p : ℕ) : Prop :=
  o'.pipes p = pipeNew ∧ (p < o.nextPipe → (o.pipes p).dead = true)

def Untouched (o o' : Objects) : Prop :=
  ∀ p < o'.nextPipe, (o'.pipes p).dead = false → SameAt o o' p

theorem Untouched.refl (o : Objects) : Untouched o o := fun _ hp hd => ⟨hp, hd, rfl, rfl⟩

theorem Untouched.trans {o o' o'' : Objects} (h : Untouched o o') (h' : Untouched o' o'') :
    Untouched o o'' := by
  intro p hp hd
  obtain ⟨hp', hd', hl', hm'⟩ := h' p hp hd
  obtain ⟨hp, hd, hl, hm⟩ := h p hp' hd'
  exact ⟨hp, hd, hl'.trans hl, hm'.trans hm⟩

theorem untouched_setFs (o : Objects) (fs : Fs.Volume) : Untouched o { o with fs := fs } :=
  fun _ hp hd => ⟨hp, hd, rfl, rfl⟩

theorem untouched_setPipe (o : Objects) (p : ℕ) {pipe : PipeT ℕ} (h : pipe.dead = false →
    (o.pipes p).dead = false ∧ pipe.lock = (o.pipes p).lock ∧ pipe.list = (o.pipes p).list) :
    Untouched o (setPipe o p pipe) := by
  intro q hq hd
  by_cases hqp : q = p
  · subst hqp
    simp only [setPipe, Function.update_self] at hd
    obtain ⟨hd, hl, hm⟩ := h hd
    exact ⟨hq, hd, by simpa [setPipe] using hl, by simpa [setPipe] using hm⟩
  · simp only [setPipe, ne_eq, hqp, not_false_eq_true, Function.update_of_ne] at hd
    exact ⟨hq, hd, by simp [setPipe, hqp], by simp [setPipe, hqp]⟩

theorem untouched_cloneEntry (o : Objects) (fd : Fd) : Untouched o (fdTableCloneEntry o fd) := by
  cases hp : pipeOf fd with
  | none =>
    obtain ⟨fs, he⟩ := cloneEntry_of_none hp o
    rw [he]
    exact untouched_setFs o fs
  | some p =>
    rw [cloneEntry_of_some hp]
    refine untouched_setPipe o p fun hd => ?_
    unfold oneMore at hd ⊢
    split_ifs at hd ⊢
    · exact ⟨hd, rfl, rfl⟩
    · exact ⟨hd, rfl, rfl⟩

theorem untouched_cloneEntries (es : List Fd) (o : Objects) :
    Untouched o (es.foldl fdTableCloneEntry o) := by
  induction es generalizing o with
  | nil => exact Untouched.refl o
  | cons e es ih => exact (untouched_cloneEntry o e).trans (ih _)

theorem closeEnd_alive {pipe : PipeT ℕ} (h : (closeEnd pipe).1.dead = false) :
    (closeEnd pipe).1 = pipe := by
  unfold closeEnd at h ⊢
  by_cases hz : pipe.readerCount = 0 ∧ pipe.writerCount = 0
  · rw [if_pos hz] at h
    simp at h
  · rw [if_neg hz]

theorem untouched_closePipe (o : Objects) (p access : ℕ) :
    Untouched o (setPipe o p
      (if access = fdAccessRead then pipeCloseRd (o.pipes p) else pipeCloseWr (o.pipes p)).1) := by
  refine untouched_setPipe o p fun hd => ?_
  split_ifs at hd ⊢
  · have he := closeEnd_alive hd
    rw [pipeCloseRd] at hd ⊢
    rw [he] at hd ⊢
    exact ⟨hd, rfl, rfl⟩
  · have he := closeEnd_alive hd
    rw [pipeCloseWr] at hd ⊢
    rw [he] at hd ⊢
    exact ⟨hd, rfl, rfl⟩

theorem untouched_closeTarget (o : Objects) (fd : Fd) : Untouched o (closeTarget o fd) := by
  unfold closeTarget
  cases fd.target with
  | stdin => exact Untouched.refl o
  | stdout => exact Untouched.refl o
  | disk node => exact untouched_setFs o _
  | dir node => exact untouched_setFs o _
  | mq ptr => exact untouched_closePipe o ptr fd.access
  | pipe ptr =>
    have h := untouched_closePipe o ptr fd.access
    simp only
    generalize (if fd.access = fdAccessRead then pipeCloseRd (o.pipes ptr)
      else pipeCloseWr (o.pipes ptr)) = closed at h ⊢
    split_ifs
    · exact h
    · exact h

theorem untouched_closeAll (indices : List ℕ) (o : Objects) (table : FdTable) :
    Untouched o (indices.foldl (fun s i => fdTableClose s.1 s.2 i) (o, table)).1 := by
  induction indices generalizing o table with
  | nil => exact Untouched.refl o
  | cons i indices ih =>
    rw [List.foldl_cons]
    rcases fdTableClose_cases o table i with he | ⟨fd, -, -, he⟩
    · rw [he]
      exact ih o table
    · rw [he]
      exact (untouched_closeTarget o fd).trans (ih _ _)

theorem new_allocPipe (o : Objects) (queue : Bool) {p : ℕ} (hp : p < (allocPipe o queue).nextPipe)
    (hd : ((allocPipe o queue).pipes p).dead = false) :
    SameAt o (allocPipe o queue) p ∨ NewAt o (allocPipe o queue) p := by
  by_cases hn : p = o.nextPipe
  · subst hn
    exact Or.inr ⟨by simp [allocPipe, setPipe], fun h => absurd h (Nat.lt_irrefl _)⟩
  · have hlt : p < o.nextPipe := by
      simp only [allocPipe] at hp
      omega
    simp only [allocPipe, setPipe, ne_eq, hn, not_false_eq_true, Function.update_of_ne] at hd
    exact Or.inl ⟨hlt, hd, by simp [allocPipe, setPipe, hn], by simp [allocPipe, setPipe, hn]⟩

theorem new_reopenPipe (o : Objects) (entPipe : ℕ) {p : ℕ} (hp : p < o.nextPipe)
    (hd : ((reopenPipe o entPipe).pipes p).dead = false) :
    SameAt o (reopenPipe o entPipe) p ∨ NewAt o (reopenPipe o entPipe) p := by
  by_cases he : p = entPipe
  · subst he
    cases hdead : (o.pipes p).dead
    · exact Or.inl ⟨hp, hdead, by simp [reopenPipe, setPipe, hdead], by simp [reopenPipe, setPipe, hdead]⟩
    · exact Or.inr ⟨by simp [reopenPipe, setPipe, hdead], fun _ => hdead⟩
  · simp only [reopenPipe, setPipe, ne_eq, he, not_false_eq_true, Function.update_of_ne] at hd
    exact Or.inl ⟨hp, hd, by simp [reopenPipe, setPipe, he], by simp [reopenPipe, setPipe, he]⟩

theorem new_mqlistOpen (o : Objects) (list : Mqlist) (name : Str) {p : ℕ}
    (hp : p < (mqlistOpen o list name).1.nextPipe)
    (hd : ((mqlistOpen o list name).1.pipes p).dead = false) :
    SameAt o (mqlistOpen o list name).1 p ∨ NewAt o (mqlistOpen o list name).1 p := by
  unfold mqlistOpen at hp hd ⊢
  cases hf : list.find? fun entry => strcmp entry.name.chars name.chars = 0 with
  | some e =>
    rw [hf] at hp hd
    exact new_reopenPipe o e.pipe hp hd
  | none =>
    rw [hf] at hp hd
    simp only at hp hd ⊢
    split_ifs at hp hd ⊢
    · exact new_allocPipe o true hp hd
    · exact new_allocPipe o true hp hd

section calls

variable {k k' : Kernel} {t : ℕ} {task : Task} {c : Call}

theorem perform_pipes (ht : k.tasks[t]? = some task) (h : perform k t task c = some k') {p : ℕ}
    (hp : p < k'.objects.nextPipe) (hd : (k'.objects.pipes p).dead = false) :
    SameAt k.objects k'.objects p ∨ NewAt k.objects k'.objects p := by
  have of_fsCall (hf : FsCall k k') : SameAt k.objects k'.objects p ∨ NewAt k.objects k'.objects p := by
    obtain ⟨fs, ho⟩ := hf.objects
    rw [ho] at hp hd ⊢
    exact Or.inl (untouched_setFs k.objects fs p hp hd)
  have of_untouched (hu : Untouched k.objects k'.objects) :
      SameAt k.objects k'.objects p ∨ NewAt k.objects k'.objects p := Or.inl (hu p hp hd)
  cases c with
  | «open» path flags => exact of_fsCall (fsCall_open ht h)
  | opendir path => exact of_fsCall (fsCall_opendir ht h)
  | mkdir path => exact of_fsCall (fsCall_mkdir h)
  | stat path => exact of_fsCall (fsCall_stat h)
  | setcwd path => exact of_fsCall (fsCall_setcwd_perform ht h)
  | exec path => exact of_fsCall (fsCall_exec h)
  | close fdId =>
    obtain rfl := Option.some.inj h
    apply of_untouched
    unfold syscallClose
    split
    · exact Untouched.refl _
    · split_ifs
      · exact Untouched.refl _
      · exact untouched_closeAll [fdId] k.objects task.table
  | dup index =>
    obtain rfl := Option.some.inj h
    apply of_untouched
    unfold syscallDup fdTableDup
    cases hi : task.table.records[index]? with
    | none => exact Untouched.refl _
    | some fd =>
      simp only
      split_ifs
      · exact Untouched.refl _
      · exact untouched_cloneEntry k.objects fd
  | fork =>
    obtain rfl := Option.some.inj h
    apply of_untouched
    change Untouched k.objects (fdTableClone k.unset k.objects task.table).1
    rw [(fdTableClone_eq k.unset k.objects task.table).1]
    exact untouched_cloneEntries _ _
  | exit =>
    obtain rfl := Option.some.inj h
    exact of_untouched (untouched_closeAll _ k.objects task.table)
  | pipe =>
    obtain rfl := Option.some.inj h
    exact new_allocPipe k.objects false hp hd
  | mqopen name =>
    obtain rfl := Option.some.inj h
    exact new_mqlistOpen k.objects k.mqlist name hp hd

theorem perform_tasks (h : perform k t task c = some k') :
    (∃ task', k'.tasks = k.tasks.set t task') ∨ ∃ new, k'.tasks = k.tasks ++ new := by
  have same (he : k'.tasks = k.tasks) :
      (∃ task', k'.tasks = k.tasks.set t task') ∨ ∃ new, k'.tasks = k.tasks ++ new :=
    Or.inr ⟨[], by rw [he, List.append_nil]⟩
  cases c with
  | «open» path flags =>
    obtain ⟨⟨_, reply⟩, hr, rfl⟩ := Option.map_eq_some_iff.mp h
    obtain ⟨⟨fs, node, res⟩, -, hr⟩ := Option.bind_eq_some_iff.mp hr
    simp only at hr
    split_ifs at hr with hres
    · cases hr
      exact same rfl
    · obtain ⟨node, -, hr⟩ := Option.map_eq_some_iff.mp hr
      rw [← hr]
      exact Or.inl ⟨_, rfl⟩
  | opendir path =>
    obtain ⟨⟨_, reply⟩, hr, rfl⟩ := Option.map_eq_some_iff.mp h
    obtain ⟨⟨fs, node, res⟩, -, hr⟩ := Option.bind_eq_some_iff.mp hr
    simp only at hr
    split_ifs at hr with hres
    · cases hr
      exact same rfl
    · obtain ⟨node, -, hr⟩ := Option.map_eq_some_iff.mp hr
      rw [← hr]
      exact Or.inl ⟨_, rfl⟩
  | mkdir path =>
    obtain ⟨⟨_, reply⟩, hr, rfl⟩ := Option.map_eq_some_iff.mp h
    obtain ⟨⟨fs, node, res⟩, -, hr⟩ := Option.map_eq_some_iff.mp hr
    cases hr
    exact same rfl
  | stat path =>
    obtain ⟨⟨_, reply⟩, hr, rfl⟩ := Option.map_eq_some_iff.mp h
    obtain ⟨⟨fs, node, res⟩, -, hr⟩ := Option.map_eq_some_iff.mp hr
    simp only at hr
    split_ifs at hr with hres
    · cases hr
      exact same rfl
    · cases hr
      exact same rfl
  | setcwd path =>
    obtain ⟨⟨_, reply⟩, hr, rfl⟩ := Option.map_eq_some_iff.mp h
    obtain ⟨⟨fs, dir, res⟩, -, hr⟩ := Option.map_eq_some_iff.mp hr
    simp only at hr
    split_ifs at hr with hres
    · cases hr
      exact same rfl
    · cases hr
      exact Or.inl ⟨_, rfl⟩
  | exec path =>
    obtain ⟨⟨_, reply⟩, hr, rfl⟩ := Option.map_eq_some_iff.mp h
    obtain ⟨⟨fs, node, res⟩, -, hr⟩ := Option.map_eq_some_iff.mp hr
    cases hr
    exact same rfl
  | close fdId =>
    obtain rfl := Option.some.inj h
    unfold syscallClose
    split
    · exact Or.inr ⟨[], by simp⟩
    · split_ifs
      · exact Or.inr ⟨[], by simp⟩
      · exact Or.inl ⟨_, rfl⟩
  | dup index =>
    obtain rfl := Option.some.inj h
    unfold syscallDup
    split
    · exact Or.inr ⟨[], by simp⟩
    · split_ifs
      · exact Or.inr ⟨[], by simp⟩
      · exact Or.inl ⟨_, rfl⟩
  | fork =>
    obtain rfl := Option.some.inj h
    exact Or.inr ⟨_, rfl⟩
  | exit =>
    obtain rfl := Option.some.inj h
    exact Or.inl ⟨_, rfl⟩
  | pipe =>
    obtain rfl := Option.some.inj h
    exact Or.inl ⟨_, rfl⟩
  | mqopen name =>
    obtain rfl := Option.some.inj h
    exact Or.inl ⟨_, rfl⟩

theorem perform_other (h : perform k t task c = some k') {u : ℕ} (hu : u ≠ t) {other : Task}
    (ho : k.tasks[u]? = some other) : k'.tasks[u]? = some other := by
  rcases perform_tasks h with ⟨task', he⟩ | ⟨new, he⟩
  · rw [he, List.getElem?_set_ne hu.symm, ho]
  · rw [he, List.getElem?_append_left (List.getElem?_eq_some_iff.mp ho).1, ho]

end calls

theorem open_closeAll (indices : List ℕ) (o : Objects) (table : FdTable) (i : ℕ) (fd : Fd)
    (hi : (indices.foldl (fun s i => fdTableClose s.1 s.2 i) (o, table)).2.records[i]? = some fd)
    (hfd : fd.isopen = true) : i ∉ indices ∧ table.records[i]? = some fd := by
  induction indices generalizing o table with
  | nil => exact ⟨List.not_mem_nil, hi⟩
  | cons j indices ih =>
    rw [List.foldl_cons] at hi
    obtain ⟨hmem, hold⟩ := ih (fdTableClose o table j).1 (fdTableClose o table j).2 hi
    suffices hij : i ≠ j ∧ table.records[i]? = some fd from
      ⟨fun hm => (List.mem_cons.mp hm).elim hij.1 hmem, hij.2⟩
    unfold fdTableClose at hold
    cases hj : table.records[j]? with
    | none =>
      rw [hj] at hold
      refine ⟨?_, hold⟩
      rintro rfl
      simp [hj] at hold
    | some fdj =>
      rw [hj] at hold
      simp only at hold
      by_cases hopen : fdj.isopen = true
      · rw [if_neg (by simp [hopen])] at hold
        by_cases hij : i = j
        · subst hij
          simp only [fdTableRem, List.getElem?_modify, hj, ↓reduceIte, Option.map_eq_map,
            Option.map_some, Option.some.injEq] at hold
          rw [← hold] at hfd
          cases hfd
        · refine ⟨hij, ?_⟩
          simpa [fdTableRem, List.getElem?_modify, Ne.symm hij] using hold
      · rw [if_pos (by simpa using hopen)] at hold
        refine ⟨?_, hold⟩
        rintro rfl
        obtain rfl : fdj = fd := Option.some.inj (hj.symm.trans hold)
        exact hopen hfd

theorem openFds_taskCloseAllFds (o : Objects) (table : FdTable) :
    openFds (taskCloseAllFds o table).2 = [] := by
  refine List.filter_eq_nil_iff.mpr fun fd hfd hopen => ?_
  obtain ⟨i, hi⟩ := List.mem_iff_getElem?.mp hfd
  obtain ⟨hmem, hold⟩ := open_closeAll _ o table i fd hi hopen
  exact hmem (List.mem_range.mpr (List.getElem?_eq_some_iff.mp hold).1)

def Traded (k k' : Kernel) (closed : List Fd) : Prop :=
  ∃ extra rest, (descriptors k).Perm (closed ++ rest) ∧ (descriptors k').Perm (extra ++ rest) ∧
    (closed ≠ [] → extra = [])

theorem traded_adds {k k' : Kernel} {extra : List Fd}
    (h : (descriptors k').Perm (extra ++ descriptors k)) : Traded k k' [] :=
  ⟨extra, descriptors k, List.Perm.refl _, h, fun hne => absurd rfl hne⟩

theorem Traded.refl (k : Kernel) : Traded k k [] := @traded_adds _ _ [] (List.Perm.refl _)

section calls

variable {k k' : Kernel} {t : ℕ} {task : Task} {c : Call}

theorem traded_fsCall (h : FsCall k k') : Traded k k' [] := by
  obtain ⟨extra, hd, -⟩ := h.descriptors
  exact traded_adds hd

theorem traded_setTable (ht : k.tasks[t]? = some task) {objects : Objects} {table : FdTable}
    {extra : List Fd} (hp : (openFds table).Perm (extra ++ openFds task.table)) :
    Traded k (setTable k t task objects table) [] := by
  obtain ⟨rest, hold, hnew⟩ := descriptors_split ht
  refine @traded_adds _ _ extra ((hnew objects table).trans ((hp.append_right rest).trans ?_))
  rw [List.append_assoc]
  exact hold.symm.append_left extra

theorem traded_close (ht : k.tasks[t]? = some task) (fdId : ℕ) :
    Traded k (syscallClose k t task fdId).1 (closing task.table (.close fdId)) := by
  unfold syscallClose
  cases hi : task.table.records[fdId]? with
  | none =>
    rw [closing, hi]
    exact Traded.refl k
  | some fd =>
    cases hopen : fd.isopen
    · rw [closing, hi, Option.filter_some_neg (by simp [hopen])]
      simp only [hopen, Bool.not_false, ↓reduceIte]
      exact Traded.refl k
    · obtain ⟨rest, hold, hnew⟩ := descriptors_split ht
      have hrem := openFds_rem hi hopen
      have hclose : fdTableClose k.objects task.table fdId =
          (closeTarget k.objects fd, fdTableRem task.table fdId) := by
        simp [fdTableClose, hi, hopen]
      rw [closing, hi, Option.filter_some_pos hopen]
      refine ⟨[], openFds (fdTableRem task.table fdId) ++ rest, ?_, ?_, fun _ => rfl⟩
      · exact hold.trans (hrem.append_right rest)
      · simp only [hopen, Bool.not_true, Bool.false_eq_true, ↓reduceIte, hclose, List.nil_append]
        exact hnew _ _

theorem traded_dup (ht : k.tasks[t]? = some task) (index : ℕ) :
    Traded k (syscallDup k t task index).1 [] := by
  unfold syscallDup fdTableDup
  cases hi : task.table.records[index]? with
  | none => exact Traded.refl k
  | some fd =>
    simp only
    split_ifs
    · exact Traded.refl k
    · exact @traded_setTable _ _ _ ht _ _ [{ fd with isopen := true }] (openFds_add task.table fd)

theorem traded_fork : Traded k (taskFork k task).1 [] := by
  obtain ⟨-, hopen⟩ := fdTableClone_eq k.unset k.objects task.table
  refine @traded_adds _ _ (openFds task.table) ?_
  rw [descriptors, taskFork, List.flatMap_append, List.flatMap_singleton, hopen]
  exact List.perm_append_comm

theorem traded_exit (ht : k.tasks[t]? = some task) :
    Traded k (syscallExit k t task) (openFds task.table) := by
  obtain ⟨rest, hold, hnew⟩ := descriptors_split ht
  refine ⟨[], rest, hold, ?_, fun _ => rfl⟩
  have h := hnew (taskCloseAllFds k.objects task.table).1 (taskCloseAllFds k.objects task.table).2
  rwa [openFds_taskCloseAllFds] at h

theorem perform_traded (ht : k.tasks[t]? = some task) (h : perform k t task c = some k') :
    Traded k k' (closing task.table c) := by
  cases c with
  | «open» path flags => exact traded_fsCall (fsCall_open ht h)
  | opendir path => exact traded_fsCall (fsCall_opendir ht h)
  | mkdir path => exact traded_fsCall (fsCall_mkdir h)
  | stat path => exact traded_fsCall (fsCall_stat h)
  | setcwd path => exact traded_fsCall (fsCall_setcwd_perform ht h)
  | exec path => exact traded_fsCall (fsCall_exec h)
  | close fdId =>
    obtain rfl := Option.some.inj h
    exact traded_close ht fdId
  | dup index =>
    obtain rfl := Option.some.inj h
    exact traded_dup ht index
  | fork =>
    obtain rfl := Option.some.inj h
    exact traded_fork
  | exit =>
    obtain rfl := Option.some.inj h
    exact traded_exit ht
  | pipe =>
    obtain rfl := Option.some.inj h
    exact @traded_setTable _ _ _ ht _ _ [writeEnd (.pipe k.objects.nextPipe), readEnd (.pipe k.objects.nextPipe)]
      (openFds_addEnds task.table (.pipe k.objects.nextPipe))
  | mqopen name =>
    obtain rfl := Option.some.inj h
    let ptr := (mqlistOpen k.objects k.mqlist name).2.2
    exact @traded_setTable _ _ _ ht ((mqlistOpen k.objects k.mqlist name).1) _
      [writeEnd (.mq ptr), readEnd (.mq ptr)] (openFds_addEnds task.table (.mq ptr))

end calls

/-- The readers that sleep on the pipe are the queue of its semaphore, and the messages are those that
the semaphore counts and those that a woken reader has a claim on. -/
structure Served (p : ℕ) (pipe : PipeT ℕ) (phase : ℕ → Phase) : Prop where
  balanced : Balanced pipe.lock
  nodup : pipe.lock.sq.Nodup
  sleepers : ∀ t, t ∈ pipe.lock.sq ↔ ∃ len, phase t = .asleep p len
  claims : ∃ woken : List ℕ, woken.Nodup ∧ (∀ t, t ∈ woken ↔ ∃ len, phase t = .woken p len) ∧
    (pipe.list.length : ℤ) = pipe.lock.value + pipe.lock.sq.length + woken.length

def Agree (p : ℕ) (phase phase' : ℕ → Phase) : Prop :=
  ∀ t, phase' t = phase t ∨ (phase t).ptr ≠ some p ∧ (phase' t).ptr ≠ some p

theorem Agree.asleep {p : ℕ} {phase phase' : ℕ → Phase} (h : Agree p phase phase') (t len : ℕ) :
    phase' t = .asleep p len ↔ phase t = .asleep p len := by
  rcases h t with he | ⟨h1, h2⟩
  · rw [he]
  · constructor
    · intro ht
      rw [ht] at h2
      exact absurd rfl h2
    · intro ht
      rw [ht] at h1
      exact absurd rfl h1

theorem Agree.woken {p : ℕ} {phase phase' : ℕ → Phase} (h : Agree p phase phase') (t len : ℕ) :
    phase' t = .woken p len ↔ phase t = .woken p len := by
  rcases h t with he | ⟨h1, h2⟩
  · rw [he]
  · constructor
    · intro ht
      rw [ht] at h2
      exact absurd rfl h2
    · intro ht
      rw [ht] at h1
      exact absurd rfl h1

theorem agree_update {p t : ℕ} {phase : ℕ → Phase} {ph : Phase} (h : (phase t).ptr ≠ some p)
    (hph : ph.ptr ≠ some p) : Agree p phase (Function.update phase t ph) := by
  intro u
  by_cases hu : u = t
  · subst hu
    exact Or.inr ⟨h, by simpa using hph⟩
  · exact Or.inl (by simp [hu])

theorem Agree.trans {p : ℕ} {a b c : ℕ → Phase} (h : Agree p a b) (h' : Agree p b c) :
    Agree p a c := by
  intro t
  rcases h t with he | ⟨h1, h2⟩
  · rw [← he]
    exact h' t
  · rcases h' t with he' | ⟨-, h3⟩
    · rw [he']
      exact Or.inr ⟨h1, h2⟩
    · exact Or.inr ⟨h1, h3⟩

@[simp] theorem ptr_awake (ph : Phase) : ph.awake.ptr = ph.ptr := by
  cases ph <;> rfl

@[simp] theorem ptr_wake (phase : ℕ → Phase) (o : Option ℕ) (t : ℕ) :
    (wake phase o t).ptr = (phase t).ptr := by
  cases o with
  | none => rfl
  | some u =>
    by_cases ht : t = u
    · subst ht
      simp [wake]
    · simp [wake, ht]

theorem Served.agree {p : ℕ} {pipe : PipeT ℕ} {phase phase' : ℕ → Phase} (h : Served p pipe phase)
    (ha : Agree p phase phase') : Served p pipe phase' := by
  obtain ⟨woken, hn, hw, hc⟩ := h.claims
  refine ⟨h.balanced, h.nodup, fun t => ?_, woken, hn, fun t => ?_, hc⟩
  · simp only [h.sleepers, ha.asleep]
  · simp only [hw, ha.woken]

theorem Served.same {p : ℕ} {pipe pipe' : PipeT ℕ} {phase : ℕ → Phase} (h : Served p pipe phase)
    (hl : pipe'.lock = pipe.lock) (hm : pipe'.list = pipe.list) : Served p pipe' phase := by
  obtain ⟨woken, hn, hw, hc⟩ := h.claims
  exact ⟨by rw [hl]; exact h.balanced, by rw [hl]; exact h.nodup, by rw [hl]; exact h.sleepers,
    woken, hn, hw, by rw [hl, hm]; exact hc⟩

theorem served_new {p : ℕ} {phase : ℕ → Phase} (h : ∀ t, (phase t).ptr ≠ some p) :
    Served p pipeNew phase := by
  have hno : ∀ t len, phase t ≠ .asleep p len ∧ phase t ≠ .woken p len := by
    intro t len
    constructor
    · intro ht
      exact h t (by rw [ht, Phase.ptr])
    · intro ht
      exact h t (by rw [ht, Phase.ptr])
  refine ⟨balanced_init le_rfl, List.nodup_nil, fun t => ?_, [], List.nodup_nil, fun t => ?_, rfl⟩
  · simp [pipeNew, ksemaphoreInit, (hno t _).1]
  · simp [(hno t _).2]

theorem served_signal {p : ℕ} {pipe : PipeT ℕ} {phase : ℕ → Phase} (h : Served p pipe phase)
    {list : List (List UInt8)} (hl : list.length = pipe.list.length + 1) :
    Served p { pipe with list := list, lock := (ksemaphoreSignal pipe.lock).1 }
      (wake phase pipe.lock.sq.head?) := by
  obtain ⟨woken, hn, hw, hc⟩ := h.claims
  have hb := balanced_signal h.balanced
  cases hsq : pipe.lock.sq with
  | nil =>
    refine ⟨hb, by simp [ksemaphoreSignal, hsq], fun t => ?_, woken, hn, hw, ?_⟩
    · have := h.sleepers t
      rw [hsq] at this
      simpa [ksemaphoreSignal, hsq, wake] using this
    · simp only [ksemaphoreSignal, hsq, List.tail_nil, List.length_nil] at hc ⊢
      omega
  | cons u us =>
    have hnd := h.nodup
    rw [hsq] at hnd
    obtain ⟨len, hu⟩ := (h.sleepers u).mp (by rw [hsq]; exact List.mem_cons_self)
    have hwake : wake phase (some u) = Function.update phase u (.woken p len) := by
      simp [wake, hu, Phase.awake]
    have huw : u ∉ woken := by
      rw [hw]
      simp [hu]
    simp only [List.head?_cons, hwake]
    refine ⟨hb, ?_, fun t => ?_, u :: woken, List.nodup_cons.mpr ⟨huw, hn⟩, fun t => ?_, ?_⟩
    · simp only [ksemaphoreSignal, hsq, List.tail_cons]
      exact (List.nodup_cons.mp hnd).2
    · simp only [ksemaphoreSignal, hsq, List.tail_cons]
      by_cases ht : t = u
      · subst ht
        simp [(List.nodup_cons.mp hnd).1]
      · have := h.sleepers t
        rw [hsq, List.mem_cons] at this
        simpa [ht] using this
    · by_cases ht : t = u
      · subst ht
        simp
      · have := hw t
        simpa [ht] using this
    · simp only [ksemaphoreSignal, hsq, List.tail_cons, List.length_cons] at hc ⊢
      omega

theorem served_sleep {p t len : ℕ} {pipe : PipeT ℕ} {phase : ℕ → Phase} (h : Served p pipe phase)
    (ht : (phase t).ptr = none) (hm : mustSleep pipe.lock = true) :
    Served p { pipe with lock := ksemaphoreWait pipe.lock t }
      (Function.update phase t (.asleep p len)) := by
  obtain ⟨woken, hn, hw, hc⟩ := h.claims
  have hwait : ksemaphoreWait pipe.lock t = ⟨pipe.lock.sq ++ [t], pipe.lock.value - 1⟩ := by
    rw [ksemaphoreWait, if_pos hm]
  have hno : ∀ l, phase t ≠ .asleep p l ∧ phase t ≠ .woken p l := by
    intro l
    constructor
    · intro he
      simp [he, Phase.ptr] at ht
    · intro he
      simp [he, Phase.ptr] at ht
  have htsq : t ∉ pipe.lock.sq := by
    rw [h.sleepers]
    simp [(hno _).1]
  have htw : t ∉ woken := by
    rw [hw]
    simp [(hno _).2]
  refine ⟨balanced_wait h.balanced t, ?_, fun u => ?_, woken, hn, fun u => ?_, ?_⟩
  · simp only [hwait]
    refine List.nodup_append.mpr ⟨h.nodup, by simp, ?_⟩
    rintro u hu v hv rfl
    obtain rfl : u = t := by simpa using hv
    exact htsq hu
  · simp only [hwait, List.mem_append, List.mem_singleton, h.sleepers]
    by_cases hu : u = t
    · subst hu
      simp
    · simp [hu]
  · by_cases hu : u = t
    · subst hu
      simp [htw]
    · simpa [hu] using hw u
  · simp only [hwait, List.length_append, List.length_singleton]
    omega

theorem served_resume {p t len : ℕ} {pipe : PipeT ℕ} {phase : ℕ → Phase} (h : Served p pipe phase)
    (ht : phase t = .woken p len) : ∃ input rest, pipe.list = input :: rest ∧
      Served p { pipe with list := rest } (Function.update phase t .out) := by
  obtain ⟨woken, hn, hw, hc⟩ := h.claims
  have htw : t ∈ woken := (hw t).mpr ⟨len, ht⟩
  have hpos := List.length_pos_of_mem htw
  have hne : pipe.list ≠ [] := by
    intro he
    have hb := h.balanced
    simp only [Semaphore.Balanced, he, List.length_nil] at hb hc
    omega
  obtain ⟨input, rest, hl⟩ := List.exists_cons_of_ne_nil hne
  refine ⟨input, rest, hl, h.balanced, h.nodup, fun u => ?_, woken.erase t, hn.erase t, fun u => ?_, ?_⟩
  · rw [h.sleepers]
    by_cases hu : u = t
    · subst hu
      simp [ht]
    · simp [hu]
  · by_cases hu : u = t
    · subst hu
      simp [hn.mem_erase_iff]
    · rw [List.mem_erase_of_ne hu, hw]
      simp [hu]
  · rw [hl] at hc
    simp only [List.length_cons, List.length_erase_of_mem htw] at hc ⊢
    omega

theorem served_direct {p : ℕ} {pipe : PipeT ℕ} {phase : ℕ → Phase} (h : Served p pipe phase) (t : ℕ)
    (hm : ¬ mustSleep pipe.lock = true) : pipe.lock.sq = [] ∧ ∃ input rest, pipe.list = input :: rest ∧
      Served p { pipe with list := rest, lock := ksemaphoreWait pipe.lock t } phase := by
  obtain ⟨woken, hn, hw, hc⟩ := h.claims
  have hwait : ksemaphoreWait pipe.lock t = { pipe.lock with value := pipe.lock.value - 1 } := by
    rw [ksemaphoreWait, if_neg hm]
  have hv : 0 < pipe.lock.value := by simpa [mustSleep] using hm
  have hb := h.balanced
  simp only [Semaphore.Balanced] at hb
  have hne : pipe.list ≠ [] := by
    intro he
    simp only [he, List.length_nil] at hc
    omega
  obtain ⟨input, rest, hl⟩ := List.exists_cons_of_ne_nil hne
  refine ⟨List.eq_nil_of_length_eq_zero (by omega), input, rest, hl, balanced_wait h.balanced t, ?_,
    fun u => ?_, woken, hn, hw, ?_⟩
  · simpa only [hwait] using h.nodup
  · simpa only [hwait] using h.sleepers u
  · rw [hl] at hc
    simp only [hwait, List.length_cons] at hc ⊢
    omega

theorem pipeReadEnd_cases {pipe : PipeT ℕ} {input : List UInt8} {rest : List (List UInt8)}
    (hl : pipe.list = input :: rest) (len : ℕ) :
    len < strlen input ∧ pipeReadEnd pipe len =
        some ({ pipe with list := shift input len (strlen input - len) :: rest,
                          lock := (ksemaphoreSignal pipe.lock).1 },
          pipe.lock.sq.head?, input.take (min len (strlen input))) ∨
      strlen input ≤ len ∧ pipeReadEnd pipe len =
        some ({ pipe with list := rest }, none, input.take (min len (strlen input))) := by
  rcases Nat.lt_or_ge len (strlen input) with hlt | hge
  · refine Or.inl ⟨hlt, ?_⟩
    simp [pipeReadEnd, hl, hlt, ksemaphoreSignal]
  · refine Or.inr ⟨hge, ?_⟩
    simp [pipeReadEnd, hl, not_lt.mpr hge]

theorem served_finish {p : ℕ} {pipe : PipeT ℕ} {phase : ℕ → Phase} {input : List UInt8}
    {rest : List (List UInt8)} (hl : pipe.list = input :: rest)
    (h : Served p { pipe with list := rest } phase) (len : ℕ) :
    ∃ next, pipeReadEnd pipe len = some next ∧ Served p next.1 (wake phase next.2.1) ∧
      next.1.readerCount = pipe.readerCount ∧ next.1.writerCount = pipe.writerCount ∧
      next.1.dead = pipe.dead ∧ (∀ u ∈ next.2.1, u ∈ pipe.lock.sq) ∧
      (next.1.list = [] ↔ pipe.list = [input] ∧ strlen input ≤ len) ∧
      (next.1.list = [] → next.2.1 = none) := by
  rcases pipeReadEnd_cases hl len with ⟨hlt, he⟩ | ⟨hge, he⟩
  · refine ⟨_, he, served_signal h rfl, rfl, rfl, rfl, fun u hu => List.mem_of_mem_head? hu, ?_, ?_⟩
    · constructor
      · intro hnil
        cases hnil
      · rintro ⟨-, hge⟩
        omega
    · intro hnil
      cases hnil
  · refine ⟨_, he, h, rfl, rfl, rfl, fun u hu => ?_, ?_, fun _ => rfl⟩
    · cases hu
    · simp [hl, hge]

structure Inv (s : State) : Prop where
  sound : Sound s.k
  user : ∀ t p, (s.phase t).ptr = some p → ∃ task fd, s.k.tasks[t]? = some task ∧
    fd ∈ openFds task.table ∧ pipeOf fd = some p
  served : ∀ p < s.k.objects.nextPipe, (s.k.objects.pipes p).dead = false →
    Served p (s.k.objects.pipes p) s.phase

theorem alive_of_fd {k : Kernel} (h : Sound k) {t p : ℕ} {task : Task} {fd : Fd}
    (ht : k.tasks[t]? = some task) (hfd : fd ∈ openFds task.table) (hp : pipeOf fd = some p) :
    p < k.objects.nextPipe ∧ (k.objects.pipes p).dead = false := by
  have hmem : fd ∈ descriptors k := List.mem_flatMap.mpr ⟨task, List.mem_of_getElem? ht, hfd⟩
  obtain ⟨hlt, hd, -⟩ := h.accounted.alive hmem hp
  exact ⟨hlt, hd⟩

theorem Inv.alive {s : State} (h : Inv s) {t p : ℕ} (ht : (s.phase t).ptr = some p) :
    p < s.k.objects.nextPipe ∧ (s.k.objects.pipes p).dead = false := by
  obtain ⟨task, fd, htask, hfd, hp⟩ := h.user t p ht
  exact alive_of_fd h.sound htask hfd hp

theorem inv_init (objects : Objects) (unset : Fd) : Inv (init objects unset) where
  sound := sound_boot objects unset
  user := fun t p h => by cases h
  served := fun p hp => absurd hp (Nat.not_lt_zero p)

theorem sound_withPipe {k : Kernel} (h : Sound k) {p : ℕ} {pipe : PipeT ℕ}
    (hd : (k.objects.pipes p).dead = false) (hd' : pipe.dead = false)
    (hr : pipe.readerCount = (k.objects.pipes p).readerCount)
    (hw : pipe.writerCount = (k.objects.pipes p).writerCount) : Sound (withPipe k p pipe) := by
  refine h.of_kept ⟨fun access ha => ?_, fun q hq => ?_, h.accounted.twoEnds⟩ (kept_setPipe hd pipe) rfl
  · have hc : counter access pipe = counter access (k.objects.pipes p) := by
      rw [counter, counter, hr, hw]
    change Library.RefCount.Balanced _ (fun q => counter access ((setPipe k.objects p pipe).pipes q)) _
    rw [counter_setPipe, hc, Function.update_eq_self]
    exact h.accounted.counted access ha
  · have hs := h.accounted.settled q hq
    by_cases hqp : q = p
    · subst hqp
      have halive := hs.dead
      rw [hd] at halive
      refine ⟨?_, fun hdead => ?_, ?_⟩
      · simpa [withPipe, setPipe, hd', hr, hw] using halive
      · simp [withPipe, setPipe, hd'] at hdead
      · have hf := hs.freed
        simpa [withPipe, setPipe, hd', hd] using hf
    · simpa [withPipe, setPipe, hqp] using hs

theorem inv_withPipe {s : State} (h : Inv s) {p : ℕ} (hd : (s.k.objects.pipes p).dead = false)
    {pipe : PipeT ℕ} (hd' : pipe.dead = false)
    (hr : pipe.readerCount = (s.k.objects.pipes p).readerCount)
    (hw : pipe.writerCount = (s.k.objects.pipes p).writerCount) {phase : ℕ → Phase}
    (hserved : Served p pipe phase) (hagree : ∀ q, q ≠ p → Agree q s.phase phase)
    (huser : ∀ t, (phase t).ptr = some p → ∃ task fd, s.k.tasks[t]? = some task ∧
      fd ∈ openFds task.table ∧ pipeOf fd = some p) :
    Inv ⟨withPipe s.k p pipe, phase⟩ := by
  refine ⟨sound_withPipe h.sound hd hd' hr hw, fun t q htq => ?_, fun q hq hqd => ?_⟩
  · by_cases hqp : q = p
    · subst hqp
      exact huser t htq
    · rcases hagree q hqp t with he | ⟨-, hne⟩
      · exact h.user t q ((congrArg Phase.ptr he).symm.trans htq)
      · exact absurd htq hne
  · by_cases hqp : q = p
    · subst hqp
      simpa [withPipe, setPipe] using hserved
    · simp only [withPipe, setPipe, ne_eq, hqp, not_false_eq_true, Function.update_of_ne] at hqd ⊢
      exact (h.served q hq hqd).agree (hagree q hqp)

theorem agree_wake {p q : ℕ} {phase : ℕ → Phase} {o : Option ℕ}
    (h : ∀ u ∈ o, (phase u).ptr = some p) (hq : q ≠ p) : Agree q phase (wake phase o) := by
  cases o with
  | none => exact fun t => Or.inl rfl
  | some u =>
    have hu := h u rfl
    refine agree_update ?_ ?_
    · rw [hu]
      simpa using hq.symm
    · rw [ptr_awake, hu]
      simpa using hq.symm

theorem wake_asleep {phase : ℕ → Phase} {o : Option ℕ} {t p len : ℕ}
    (h : wake phase o t = .asleep p len) : phase t = .asleep p len := by
  cases o with
  | none => exact h
  | some u =>
    by_cases ht : t = u
    · subst ht
      simp only [wake, Function.update_self] at h
      cases hp : phase t <;> simp [hp, Phase.awake] at h
    · simpa [wake, ht] using h

theorem finish_withPipe (k : Kernel) (phase : ℕ → Phase) (t p len : ℕ) (pipe : PipeT ℕ) :
    finish ⟨withPipe k p pipe, phase⟩ t p len = (pipeReadEnd pipe len).map fun next =>
      ⟨withPipe k p next.1, wake (Function.update phase t .out) next.2.1⟩ := by
  simp [finish, withPipe, setPipe]

theorem withPipe_self (k : Kernel) (p : ℕ) : withPipe k p (k.objects.pipes p) = k := by
  simp [withPipe, setPipe]

theorem fdOf_some {k : Kernel} {t fdId : ℕ} {fd : Fd} (h : fdOf k t fdId = some fd) :
    ∃ task, k.tasks[t]? = some task ∧ fd ∈ openFds task.table := by
  obtain ⟨task, ht, hfd⟩ := Option.bind_eq_some_iff.mp h
  obtain ⟨hi, hopen⟩ := Option.filter_eq_some_iff.mp hfd
  exact ⟨task, ht, List.mem_filter.mpr ⟨List.mem_of_getElem? hi, hopen⟩⟩

theorem stranded_withPipe {s : State} (h : ¬ Stranded s) {p : ℕ} {pipe : PipeT ℕ}
    {phase : ℕ → Phase} (hagree : ∀ q, q ≠ p → Agree q s.phase phase) :
    Stranded ⟨withPipe s.k p pipe, phase⟩ ↔
      ∃ t len, phase t = .asleep p len ∧ pipe.list = [] ∧ pipe.writerCount = 0 := by
  constructor
  · rintro ⟨t, q, len, ht, hl, hw⟩
    by_cases hqp : q = p
    · subst hqp
      simp only [withPipe, setPipe, Function.update_self] at hl hw
      exact ⟨t, len, ht, hl, hw⟩
    · simp only [withPipe, setPipe, ne_eq, hqp, not_false_eq_true, Function.update_of_ne] at hl hw
      exact absurd ⟨t, q, len, ((hagree q hqp).asleep t len).mp ht, hl, hw⟩ h
  · rintro ⟨t, len, ht, hl, hw⟩
    exact ⟨t, p, len, ht, by simpa [withPipe, setPipe] using hl, by simpa [withPipe, setPipe] using hw⟩

theorem finish_spec {s : State} (h : Inv s) {t p len : ℕ} {pipe : PipeT ℕ} {input : List UInt8}
    {rest : List (List UInt8)} (hd : (s.k.objects.pipes p).dead = false) (hd' : pipe.dead = false)
    (hr : pipe.readerCount = (s.k.objects.pipes p).readerCount)
    (hw : pipe.writerCount = (s.k.objects.pipes p).writerCount) (hl : pipe.list = input :: rest)
    (ht : (s.phase t).ptr = none ∨ (s.phase t).ptr = some p)
    (hs : Served p { pipe with list := rest } (Function.update s.phase t .out)) :
    ∃ next, pipeReadEnd pipe len = some next ∧
      Inv ⟨withPipe s.k p next.1, wake (Function.update s.phase t .out) next.2.1⟩ ∧
      (∀ q, q ≠ p → Agree q s.phase (wake (Function.update s.phase t .out) next.2.1)) ∧
      next.1.writerCount = pipe.writerCount ∧
      (next.1.list = [] ↔ pipe.list = [input] ∧ strlen input ≤ len) ∧
      (next.1.list = [] → next.2.1 = none) := by
  obtain ⟨next, he, hserved, hnr, hnw, hnd, hsq, hnil, hnone⟩ := served_finish hl hs len
  have hptr : ∀ u ∈ next.2.1, (Function.update s.phase t .out u).ptr = some p := by
    intro u hu
    obtain ⟨l, hul⟩ := (hs.sleepers u).mp (hsq u hu)
    rw [hul, Phase.ptr]
  have hagree : ∀ q, q ≠ p → Agree q s.phase (wake (Function.update s.phase t .out) next.2.1) := by
    intro q hq
    refine (agree_update ?_ (by simp [Phase.ptr])).trans (agree_wake hptr hq)
    rcases ht with ht | ht
    · simp [ht]
    · simpa [ht] using hq.symm
  refine ⟨next, he, ?_, hagree, hnw, hnil, hnone⟩
  refine inv_withPipe h hd (hnd.trans hd') (hnr.trans hr) (hnw.trans hw) hserved hagree fun u hu => ?_
  rw [ptr_wake] at hu
  by_cases hut : u = t
  · subst hut
    simp [Phase.ptr] at hu
  · rw [Function.update_of_ne hut] at hu
    exact h.user u p hu

theorem agree_leave {s : State} {t : ℕ} (ht : s.phase t = .out) (c : Call) (q : ℕ) :
    Agree q s.phase (Function.update s.phase t (leave c .out)) := by
  have hleave : (leave c .out).ptr = none := by cases c <;> rfl
  exact agree_update (by simp [ht, Phase.ptr]) (by simp [hleave])

theorem inv_perform {s : State} {k' : Kernel} {t : ℕ} {task : Task} {c : Call} (h : Inv s)
    (ht : s.phase t = .out) (htask : s.k.tasks[t]? = some task)
    (hp : perform s.k t task c = some k') :
    Inv ⟨k', Function.update s.phase t (leave c .out)⟩ := by
  have hptr : ∀ u p, (Function.update s.phase t (leave c .out) u).ptr = some p →
      (s.phase u).ptr = some p := by
    intro u p hu
    rcases agree_leave ht c p u with he | ⟨-, hne⟩
    · rwa [he] at hu
    · exact absurd hu hne
  refine ⟨(sound_perform h.sound htask hp).1, fun u p hu => ?_, fun p hlt hd => ?_⟩
  · have hu' := hptr u p hu
    have hut : u ≠ t := by
      rintro rfl
      simp [ht, Phase.ptr] at hu'
    obtain ⟨other, fd, ho, hfd, hfp⟩ := h.user u p hu'
    exact ⟨other, fd, perform_other hp hut ho, hfd, hfp⟩
  · rcases perform_pipes htask hp hlt hd with ⟨hlt', hd', hl, hm⟩ | ⟨hnew, hdead⟩
    · exact ((h.served p hlt' hd').same hl hm).agree (agree_leave ht c p)
    · rw [hnew]
      refine served_new fun u hu => ?_
      obtain ⟨hlt', hd'⟩ := h.alive (hptr u p hu)
      rw [hdead hlt'] at hd'
      cases hd'

theorem not_stranded_call {s s' : State} {t : ℕ} {c : Call} (h : Inv s)
    (hs : step s (.call t c) = some s') :
    Inv s' ∧ (¬ Stranded s → (¬ Stranded s' ↔ Safe s (.call t c))) := by
  simp only [step, Option.ite_none_right_eq_some] at hs
  obtain ⟨ht, hs⟩ := hs
  obtain ⟨k', hk, rfl⟩ := Option.map_eq_some_iff.mp hs
  obtain ⟨task, htask, hp, -⟩ := step_eq_some.mp hk
  have hsound := (sound_perform h.sound htask hp).1
  have hagree := agree_leave ht c
  have hinv := inv_perform h ht htask hp
  refine ⟨hinv, fun hb => ?_⟩
  obtain ⟨extra, rest, hold, hnew, hextra⟩ := perform_traded htask hp
  -- the pipe of a sleeper, before and after the call
  have hpipe : ∀ u p len, s.phase u = .asleep p len → (k'.objects.pipes p).list =
      (s.k.objects.pipes p).list ∧ (s.k.objects.pipes p).writerCount =
        (ends fdAccessWrite (closing task.table c)).count p + (ends fdAccessWrite rest).count p ∧
      (k'.objects.pipes p).writerCount =
        (ends fdAccessWrite extra).count p + (ends fdAccessWrite rest).count p := by
    intro u p len hu
    obtain ⟨hlt, hd⟩ := h.alive (t := u) (p := p) (by rw [hu, Phase.ptr])
    have hptr' : (Function.update s.phase t (leave c .out) u).ptr = some p := by
      rw [((hagree p).asleep u len).mpr hu, Phase.ptr]
    obtain ⟨hlt', hd'⟩ := hinv.alive hptr'
    have hcount := (h.sound.accounted.perm hold).counted fdAccessWrite (Or.inr rfl)
    have hcount' := (hsound.accounted.perm hnew).counted fdAccessWrite (Or.inr rfl)
    refine ⟨?_, ?_, ?_⟩
    · rcases perform_pipes htask hp hlt' hd' with ⟨-, -, -, hm⟩ | ⟨-, hdead⟩
      · exact hm
      · rw [hdead hlt] at hd
        cases hd
    · have := hcount.counted p hlt
      rwa [ends, List.filterMap_append, List.count_append] at this
    · have := hcount'.counted p hlt'
      rwa [ends, List.filterMap_append, List.count_append] at this
  constructor
  · intro hno task' htask' p hnil hpos hlast u len hu
    obtain rfl : task = task' := Option.some.inj (htask.symm.trans htask')
    obtain ⟨hl, hw, hw'⟩ := hpipe u p len hu
    refine hno ⟨u, p, len, ((hagree p).asleep u len).mpr hu, hl.trans hnil, ?_⟩
    have hne : closing task.table c ≠ [] := by
      intro he
      rw [he] at hlast
      simp only [ends, List.filterMap_nil, List.count_nil] at hlast
      omega
    change (k'.objects.pipes p).writerCount = 0
    rw [hextra hne] at hw'
    simp only [ends, List.filterMap_nil, List.count_nil] at hw'
    simp only [ends] at hlast hw
    omega
  · rintro hsafe ⟨u, p, len, hu, hnil, hzero⟩
    have hu' := ((hagree p).asleep u len).mp hu
    obtain ⟨hl, hw, hw'⟩ := hpipe u p len hu'
    have hnil' : (s.k.objects.pipes p).list = [] := hl.symm.trans hnil
    have hpos : 0 < (s.k.objects.pipes p).writerCount := by
      rw [Nat.pos_iff_ne_zero]
      exact fun hz => hb ⟨u, p, len, hu', hnil', hz⟩
    have hzero' : (k'.objects.pipes p).writerCount = 0 := hzero
    exact hsafe task htask p hnil' hpos (by omega) u len hu'

theorem not_stranded_read {s s' : State} {t fdId len : ℕ} (h : Inv s)
    (hs : step s (.read t fdId len) = some s') : Inv s' ∧ (¬ Stranded s → ¬ Stranded s') := by
  simp only [step, Option.ite_none_right_eq_some, syscallRead] at hs
  obtain ⟨ht, hs⟩ := hs
  cases hfd : fdOf s.k t fdId with
  | none =>
    rw [hfd] at hs
    obtain rfl := Option.some.inj hs
    exact ⟨h, id⟩
  | some fd =>
    rw [hfd] at hs
    simp only at hs
    by_cases herr : fd.access ||| fdAccessRead = 0 ∨ len = 0
    · rw [if_pos herr] at hs
      obtain rfl := Option.some.inj hs
      exact ⟨h, id⟩
    rw [if_neg herr] at hs
    obtain ⟨p, hp, hs⟩ := Option.bind_eq_some_iff.mp hs
    obtain ⟨task, htask, hmem⟩ := fdOf_some hfd
    obtain ⟨hlt, hd⟩ := alive_of_fd h.sound htask hmem hp
    have hserved := h.served p hlt hd
    have htp : (s.phase t).ptr = none := by rw [ht, Phase.ptr]
    simp only [pipeRead] at hs
    by_cases hend : atEnd (s.k.objects.pipes p) = true
    · rw [if_pos hend] at hs
      obtain rfl := Option.some.inj hs
      exact ⟨h, id⟩
    rw [if_neg hend] at hs
    by_cases hm : mustSleep (s.k.objects.pipes p).lock = true
    · rw [if_pos hm] at hs
      obtain rfl := Option.some.inj hs
      have hagree : ∀ q, q ≠ p → Agree q s.phase (Function.update s.phase t (.asleep p len)) := by
        intro q hq
        exact agree_update (by simp [htp]) (by simpa [Phase.ptr] using hq.symm)
      constructor
      · refine inv_withPipe h hd (by exact hd) (by rfl) (by rfl) (served_sleep hserved htp hm) hagree fun u hu => ?_
        by_cases hut : u = t
        · subst hut
          exact ⟨task, fd, htask, hmem, hp⟩
        · rw [Function.update_of_ne hut] at hu
          exact h.user u p hu
      · intro hb
        rw [stranded_withPipe hb hagree]
        rintro ⟨-, -, -, hnil, hzero⟩
        exact hend (by simp [atEnd, show (s.k.objects.pipes p).list = [] from hnil,
          show (s.k.objects.pipes p).writerCount = 0 from hzero])
    · rw [if_neg hm] at hs
      obtain ⟨hsq, input, rest, hl, hs1⟩ := served_direct hserved t hm
      have hout : Function.update s.phase t .out = s.phase := by
        rw [← ht]
        simp
      obtain ⟨next, he, hinv, hagree, -⟩ := @finish_spec _ h _ _ _
        { s.k.objects.pipes p with lock := ksemaphoreWait (s.k.objects.pipes p).lock t }
        _ _ hd hd rfl rfl hl (Or.inl htp) (by rw [hout]; exact hs1)
      rw [finish_withPipe, he, Option.map_some] at hs
      obtain rfl := Option.some.inj hs
      refine ⟨hinv, fun hb => ?_⟩
      rw [stranded_withPipe hb hagree]
      rintro ⟨u, l, hu, -⟩
      have hu' := wake_asleep hu
      rw [hout] at hu'
      have := (hserved.sleepers u).mpr ⟨l, hu'⟩
      rw [hsq] at this
      cases this

theorem not_stranded_write {s s' : State} {t fdId : ℕ} {buffer : List UInt8} (h : Inv s)
    (hs : step s (.write t fdId buffer) = some s') : Inv s' ∧ (¬ Stranded s → ¬ Stranded s') := by
  simp only [step, Option.ite_none_right_eq_some, syscallWrite] at hs
  obtain ⟨ht, hs⟩ := hs
  cases hfd : fdOf s.k t fdId with
  | none =>
    rw [hfd] at hs
    obtain rfl := Option.some.inj hs
    exact ⟨h, id⟩
  | some fd =>
    rw [hfd] at hs
    simp only at hs
    by_cases herr : fd.access &&& fdAccessWrite = 0 ∨ buffer = []
    · rw [if_pos herr] at hs
      obtain rfl := Option.some.inj hs
      exact ⟨h, id⟩
    rw [if_neg herr] at hs
    obtain ⟨p, hp, rfl⟩ := Option.map_eq_some_iff.mp hs
    obtain ⟨task, htask, hmem⟩ := fdOf_some hfd
    obtain ⟨hlt, hd⟩ := alive_of_fd h.sound htask hmem hp
    have hserved := h.served p hlt hd
    by_cases hr : (s.k.objects.pipes p).readerCount = 0
    · have hw : pipeWrite (s.k.objects.pipes p) buffer = (s.k.objects.pipes p, none) := by
        rw [pipeWrite, if_pos hr]
      rw [hw]
      simp only [withPipe_self, wake]
      exact ⟨h, id⟩
    · have hw : pipeWrite (s.k.objects.pipes p) buffer =
          ({ s.k.objects.pipes p with
              list := (s.k.objects.pipes p).list ++ [buffer ++ [0]],
              lock := (ksemaphoreSignal (s.k.objects.pipes p).lock).1 },
            (s.k.objects.pipes p).lock.sq.head?) := by
        rw [pipeWrite, if_neg hr]
        rfl
      rw [hw]
      have hptr : ∀ u ∈ (s.k.objects.pipes p).lock.sq.head?, (s.phase u).ptr = some p := by
        intro u hu
        obtain ⟨l, hul⟩ := (hserved.sleepers u).mp (List.mem_of_mem_head? hu)
        rw [hul, Phase.ptr]
      have hagree : ∀ q, q ≠ p → Agree q s.phase (wake s.phase (s.k.objects.pipes p).lock.sq.head?) :=
        fun q hq => agree_wake hptr hq
      constructor
      · refine inv_withPipe h hd (by exact hd) (by rfl) (by rfl)
          (served_signal hserved (by simp)) hagree fun u hu => ?_
        rw [ptr_wake] at hu
        exact h.user u p hu
      · intro hb
        rw [stranded_withPipe hb hagree]
        rintro ⟨-, -, -, hnil, -⟩
        simp at hnil

theorem not_stranded_resume {s s' : State} {t : ℕ} (h : Inv s)
    (hs : step s (.resume t) = some s') :
    Inv s' ∧ (¬ Stranded s → (¬ Stranded s' ↔ Safe s (.resume t))) := by
  simp only [step] at hs
  cases ht : s.phase t with
  | out => simp [ht] at hs
  | asleep p len => simp [ht] at hs
  | exited => simp [ht] at hs
  | woken p len =>
    rw [ht] at hs
    have htp : (s.phase t).ptr = some p := by rw [ht, Phase.ptr]
    obtain ⟨hlt, hd⟩ := h.alive htp
    obtain ⟨input, rest, hl, hs1⟩ := served_resume (h.served p hlt hd) ht
    obtain ⟨next, he, hinv, hagree, hw, hnil, hnone⟩ :=
      finish_spec h hd hd rfl rfl hl (Or.inr htp) hs1
    have hfin := finish_withPipe s.k s.phase t p len (s.k.objects.pipes p)
    rw [withPipe_self, he, Option.map_some] at hfin
    obtain rfl := Option.some.inj (hfin.symm.trans hs)
    refine ⟨hinv, fun hb => ?_⟩
    rw [stranded_withPipe hb hagree]
    constructor
    · intro hno p' len' input' ht' hl' hwhole hzero u l hu
      obtain ⟨rfl, rfl⟩ : p = p' ∧ len = len' := by
        rw [ht] at ht'
        simpa using ht'
      obtain rfl : input = input' := by
        rw [hl] at hl'
        exact (List.cons_eq_cons.mp hl').1
      have hempty := hnil.mpr ⟨hl', hwhole⟩
      have hut : u ≠ t := by
        rintro rfl
        rw [ht] at hu
        cases hu
      refine hno ⟨u, l, ?_, hempty, hw.trans hzero⟩
      rw [hnone hempty]
      simpa [wake, hut] using hu
    · rintro hsafe ⟨u, l, hu, hempty, hzero⟩
      obtain ⟨hl', hwhole⟩ := hnil.mp hempty
      have hu' := wake_asleep hu
      have hut : u ≠ t := by
        rintro rfl
        simp at hu'
      rw [Function.update_of_ne hut] at hu'
      exact hsafe p len input ht hl' hwhole (hw.symm.trans hzero) u l hu'

theorem inv_step {s s' : State} {a : Action} (h : Inv s) (hs : step s a = some s') : Inv s' := by
  cases a with
  | call t c => exact (not_stranded_call h hs).1
  | read t fdId len => exact (not_stranded_read h hs).1
  | write t fdId buffer => exact (not_stranded_write h hs).1
  | resume t => exact (not_stranded_resume h hs).1

theorem not_stranded_step {s s' : State} {a : Action} (h : Inv s) (hb : ¬ Stranded s)
    (hs : step s a = some s') : ¬ Stranded s' ↔ Safe s a := by
  cases a with
  | call t c => exact (not_stranded_call h hs).2 hb
  | read t fdId len => exact iff_of_true ((not_stranded_read h hs).2 hb) trivial
  | write t fdId buffer => exact iff_of_true ((not_stranded_write h hs).2 hb) trivial
  | resume t => exact (not_stranded_resume h hs).2 hb

/-- A woken reader always finds its message, so it never reads through a null pointer. -/
theorem resume_enabled {s : State} (h : Inv s) {t p len : ℕ} (ht : s.phase t = .woken p len) :
    ∃ s', step s (.resume t) = some s' := by
  have htp : (s.phase t).ptr = some p := by rw [ht, Phase.ptr]
  obtain ⟨hlt, hd⟩ := h.alive htp
  obtain ⟨input, rest, hl, hs1⟩ := served_resume (h.served p hlt hd) ht
  obtain ⟨next, he, -⟩ := finish_spec h hd hd rfl rfl hl (Or.inr htp) hs1
  have hfin := finish_withPipe s.k s.phase t p len (s.k.objects.pipes p)
  rw [withPipe_self, he, Option.map_some] at hfin
  exact ⟨_, by simpa [step, ht] using hfin⟩

/-- A task that has got past `ksemaphore_wait`: a signal has woken it, or it has not slept at all. -/
def PastWait (s : State) (t p : ℕ) : Prop :=
  (∃ len, s.phase t = .woken p len) ∨
    s.phase t = .out ∧ mustSleep (s.k.objects.pipes p).lock = false ∧
      ∃ fdId fd, fdOf s.k t fdId = some fd ∧ pipeOf fd = some p

theorem list_past_wait {s : State} (h : Inv s) {t p : ℕ} (ht : PastWait s t p) :
    (s.k.objects.pipes p).list ≠ [] := by
  rcases ht with ⟨len, ht⟩ | ⟨-, hlock, fdId, fd, hfd, hp⟩
  · have htp : (s.phase t).ptr = some p := by rw [ht, Phase.ptr]
    obtain ⟨hlt, hd⟩ := h.alive htp
    obtain ⟨input, rest, hl, -⟩ := served_resume (h.served p hlt hd) ht
    rw [hl]
    exact List.cons_ne_nil input rest
  · obtain ⟨task, htask, hmem⟩ := fdOf_some hfd
    obtain ⟨hlt, hd⟩ := alive_of_fd h.sound htask hmem hp
    obtain ⟨-, input, rest, hl, -⟩ := served_direct (h.served p hlt hd) t (by simp [hlock])
    rw [hl]
    exact List.cons_ne_nil input rest

/-- A reader that gets past the semaphore finds a message, and the messages of a pipe are as many as
its value, its sleepers and the readers that are woken and have not run yet. -/
theorem message_past_wait {objects : Objects} {unset : Fd} {as : List Action} {s : State}
    (hs : exec step (init objects unset) as = some s) :
    (∀ t p, PastWait s t p → (s.k.objects.pipes p).list ≠ []) ∧
    ∀ p < s.k.objects.nextPipe, (s.k.objects.pipes p).dead = false →
      ∃ woken : List ℕ, woken.Nodup ∧ (∀ t, t ∈ woken ↔ ∃ len, s.phase t = .woken p len) ∧
        ((s.k.objects.pipes p).list.length : ℤ) =
          (s.k.objects.pipes p).lock.value + (s.k.objects.pipes p).lock.sq.length + woken.length := by
  have h := exec_invariant (fun _ _ _ h _ hs => inv_step h hs) (inv_init objects unset)
    (meets_true _ as) hs
  exact ⟨fun t p ht => list_past_wait h ht, fun p hp hd => (h.served p hp hd).claims⟩

theorem message_past_wait_partial : ∃ s, exec step (init blankObjects blankFd)
    [.call 0 .pipe, .call 0 .fork, .read 1 2 4, .write 0 3 [65, 66]] = some s ∧
    s.phase 1 = .woken 0 4 ∧ ∀ t p, PastWait s t p → (s.k.objects.pipes p).list ≠ [] := by
  refine ⟨_, rfl, rfl, ?_⟩
  exact (@message_past_wait blankObjects blankFd
    [.call 0 .pipe, .call 0 .fork, .read 1 2 4, .write 0 3 [65, 66]] _ rfl).1

/-- A run never leaves a reader asleep on a pipe at its end exactly when no last write end is closed
over a sleeping reader and no last message is taken before one. -/
theorem noneStranded_iff (objects : Objects) (unset : Fd) (as : List Action) (u : State)
    (hu : exec step (init objects unset) as = some u) : Meets step Safe (init objects unset) as ↔
      ∀ bs s, bs <+: as → exec step (init objects unset) bs = some s → ¬ Stranded s := by
  have hinit : ¬ Stranded (init objects unset) := by
    rintro ⟨t, p, len, ht, -⟩
    cases ht
  exact meets_iff_prefixes (fun s a t h hb hs => inv_step h hs)
    (fun s a t h hb hs => not_stranded_step h hb hs) (inv_init objects unset) hinit hu

theorem safe_call {s : State} {t : ℕ} {c : Call} (h : ∀ table, closing table c = []) :
    Safe s (.call t c) := by
  intro task _ p _ hpos hlast
  rw [h, ends, List.filterMap_nil, List.count_nil] at hlast
  omega

theorem noneStranded_woken : ∃ u, exec step (init blankObjects blankFd)
    [.call 0 .pipe, .call 0 .fork, .read 1 2 4, .write 0 3 [65], .resume 1] = some u ∧
    ∀ bs s, bs <+: [.call 0 .pipe, .call 0 .fork, .read 1 2 4, .write 0 3 [65], .resume 1] →
      exec step (init blankObjects blankFd) bs = some s → ¬ Stranded s := by
  refine ⟨_, rfl, (noneStranded_iff blankObjects blankFd _ _ rfl).mp ?_⟩
  refine meets_cons (safe_call fun _ => rfl) rfl (meets_cons (safe_call fun _ => rfl) rfl
    (meets_cons trivial rfl (meets_cons trivial rfl (meets_cons ?_ rfl trivial))))
  intro p len input hp _ _ hzero
  obtain ⟨rfl, rfl⟩ := Phase.woken.inj hp
  exact absurd hzero (by decide)

/-- Task 1 blocks first and the only write end is closed afterwards. -/
theorem stranded_reader : ¬ ∀ (objects : Objects) (unset : Fd) (as : List Action) (s : State),
    exec step (init objects unset) as = some s → ¬ Stranded s := by
  intro h
  exact h blankObjects blankFd [.call 0 .pipe, .call 0 .fork, .call 1 (.close 3), .read 1 2 4,
    .call 0 (.close 3)] _ rfl ⟨1, 0, 4, rfl, rfl, rfl⟩

/-- Two readers block, and the one that is woken takes the only message. -/
example : ∃ s, exec step (init blankObjects blankFd) [.call 0 .pipe, .call 0 .fork, .call 0 .fork,
    .call 1 (.close 3), .call 2 (.close 3), .read 1 2 4, .read 2 2 4, .write 0 3 [65],
    .call 0 (.close 3), .resume 1] = some s ∧ Stranded s :=
  ⟨_, rfl, 2, 0, 4, rfl, rfl, rfl⟩

end Eedox.EndOfFile
