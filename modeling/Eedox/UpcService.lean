import Eedox.PipeStream
import Mathlib.Algebra.GroupWithZero.Nat
import Mathlib.Data.Fintype.Option

namespace Eedox.UpcService

open Library.Runs Library.Tally Util Semaphore Pipe
open PipeStream (Phase Action act wake finish Synced Streamed NulFree synced_step streamed_step synced_finish streamed_finish)

section Source

def bufferLen : ℕ := 512

def f (c : UInt8) : UInt8 :=
  if 97 ≤ c ∧ c ≤ 122 then c - (97 - 65)
  else if 65 ≤ c ∧ c ≤ 90 then 45
  else 45

/-- Where `upcd` is in its loop: before the read, in it, or with the bytes that it has read. -/
inductive Upcd
  | idle
  | reading
  | got (message : List UInt8)
deriving DecidableEq

/-- Where an `upclnt` is, and the parameters that it has not dealt with. -/
inductive Upclnt
  | start (argv : List Str)
  | opened (argv : List Str)
  | next (argv : List Str)
  | sent (param : Str) (argv : List Str)
  | reading (param : Str) (argv : List Str)
  | exited

/-- The two queues with the daemon and its clients, and the lines that each client has printed. -/
structure State (T : Type) where
  call : PipeStream.State (Option T)
  service : PipeStream.State (Option T)
  upcd : Upcd
  upclnt : T → Upclnt
  printed : T → List (List UInt8)

variable {T : Type} [DecidableEq T]

def taken : Option (List UInt8) → Upcd
  | none => .reading
  | some message => .got message

def upcdStep (s : State T) : Option (State T) :=
  match s.upcd with
  | .idle => (act s.call (.read none bufferLen)).map fun (call, out) => { s with call := call, upcd := taken out }
  | .reading => (act s.call (.resume none)).map fun (call, out) => { s with call := call, upcd := taken out }
  | .got message =>
    if message = [] then some { s with upcd := .idle }
    else (act s.service (.write none (message.map f))).map fun (service, _) =>
      { s with service := service, upcd := .idle }

def goOn (s : State T) (c : T) (u : Upclnt) : State T := { s with upclnt := Function.update s.upclnt c u }

/-- The reply lies over the parameter in the buffer, which ends with a zero byte. -/
def received (s : State T) (c : T) (param : Str) (argv : List Str) :
    PipeStream.State (Option T) × Option (List UInt8) → State T
  | (service, none) => goOn { s with service := service } c (.reading param argv)
  | (service, some reply) =>
    goOn { s with
      service := service
      printed := Function.update s.printed c
        (s.printed c ++ [text (reply ++ param.chars.drop reply.length ++ [0])]) } c (.next argv)

def closeBoth (q : PipeStream.State (Option T)) : Option (PipeStream.State (Option T)) :=
  exec PipeStream.step q [.closeRd, .closeWr]

/-- A call with the length 0 is refused. -/
def upclntStep (s : State T) (c : T) : Option (State T) :=
  match s.upclnt c with
  | .start argv => (act s.call .mqopen).map fun (call, _) => goOn { s with call := call } c (.opened argv)
  | .opened argv => (act s.service .mqopen).map fun (service, _) => goOn { s with service := service } c (.next argv)
  | .next [] =>
    (closeBoth s.call).bind fun call => (closeBoth s.service).map fun service =>
      goOn { s with call := call, service := service } c .exited
  | .next (param :: argv) =>
    if param.chars = [] then some (goOn s c (.sent param argv))
    else (act s.call (.write (some c) param.chars)).map fun (call, _) =>
      goOn { s with call := call } c (.sent param argv)
  | .sent param argv =>
    if param.chars = [] then some (received s c param argv (s.service, some []))
    else (act s.service (.read (some c) param.chars.length)).map (received s c param argv)
  | .reading param argv => (act s.service (.resume (some c))).map (received s c param argv)
  | .exited => none

/-- The daemon, or a client, goes on to its next system call. -/
def step (s : State T) : Option T → Option (State T)
  | none => upcdStep s
  | some c => upclntStep s c

/-- The daemon has opened the queues. -/
def start (argv : T → List Str) : State T :=
  ⟨PipeStream.init, PipeStream.init, .idle, fun c => .start (argv c), fun _ => []⟩

end Source

section Queues

variable {T : Type} [DecidableEq T] {q q' : PipeStream.State T} {t : T} {len : ℕ} {bytes buffer : List UInt8}

/-- Readers that sleep may have been woken. -/
def Wakes (phase phase' : T → Phase) : Prop :=
  ∀ u, phase' u = phase u ∨ ∃ len, phase u = .asleep len ∧ phase' u = .woken len

theorem wakes_wake (phase : T → Phase) (o : Option T) : Wakes phase (wake phase o) := by
  intro u
  cases o with
  | none => exact Or.inl rfl
  | some v =>
    by_cases hu : u = v
    · subst hu
      rw [wake, Function.update_self]
      cases hp : phase u with
      | asleep len => exact Or.inr ⟨len, rfl, rfl⟩
      | out => exact Or.inl rfl
      | woken len => exact Or.inl rfl
    · exact Or.inl (Function.update_of_ne hu _ _)

omit [DecidableEq T] in
theorem Wakes.out {phase phase' : T → Phase} (h : Wakes phase phase') {u : T} (hu : phase u = .out) :
    phase' u = .out := by
  rcases h u with he | ⟨len, he, -⟩
  · rw [he, hu]
  · rw [hu] at he
    cases he

/-- The ends of a queue that are open. -/
def SameEnds (q q' : PipeStream.State T) : Prop :=
  q'.pipe.readerCount = q.pipe.readerCount ∧ q'.pipe.writerCount = q.pipe.writerCount

/-- A message has been put. -/
structure Put (q q' : PipeStream.State T) (buffer : List UInt8) : Prop where
  list : q'.pipe.list = q.pipe.list ++ [buffer ++ [0]]
  written : q'.written = q.written ++ buffer
  returned : q'.returned = q.returned
  ends : SameEnds q q'
  phase : Wakes q.phase q'.phase

/-- The first message has been taken, or as much of it as was asked for. -/
structure Got (q q' : PipeStream.State T) (t : T) (len : ℕ) (bytes : List UInt8) : Prop where
  input : ∃ input rest, q.pipe.list = input :: rest ∧ bytes = (text input).take len ∧
    rest.length ≤ q'.pipe.list.length ∧ (strlen input ≤ len → q'.pipe.list = rest)
  written : q'.written = q.written
  returned : q'.returned = q.returned ++ bytes
  ends : SameEnds q q'
  phase : Wakes (Function.update q.phase t .out) q'.phase

/-- The reader sleeps. -/
structure Waits (q q' : PipeStream.State T) (t : T) (len : ℕ) : Prop where
  list : q'.pipe.list = q.pipe.list
  written : q'.written = q.written
  returned : q'.returned = q.returned
  ends : SameEnds q q'
  phase : q'.phase = Function.update q.phase t (.asleep len)

theorem act_write (ht : q.phase t = .out) (hb : buffer ≠ []) (hr : 0 < q.pipe.readerCount) :
    ∃ q', act q (.write t buffer) = some (q', none) ∧ Put q q' buffer := by
  refine ⟨_, if_pos ⟨ht, hb⟩, ?_⟩
  rw [pipeWrite, if_neg hr.ne']
  exact ⟨rfl, rfl, rfl, ⟨rfl, rfl⟩, wakes_wake _ _⟩

theorem put_of_act {out : Option (List UInt8)} (hr : 0 < q.pipe.readerCount)
    (h : act q (.write t buffer) = some (q', out)) : Put q q' buffer ∧ q.phase t = .out ∧ buffer ≠ [] := by
  simp only [act, Option.ite_none_right_eq_some] at h
  obtain ⟨hcond, h⟩ := h
  obtain ⟨q₁, hact, hput⟩ := act_write hcond.1 hcond.2 hr
  rw [act, if_pos hcond] at hact
  obtain rfl := congrArg Prod.fst (Option.some.inj (hact.symm.trans h))
  exact ⟨hput, hcond⟩

theorem got_of_finish {out : Option (List UInt8)} (h : finish q t len = some (q', out)) :
    ∃ bytes, out = some bytes ∧ Got q q' t len bytes := by
  cases hl : q.pipe.list with
  | nil => simp [finish, pipeReadEnd, hl] at h
  | cons input rest =>
    by_cases hlt : len < strlen input
    · rw [PipeStream.finish_part hl hlt] at h
      obtain ⟨rfl, rfl⟩ := Prod.mk.inj (Option.some.inj h)
      refine ⟨_, rfl, ⟨input, rest, hl, ?_, Nat.le_succ _, fun hle => ?_⟩, rfl, rfl, ⟨rfl, rfl⟩, wakes_wake _ _⟩
      · rw [text, List.take_take, min_eq_left hlt.le]
      · exact absurd hlt (Nat.not_lt.mpr hle)
    · rw [PipeStream.finish_whole hl hlt] at h
      obtain ⟨rfl, rfl⟩ := Prod.mk.inj (Option.some.inj h)
      refine ⟨_, rfl, ⟨input, rest, hl, ?_, le_rfl, fun _ => rfl⟩, rfl, rfl, ⟨rfl, rfl⟩, fun _ => Or.inl rfl⟩
      rw [text, List.take_take, min_eq_right (Nat.not_lt.mp hlt)]

theorem read_of_act {out : Option (List UInt8)} (hw : 0 < q.pipe.writerCount)
    (h : act q (.read t len) = some (q', out)) : q.phase t = .out ∧ 0 < len ∧
      ((out = none ∧ Waits q q' t len) ∨ ∃ bytes, out = some bytes ∧ Got q q' t len bytes) := by
  simp only [act, Option.ite_none_right_eq_some] at h
  obtain ⟨⟨ht, hlen⟩, h⟩ := h
  refine ⟨ht, hlen, ?_⟩
  have hopen : ¬ atEnd q.pipe = true := by
    rw [atEnd]
    simp only [Bool.and_eq_true, decide_eq_true_eq]
    omega
  rw [if_neg hopen] at h
  split_ifs at h with hv
  · obtain ⟨rfl, rfl⟩ := Prod.mk.inj (Option.some.inj h)
    exact Or.inl ⟨rfl, rfl, rfl, rfl, ⟨rfl, rfl⟩, rfl⟩
  · obtain ⟨bytes, hout, hinput, hwritten, hreturned, hends, hphase⟩ := got_of_finish h
    exact Or.inr ⟨bytes, hout, hinput, hwritten, hreturned, hends, hphase⟩

theorem resume_of_act {out : Option (List UInt8)} (h : act q (.resume t) = some (q', out)) :
    ∃ len bytes, q.phase t = .woken len ∧ out = some bytes ∧ Got q q' t len bytes := by
  simp only [act] at h
  split at h
  · rename_i len ht
    obtain ⟨bytes, hout, hgot⟩ := got_of_finish h
    exact ⟨len, bytes, ht, hout, hgot⟩
  · cases h

variable [Fintype T]

theorem reads (h : Synced q) (ht : q.phase t = .out) (hlen : 0 < len) : ∃ r, act q (.read t len) = some r := by
  rw [act, if_pos ⟨ht, hlen⟩]
  by_cases hend : atEnd q.pipe = true
  · exact ⟨_, if_pos hend⟩
  rw [if_neg hend]
  by_cases hv : mustSleep q.pipe.lock = true
  · exact ⟨_, if_pos hv⟩
  · have hw : ksemaphoreWait q.pipe.lock t = { q.pipe.lock with value := q.pipe.lock.value - 1 } := by
      rw [ksemaphoreWait, if_neg hv]
    have hout : Function.update q.phase t .out = q.phase := by
      rw [← ht, Function.update_eq_self]
    have hcount := h.count
    obtain ⟨q₁, out, hfinish, -⟩ := @synced_finish _ _ _
      { q with pipe := { q.pipe with lock := ksemaphoreWait q.pipe.lock t } } t len h.reader
      (balanced_wait h.balanced t) (by simpa only [hw] using h.nodup) (by simpa only [hw, hout] using h.sleepers)
      (by simp only [hw, hout]; omega)
    exact ⟨_, (if_neg hv).trans hfinish⟩

theorem resumes (h : Synced q) (ht : q.phase t = .woken len) : ∃ r, act q (.resume t) = some r := by
  have htally := tally_update PipeStream.weight q.phase t .out
  simp only [ht, PipeStream.weight] at htally
  have hsleepers : ∀ u, u ∈ q.pipe.lock.sq ↔ ∃ l, Function.update q.phase t .out u = .asleep l := by
    intro u
    rw [h.sleepers]
    by_cases hu : u = t
    · subst hu
      simp [ht]
    · simp [hu]
  have hcount := h.count
  obtain ⟨q₁, out, hfinish, -⟩ := synced_finish len h.reader h.balanced h.nodup hsleepers (by omega)
  refine ⟨(q₁, some out), ?_⟩
  rw [act, ht]
  exact hfinish

omit [DecidableEq T] in
/-- While someone sleeps and nobody has been woken there is no message. -/
theorem empty_of_asleep (h : Synced q) (ht : q.phase t = .asleep len) (hall : ∀ u l, q.phase u ≠ .woken l) :
    q.pipe.list = [] := by
  have htally : tally PipeStream.weight q.phase = 0 := by
    apply tally_eq_zero
    intro u
    cases hu : q.phase u with
    | woken l => exact absurd hu (hall u l)
    | _ => rfl
  have hmem : 0 < q.pipe.lock.sq.length := List.length_pos_of_mem ((h.sleepers t).mpr ⟨len, ht⟩)
  have hcount := h.count
  have hbalanced := h.balanced
  rw [Semaphore.Balanced] at hbalanced
  apply List.length_eq_zero_iff.mp
  omega

end Queues

section Invariant

/-- A client that waits for a reply, and its parameter. -/
def asks : Upclnt → Option Str
  | .sent param _ => if param.chars = [] then none else some param
  | .reading param _ => some param
  | _ => none

def waits (u : Upclnt) : ℕ := if (asks u).isSome then 1 else 0

def holdsCall : Upclnt → ℕ
  | .start _ | .exited => 0
  | _ => 1

def holdsService : Upclnt → ℕ
  | .start _ | .opened _ | .exited => 0
  | _ => 1

def held : Upcd → List UInt8
  | .got message => message
  | _ => []

def busy (u : Upcd) : ℕ := if held u = [] then 0 else 1

def InRead (len : ℕ) (ph : Phase) : Prop := ph = .asleep len ∨ ph = .woken len

def Upcd.At : Upcd → Phase → Prop
  | .reading, ph => InRead bufferLen ph
  | _, ph => ph = .out

def Upclnt.At : Upclnt → Phase → Prop
  | .reading param _, ph => InRead param.chars.length ph ∧ param.chars ≠ []
  | _, ph => ph = .out

variable {T : Type} [DecidableEq T] [Fintype T]

/-- A queue of the service, which so many clients have open besides the daemon. -/
structure Works (q : PipeStream.State (Option T)) (clients : ℕ) : Prop where
  synced : Synced q
  streamed : Streamed q
  readers : q.pipe.readerCount = 1 + clients
  writers : q.pipe.writerCount = 1 + clients

structure Inv (s : State T) : Prop where
  call : Works s.call (tally holdsCall s.upclnt)
  service : Works s.service (tally holdsService s.upclnt)
  upcd : s.upcd.At (s.call.phase none)
  upclnt : ∀ c, (s.upclnt c).At (s.service.phase (some c))
  callers : ∀ c, s.call.phase (some c) = .out
  replier : s.service.phase none = .out
  passed : s.call.returned.map f = s.service.written ++ (held s.upcd).map f
  enough : tally waits s.upclnt ≤ s.call.pipe.list.length + busy s.upcd + s.service.pipe.list.length

omit [DecidableEq T] [Fintype T] in
theorem f_ne_zero (c : UInt8) : f c ≠ 0 := by
  unfold f
  split_ifs with hlower
  · intro h
    have hc := congrArg UInt8.toNat h
    obtain ⟨h₁, h₂⟩ := hlower
    rw [UInt8.le_iff_toNat_le] at h₁ h₂
    rw [UInt8.toNat_sub] at hc
    simp at h₁ h₂ hc
    omega
  · decide
  · decide

variable {s s' : State T} {q q' : PipeStream.State (Option T)} {n len : ℕ} {t : Option T} {c : T}
  {bytes buffer : List UInt8} {out : Option (List UInt8)}

theorem Works.act (h : Works q n) {a : Action (Option T)} (ha : act q a = some (q', out)) (hnul : NulFree q a)
    (hends : SameEnds q q') : Works q' n :=
  ⟨synced_step h.synced ha, streamed_step h.synced.reader h.streamed hnul ha, hends.1.trans h.readers,
    hends.2.trans h.writers⟩

/-- The messages and the readers of a queue stay as they are. -/
structure Same (q q' : PipeStream.State (Option T)) : Prop where
  phase : q'.phase = q.phase
  written : q'.written = q.written
  returned : q'.returned = q.returned
  list : q'.pipe.list = q.pipe.list

theorem Works.opened (h : Works q n) (ha : PipeStream.act q .mqopen = some (q', out)) :
    Works q' (n + 1) ∧ Same q q' := by
  have hs := synced_step h.synced ha
  have hst := streamed_step h.synced.reader h.streamed (show NulFree q .mqopen from trivial) ha
  obtain ⟨rfl, rfl⟩ := Prod.mk.inj (Option.some.inj ha)
  exact ⟨⟨hs, hst, congrArg (· + 1) h.readers, congrArg (· + 1) h.writers⟩, rfl, rfl, rfl, rfl⟩

theorem Works.closed (h : Works q (n + 1)) : ∃ q', closeBoth q = some q' ∧ Works q' n ∧ Same q q' := by
  have hr := h.readers
  have hw := h.writers
  have hrd : PipeStream.act q .closeRd = some ({ q with pipe := (pipeCloseRd q.pipe).1 }, none) :=
    if_pos (by omega)
  have hq₁ := PipeStream.closeRd_open (by omega : 1 < q.pipe.readerCount)
  rw [hq₁] at hrd
  have hs₁ := synced_step h.synced hrd
  have hst₁ := streamed_step h.synced.reader h.streamed (show NulFree q .closeRd from trivial) hrd
  have hwr : PipeStream.act { q with pipe := { q.pipe with readerCount := q.pipe.readerCount - 1 } } .closeWr =
      some ({ q with pipe := (pipeCloseWr { q.pipe with readerCount := q.pipe.readerCount - 1 }).1 }, none) :=
    if_pos (by dsimp only; omega)
  have hq₂ := @PipeStream.closeWr_open _ { q.pipe with readerCount := q.pipe.readerCount - 1 } hs₁.reader
  rw [hq₂] at hwr
  have hs₂ := synced_step hs₁ hwr
  have hst₂ := streamed_step hs₁.reader hst₁ (show NulFree _ .closeWr from trivial) hwr
  refine ⟨_, ?_, ⟨hs₂, hst₂, ?_, ?_⟩, rfl, rfl, rfl, rfl⟩
  · rw [closeBoth, exec, PipeStream.step, hrd]
    dsimp only [Option.map_some, Option.bind_some]
    rw [exec, PipeStream.step, hwr]
    rfl
  · dsimp only
    omega
  · dsimp only
    omega

omit [DecidableEq T] [Fintype T] in
theorem Wakes.inRead {phase phase' : Option T → Phase} (h : Wakes phase phase') {u : Option T}
    (hu : InRead len (phase u)) : InRead len (phase' u) := by
  rcases h u with he | ⟨l, hl, hl'⟩
  · rw [he]
    exact hu
  · rcases hu with hu | hu
    · rw [hl] at hu
      obtain rfl := Phase.asleep.inj hu
      exact Or.inr hl'
    · rw [hl] at hu
      cases hu

omit [DecidableEq T] [Fintype T] in
theorem Wakes.client {phase phase' : Option T → Phase} (h : Wakes phase phase') {u : Upclnt} {v : Option T}
    (hu : u.At (phase v)) : u.At (phase' v) := by
  cases u with
  | reading param argv => exact ⟨h.inRead hu.1, hu.2⟩
  | _ => exact h.out hu

omit [Fintype T] in
/-- A read that gives bytes gives some. -/
theorem Got.nonempty (h : Got q q' t len bytes) (hs : Streamed q) (hlen : 0 < len) : bytes ≠ [] := by
  obtain ⟨input, rest, hlist, rfl, -⟩ := h.input
  obtain ⟨data, tail, rfl, hnul, hne⟩ := hs.messages input (hlist ▸ List.mem_cons_self)
  rw [text_terminated hnul]
  cases data with
  | nil => exact absurd rfl hne
  | cons b data =>
    obtain ⟨k, rfl⟩ := Nat.exists_eq_succ_of_ne_zero hlen.ne'
    simp

omit [Fintype T] in
theorem Got.fewer (h : Got q q' t len bytes) : q.pipe.list.length ≤ q'.pipe.list.length + 1 := by
  obtain ⟨input, rest, hlist, -, hle, -⟩ := h.input
  rw [hlist, List.length_cons]
  omega

/-- What a step does, as told by the queues. -/
inductive Did (s : State T) : Option T → State T → Prop
  | sleeps {call : PipeStream.State (Option T)} (hu : s.upcd = .idle) (hq : Waits s.call call none bufferLen)
      (hw : Works call (tally holdsCall s.upclnt)) : Did s none { s with call := call, upcd := .reading }
  | takes {call : PipeStream.State (Option T)} {bytes : List UInt8} (hu : s.upcd = .idle ∨ s.upcd = .reading)
      (hq : Got s.call call none bufferLen bytes) (hw : Works call (tally holdsCall s.upclnt)) :
      Did s none { s with call := call, upcd := .got bytes }
  | drops (hu : s.upcd = .got []) : Did s none { s with upcd := .idle }
  | replies {service : PipeStream.State (Option T)} {message : List UInt8} (hu : s.upcd = .got message)
      (hne : message ≠ []) (hq : Put s.service service (message.map f))
      (hw : Works service (tally holdsService s.upclnt)) : Did s none { s with service := service, upcd := .idle }
  | opensCall {c : T} {call : PipeStream.State (Option T)} {argv : List Str} (hu : s.upclnt c = .start argv)
      (hq : Same s.call call) (hw : Works call (tally holdsCall s.upclnt + 1)) :
      Did s (some c) (goOn { s with call := call } c (.opened argv))
  | opensService {c : T} {service : PipeStream.State (Option T)} {argv : List Str} (hu : s.upclnt c = .opened argv)
      (hq : Same s.service service) (hw : Works service (tally holdsService s.upclnt + 1)) :
      Did s (some c) (goOn { s with service := service } c (.next argv))
  | skips {c : T} {param : Str} {argv : List Str} (hu : s.upclnt c = .next (param :: argv)) (he : param.chars = []) :
      Did s (some c) (goOn s c (.sent param argv))
  | sends {c : T} {call : PipeStream.State (Option T)} {param : Str} {argv : List Str}
      (hu : s.upclnt c = .next (param :: argv)) (hne : param.chars ≠ []) (hq : Put s.call call param.chars)
      (hw : Works call (tally holdsCall s.upclnt)) : Did s (some c) (goOn { s with call := call } c (.sent param argv))
  | prints {c : T} {param : Str} {argv : List Str} (hu : s.upclnt c = .sent param argv) (he : param.chars = []) :
      Did s (some c) (received s c param argv (s.service, some []))
  | waits {c : T} {service : PipeStream.State (Option T)} {param : Str} {argv : List Str}
      (hu : s.upclnt c = .sent param argv) (hne : param.chars ≠ [])
      (hq : Waits s.service service (some c) param.chars.length) (hw : Works service (tally holdsService s.upclnt)) :
      Did s (some c) (goOn { s with service := service } c (.reading param argv))
  | hears {c : T} {service : PipeStream.State (Option T)} {param : Str} {argv : List Str} {bytes : List UInt8}
      (hu : s.upclnt c = .sent param argv ∨ s.upclnt c = .reading param argv) (hne : param.chars ≠ [])
      (hq : Got s.service service (some c) param.chars.length bytes)
      (hw : Works service (tally holdsService s.upclnt)) :
      Did s (some c) (received s c param argv (service, some bytes))
  | exits {c : T} {call service : PipeStream.State (Option T)} (hu : s.upclnt c = .next []) (hq : Same s.call call)
      (hq' : Same s.service service) (hw : ∀ n, tally holdsCall s.upclnt = n + 1 → Works call n)
      (hw' : ∀ n, tally holdsService s.upclnt = n + 1 → Works service n) :
      Did s (some c) (goOn { s with call := call, service := service } c .exited)

theorem did_upcd (h : Inv s) (hstep : upcdStep s = some s') : Did s none s' := by
  have hwriters : 0 < s.call.pipe.writerCount := by
    rw [h.call.writers]
    omega
  unfold upcdStep at hstep
  cases hu : s.upcd with
  | idle =>
    rw [hu] at hstep
    obtain ⟨⟨call, out⟩, hact, rfl⟩ := Option.map_eq_some_iff.mp hstep
    obtain ⟨-, -, ⟨rfl, hwaits⟩ | ⟨bytes, rfl, hgot⟩⟩ := read_of_act hwriters hact
    · exact .sleeps hu hwaits (h.call.act hact trivial hwaits.ends)
    · exact .takes (Or.inl hu) hgot (h.call.act hact trivial hgot.ends)
  | reading =>
    rw [hu] at hstep
    obtain ⟨⟨call, out⟩, hact, rfl⟩ := Option.map_eq_some_iff.mp hstep
    obtain ⟨len, bytes, hphase, rfl, hgot⟩ := resume_of_act hact
    have hat := h.upcd
    rw [hu] at hat
    rcases hat with hat | hat
    · rw [hat] at hphase
      cases hphase
    · rw [hat] at hphase
      obtain rfl := Phase.woken.inj hphase
      exact .takes (Or.inr hu) hgot (h.call.act hact trivial hgot.ends)
  | got message =>
    rw [hu] at hstep
    dsimp only at hstep
    split_ifs at hstep with hnil
    · obtain rfl := Option.some.inj hstep
      exact .drops (hnil ▸ hu)
    · obtain ⟨⟨service, out⟩, hact, rfl⟩ := Option.map_eq_some_iff.mp hstep
      obtain ⟨hput, -⟩ := put_of_act h.service.synced.reader hact
      have hnul : 0 ∉ message.map f := fun hmem => by
        obtain ⟨b, -, hb⟩ := List.mem_map.mp hmem
        exact f_ne_zero b hb
      exact .replies hu hnil hput (h.service.act hact hnul hput.ends)

/-- A client that has a queue open is counted. -/
theorem counted {w : Upclnt → ℕ} (hw : w (s.upclnt c) = 1) (hexit : w .exited = 0) :
    ∃ k, tally w s.upclnt = k + 1 := by
  have htally := tally_update w s.upclnt c .exited
  exact Nat.exists_eq_succ_of_ne_zero (by omega)

/-- A client can leave at the end. -/
theorem exit_closes (h : Inv s) (hu : s.upclnt c = .next []) : ∃ call service,
    closeBoth s.call = some call ∧ closeBoth s.service = some service ∧
      Did s (some c) (goOn { s with call := call, service := service } c .exited) := by
  obtain ⟨n, hn⟩ := @counted _ _ _ s c holdsCall (by rw [hu]; rfl) rfl
  obtain ⟨m, hm⟩ := @counted _ _ _ s c holdsService (by rw [hu]; rfl) rfl
  have hcall := h.call
  have hservice := h.service
  rw [hn] at hcall
  rw [hm] at hservice
  obtain ⟨call, hclose, hcalls, hsame⟩ := hcall.closed
  obtain ⟨service, hclose', hservices, hsame'⟩ := hservice.closed
  refine ⟨call, service, hclose, hclose', .exits hu hsame hsame' (fun k hk => ?_) fun k hk => ?_⟩
  · obtain rfl : n = k := by omega
    exact hcalls
  · obtain rfl : m = k := by omega
    exact hservices

theorem did_upclnt (h : Inv s) (hstep : upclntStep s c = some s') : Did s (some c) s' := by
  unfold upclntStep at hstep
  cases hu : s.upclnt c with
  | start argv =>
    rw [hu] at hstep
    obtain ⟨⟨call, out⟩, hact, rfl⟩ := Option.map_eq_some_iff.mp hstep
    obtain ⟨hopened, hsame⟩ := h.call.opened hact
    exact .opensCall hu hsame hopened
  | opened argv =>
    rw [hu] at hstep
    obtain ⟨⟨service, out⟩, hact, rfl⟩ := Option.map_eq_some_iff.mp hstep
    obtain ⟨hopened, hsame⟩ := h.service.opened hact
    exact .opensService hu hsame hopened
  | next argv =>
    cases argv with
    | nil =>
      rw [hu] at hstep
      obtain ⟨call, service, hcall, hservice, hdid⟩ := exit_closes h hu
      simp only [hcall, hservice, Option.bind_some, Option.map_some, Option.some.injEq] at hstep
      exact hstep ▸ hdid
    | cons param argv =>
      rw [hu] at hstep
      dsimp only at hstep
      split_ifs at hstep with hparam
      · obtain rfl := Option.some.inj hstep
        exact .skips hu hparam
      · obtain ⟨⟨call, out⟩, hact, rfl⟩ := Option.map_eq_some_iff.mp hstep
        obtain ⟨hput, -⟩ := put_of_act h.call.synced.reader hact
        exact .sends hu hparam hput (h.call.act hact param.nul hput.ends)
  | sent param argv =>
    rw [hu] at hstep
    dsimp only at hstep
    split_ifs at hstep with hparam
    · obtain rfl := Option.some.inj hstep
      exact .prints hu hparam
    · obtain ⟨⟨service, out⟩, hact, rfl⟩ := Option.map_eq_some_iff.mp hstep
      have hwriters : 0 < s.service.pipe.writerCount := by
        rw [h.service.writers]
        omega
      obtain ⟨-, -, ⟨rfl, hwaits⟩ | ⟨bytes, rfl, hgot⟩⟩ := read_of_act hwriters hact
      · exact .waits hu hparam hwaits (h.service.act hact trivial hwaits.ends)
      · exact .hears (Or.inl hu) hparam hgot (h.service.act hact trivial hgot.ends)
  | reading param argv =>
    rw [hu] at hstep
    obtain ⟨⟨service, out⟩, hact, rfl⟩ := Option.map_eq_some_iff.mp hstep
    obtain ⟨len, bytes, hphase, rfl, hgot⟩ := resume_of_act hact
    have hat := h.upclnt c
    rw [hu] at hat
    obtain ⟨hat | hat, hne⟩ := hat
    · rw [hat] at hphase
      cases hphase
    · rw [hat] at hphase
      obtain rfl := Phase.woken.inj hphase
      exact .hears (Or.inr hu) hne hgot (h.service.act hact trivial hgot.ends)
  | exited =>
    rw [hu] at hstep
    cases hstep

theorem did_of_step (h : Inv s) {party : Option T} (hstep : step s party = some s') : Did s party s' := by
  cases party with
  | none => exact did_upcd h hstep
  | some c => exact did_upclnt h hstep

/-- A client goes on, after something has been done to the queues. -/
theorem inv_goOn (s₁ : State T) (u : Upclnt) (h : Inv s) (hu₁ : s₁.upclnt = s.upclnt) (hupcd₁ : s₁.upcd = s.upcd)
    (hcall : ∀ m, m + holdsCall (s.upclnt c) = tally holdsCall s.upclnt + holdsCall u → Works s₁.call m)
    (hservice : ∀ m, m + holdsService (s.upclnt c) = tally holdsService s.upclnt + holdsService u →
      Works s₁.service m)
    (hupcd : s.upcd.At (s₁.call.phase none)) (hothers : ∀ d, d ≠ c → (s.upclnt d).At (s₁.service.phase (some d)))
    (hself : u.At (s₁.service.phase (some c))) (hcallers : ∀ d, s₁.call.phase (some d) = .out)
    (hreplier : s₁.service.phase none = .out) (hreturned : s₁.call.returned = s.call.returned)
    (hwritten : s₁.service.written = s.service.written)
    (henough : tally waits s.upclnt + waits u ≤
      s₁.call.pipe.list.length + busy s.upcd + s₁.service.pipe.list.length + waits (s.upclnt c)) :
    Inv (goOn s₁ c u) := by
  have hcalls := tally_update holdsCall s.upclnt c u
  have hservices := tally_update holdsService s.upclnt c u
  have hwaits := tally_update waits s.upclnt c u
  rw [← hu₁] at hcalls hservices hwaits
  refine ⟨hcall _ (hu₁ ▸ hcalls), hservice _ (hu₁ ▸ hservices), ?_, fun d => ?_, hcallers, hreplier, ?_, ?_⟩
  · simp only [goOn, hupcd₁]
    exact hupcd
  · simp only [goOn, hu₁]
    by_cases hd : d = c
    · subst hd
      rw [Function.update_self]
      exact hself
    · rw [Function.update_of_ne hd]
      exact hothers d hd
  · simp only [goOn, hupcd₁, hreturned, hwritten]
    exact h.passed
  · simp only [goOn, hupcd₁]
    rw [hu₁] at hwaits ⊢
    omega

/-- A client goes on without a message, or opens or closes the queues. -/
theorem inv_quiet {call service : PipeStream.State (Option T)} {u : Upclnt} (h : Inv s) (hcall : Same s.call call)
    (hservice : Same s.service service)
    (hcalls : ∀ m, m + holdsCall (s.upclnt c) = tally holdsCall s.upclnt + holdsCall u → Works call m)
    (hservices : ∀ m, m + holdsService (s.upclnt c) = tally holdsService s.upclnt + holdsService u →
      Works service m)
    (hself : u.At (s.service.phase (some c))) (hwaits : waits u = waits (s.upclnt c)) :
    Inv (goOn { s with call := call, service := service } c u) := by
  have henough := h.enough
  apply inv_goOn { s with call := call, service := service } u h rfl rfl hcalls hservices
  · rw [hcall.phase]
    exact h.upcd
  · intro d _
    rw [hservice.phase]
    exact h.upclnt d
  · rw [hservice.phase]
    exact hself
  · intro d
    rw [hcall.phase]
    exact h.callers d
  · rw [hservice.phase]
    exact h.replier
  · exact hcall.returned
  · exact hservice.written
  · rw [hwaits, hcall.list, hservice.list]
    exact Nat.add_le_add_right henough _

omit [DecidableEq T] [Fintype T] in
theorem same_refl (q : PipeStream.State (Option T)) : Same q q := ⟨rfl, rfl, rfl, rfl⟩

omit [DecidableEq T] in
theorem Works.kept {m k : ℕ} (h : Works q n) (hm : m + k = n + k) : Works q m := Nat.add_right_cancel hm ▸ h

theorem waits_sent {param : Str} {argv : List Str} :
    waits (.sent param argv) = if param.chars = [] then 0 else 1 := by
  rw [waits, asks]
  by_cases he : param.chars = []
  · rw [if_pos he, if_pos he]
    rfl
  · rw [if_neg he, if_neg he]
    rfl

theorem inv_did (h : Inv s) {party : Option T} (hdid : Did s party s') : Inv s' := by
  have henough := h.enough
  have hpassed := h.passed
  cases hdid with
  | sleeps hu hq hw =>
    rw [hu] at henough hpassed
    refine ⟨hw, h.service, ?_, h.upclnt, fun c => ?_, h.replier, ?_, ?_⟩
    · rw [hq.phase, Function.update_self]
      exact Or.inl rfl
    · rw [hq.phase, Function.update_of_ne (Option.some_ne_none c), h.callers c]
    · rw [hq.returned]
      exact hpassed
    · rw [hq.list]
      exact henough
  | takes hu hq hw =>
    have hheld : held s.upcd = [] := by rcases hu with hu | hu <;> rw [hu] <;> rfl
    refine ⟨hw, h.service, ?_, h.upclnt, fun c => ?_, h.replier, ?_, ?_⟩
    · exact hq.phase.out (Function.update_self ..)
    · apply hq.phase.out
      rw [Function.update_of_ne (Option.some_ne_none c), h.callers c]
    · rw [hheld, List.map_nil, List.append_nil] at hpassed
      rw [hq.returned, List.map_append, hpassed]
      rfl
    · have hfewer := hq.fewer
      have hbusy : busy s.upcd = 0 := if_pos hheld
      have hnow : busy (.got _) = 1 := if_neg (hq.nonempty h.call.streamed (by decide))
      rw [hnow]
      dsimp only
      omega
  | drops hu =>
    have hat := h.upcd
    rw [hu] at hat hpassed henough
    exact ⟨h.call, h.service, hat, h.upclnt, h.callers, h.replier, hpassed, henough⟩
  | replies hu hne hq hw =>
    have hat := h.upcd
    rw [hu] at hat hpassed henough
    refine ⟨h.call, hw, hat, fun c => hq.phase.client (h.upclnt c), h.callers, hq.phase.out h.replier, ?_, ?_⟩
    · rw [hq.written, hpassed]
      simp [held]
    · have hbusy : busy (.got _) = 1 := if_neg hne
      have hnow : busy .idle = 0 := rfl
      rw [hbusy] at henough
      rw [hnow, hq.list, List.length_append, List.length_singleton]
      dsimp only
      omega
  | @opensCall c _ _ hu hq hw =>
    have hat := h.upclnt c
    rw [hu] at hat
    refine inv_quiet h hq (same_refl _) (fun m hm => ?_) (fun m hm => ?_) ?_ (by rw [hu]; rfl)
    · rw [hu] at hm
      exact hw.kept hm
    · rw [hu] at hm
      exact h.service.kept hm
    · exact hat
  | @opensService c _ _ hu hq hw =>
    have hat := h.upclnt c
    rw [hu] at hat
    refine inv_quiet h (same_refl _) hq (fun m hm => ?_) (fun m hm => ?_) ?_ (by rw [hu]; rfl)
    · rw [hu] at hm
      exact h.call.kept hm
    · rw [hu] at hm
      exact hw.kept hm
    · exact hat
  | @skips c param argv hu he =>
    have hat := h.upclnt c
    rw [hu] at hat
    refine inv_quiet h (same_refl _) (same_refl _) (fun m hm => ?_) (fun m hm => ?_) ?_ ?_
    · rw [hu] at hm
      exact h.call.kept hm
    · rw [hu] at hm
      exact h.service.kept hm
    · exact hat
    · rw [hu, waits_sent, if_pos he]
      rfl
  | @sends c call param argv hu hne hq hw =>
    have hat := h.upclnt c
    rw [hu] at hat
    apply inv_goOn { s with call := call } (.sent param argv) h rfl rfl
    · intro m hm
      rw [hu] at hm
      exact hw.kept hm
    · intro m hm
      rw [hu] at hm
      exact h.service.kept hm
    · cases hd : s.upcd with
      | reading =>
        have hreading := h.upcd
        rw [hd] at hreading
        exact hq.phase.inRead hreading
      | _ =>
        have hout := h.upcd
        rw [hd] at hout
        exact hq.phase.out hout
    · exact fun d _ => h.upclnt d
    · exact hat
    · exact fun d => hq.phase.out (h.callers d)
    · exact h.replier
    · exact hq.returned
    · rfl
    · rw [waits_sent, if_neg hne, hq.list, List.length_append, List.length_singleton]
      dsimp only
      omega
  | @prints c param argv hu he =>
    have hat := h.upclnt c
    rw [hu] at hat
    have hinv : Inv (goOn s c (.next argv)) := by
      refine inv_quiet h (same_refl _) (same_refl _) (fun m hm => ?_) (fun m hm => ?_) ?_ ?_
      · rw [hu] at hm
        exact h.call.kept hm
      · rw [hu] at hm
        exact h.service.kept hm
      · exact hat
      · rw [hu, waits_sent, if_pos he]
        rfl
    exact ⟨hinv.call, hinv.service, hinv.upcd, hinv.upclnt, hinv.callers, hinv.replier, hinv.passed, hinv.enough⟩
  | @waits c service param argv hu hne hq hw =>
    apply inv_goOn { s with service := service } (.reading param argv) h rfl rfl
    · intro m hm
      rw [hu] at hm
      exact h.call.kept hm
    · intro m hm
      rw [hu] at hm
      exact hw.kept hm
    · exact h.upcd
    · intro d hd
      rw [hq.phase, Function.update_of_ne (by simpa using hd)]
      exact h.upclnt d
    · rw [hq.phase, Function.update_self]
      exact ⟨Or.inl rfl, hne⟩
    · exact h.callers
    · rw [hq.phase, Function.update_of_ne (Option.some_ne_none c).symm]
      exact h.replier
    · rfl
    · exact hq.written
    · rw [hu, waits_sent, if_neg hne, hq.list]
      exact Nat.add_le_add_right henough 1
  | @hears c service param argv bytes hu hne hq hw =>
    have hheld : holdsCall (s.upclnt c) = 1 ∧ holdsService (s.upclnt c) = 1 ∧ waits (s.upclnt c) = 1 := by
      rcases hu with hu | hu
      · rw [hu, waits_sent, if_neg hne]
        exact ⟨rfl, rfl, rfl⟩
      · rw [hu]
        exact ⟨rfl, rfl, rfl⟩
    obtain ⟨hcalls, hservices, hwaits⟩ := hheld
    apply inv_goOn { s with
      service := service
      printed := Function.update s.printed c
        (s.printed c ++ [text (bytes ++ param.chars.drop bytes.length ++ [0])]) } (.next argv) h rfl rfl
    · intro m hm
      rw [hcalls] at hm
      exact h.call.kept hm
    · intro m hm
      rw [hservices] at hm
      exact hw.kept hm
    · exact h.upcd
    · intro d hd
      apply hq.phase.client
      rw [Function.update_of_ne (by simpa using hd)]
      exact h.upclnt d
    · exact hq.phase.out (Function.update_self ..)
    · exact h.callers
    · apply hq.phase.out
      rw [Function.update_of_ne (Option.some_ne_none c).symm, h.replier]
    · rfl
    · exact hq.written
    · have hfewer := hq.fewer
      have hnow : UpcService.waits (.next argv) = 0 := rfl
      rw [hwaits, hnow]
      dsimp only
      omega
  | @exits c call service hu hq hq' hw hw' =>
    have hat := h.upclnt c
    rw [hu] at hat
    obtain ⟨n, hn⟩ := @counted _ _ _ s c holdsCall (by rw [hu]; rfl) rfl
    obtain ⟨m, hm⟩ := @counted _ _ _ s c holdsService (by rw [hu]; rfl) rfl
    refine inv_quiet h hq hq' (fun k hk => ?_) (fun k hk => ?_) ?_ (by rw [hu]; rfl)
    · rw [hu, hn] at hk
      exact (hw n hn).kept hk
    · rw [hu, hm] at hk
      exact (hw' m hm).kept hk
    · exact hat

omit [DecidableEq T] in
theorem inv_begin (argv : T → List Str) : Inv (start argv) := by
  have hnone (w : Upclnt → ℕ) (hw : ∀ a, w (.start a) = 0) : tally w (start argv).upclnt = 0 :=
    tally_eq_zero fun c => hw (argv c)
  have hcalls := hnone holdsCall fun _ => rfl
  have hservices := hnone holdsService fun _ => rfl
  have hwaits := hnone waits fun _ => rfl
  refine ⟨?_, ?_, rfl, fun _ => rfl, fun _ => rfl, rfl, rfl, ?_⟩
  · rw [hcalls]
    exact ⟨PipeStream.synced_init, PipeStream.streamed_init, rfl, rfl⟩
  · rw [hservices]
    exact ⟨PipeStream.synced_init, PipeStream.streamed_init, rfl, rfl⟩
  · rw [hwaits]
    exact Nat.zero_le _

theorem inv_run {argv : T → List Str} {parties : List (Option T)} (hrun : exec step (start argv) parties = some s) :
    Inv s :=
  exec_invariant (fun _ _ _ h _ hstep => inv_did h (did_of_step h hstep)) (inv_begin argv) (meets_true _ _) hrun

end Invariant

section Conserved

variable {T : Type} [DecidableEq T] [Fintype T]

/-- The bytes in the messages of a queue. -/
def queued (q : PipeStream.State (Option T)) : List UInt8 := (q.pipe.list.map text).flatten

omit [DecidableEq T] [Fintype T] in
theorem written_length {q : PipeStream.State (Option T)} (h : Streamed q) :
    q.written.length = q.returned.length + (queued q).length := by
  rw [h.stream, List.length_append]
  rfl

end Conserved

/-- Whatever clients there are and however they take turns, no byte is lost or comes twice or in another order: what
the clients have sent has come back in capitals, or is on its way. -/
theorem requests_conserved {T : Type} [DecidableEq T] [Fintype T] (argv : T → List Str)
    (parties : List (Option T)) (s : State T) (hrun : exec step (start argv) parties = some s) :
    s.call.written.map f =
      s.service.returned ++ queued s.service ++ (held s.upcd).map f ++ (queued s.call).map f := by
  have h := inv_run hrun
  have hcall := h.call.streamed.stream
  have hservice := h.service.streamed.stream
  rw [hcall, List.map_append, h.passed, hservice]
  rfl

section Completes

/-- The steps that parameters take, those of the daemon included. -/
def cost (argv : List Str) : ℕ := (argv.map fun param => 3 + 3 * param.chars.length).sum

def Upclnt.left : Upclnt → ℕ
  | .start argv => 3 + cost argv
  | .opened argv => 2 + cost argv
  | .next argv => 1 + cost argv
  | .sent _ argv => 3 + cost argv
  | .reading _ argv => 2 + cost argv
  | .exited => 0

def Upcd.left : Upcd → ℕ
  | .idle => 1
  | .reading => 0
  | .got _ => 2

variable {T : Type} [DecidableEq T] [Fintype T] {s s' : State T} {c : T} {party : Option T}

/-- A number that each step lowers. A message that the daemon reads makes up for the steps that it takes with it. -/
def left (s : State T) : ℕ := tally Upclnt.left s.upclnt + 3 * (queued s.call).length + s.upcd.left

theorem cost_cons (param : Str) (argv : List Str) :
    cost (param :: argv) = 3 + 3 * param.chars.length + cost argv := by
  rw [cost, List.map_cons, List.sum_cons, cost]

omit [DecidableEq T] [Fintype T] in
theorem Same.queued {q q' : PipeStream.State (Option T)} (h : Same q q') : queued q' = queued q := by
  rw [UpcService.queued, h.list, UpcService.queued]

/-- A client goes on and has less to do. -/
theorem left_goOn (s s₁ : State T) (u : Upclnt) (hu₁ : s₁.upclnt = s.upclnt) (hupcd₁ : s₁.upcd = s.upcd)
    (hle : 3 * (queued s₁.call).length + u.left < 3 * (queued s.call).length + (s.upclnt c).left) :
    left (goOn s₁ c u) < left s := by
  have htally := tally_update Upclnt.left s.upclnt c u
  simp only [left, goOn, hu₁, hupcd₁]
  omega

theorem left_did (h : Inv s) (hdid : Did s party s') : left s' < left s := by
  have hlength := written_length h.call.streamed
  cases hdid with
  | sleeps hu hq hw =>
    have hlater := written_length hw.streamed
    rw [hq.written, hq.returned] at hlater
    simp only [left, hu, Upcd.left]
    omega
  | takes hu hq hw =>
    have hlater := written_length hw.streamed
    have hpos := List.length_pos_iff.mpr (hq.nonempty h.call.streamed (by decide))
    rw [hq.written, hq.returned, List.length_append] at hlater
    have hle : s.upcd.left ≤ 1 := by rcases hu with hu | hu <;> rw [hu] <;> decide
    simp only [left, Upcd.left] at hle ⊢
    omega
  | drops hu =>
    simp only [left, hu, Upcd.left]
    omega
  | replies hu hne hq hw =>
    simp only [left, hu, Upcd.left]
    omega
  | @opensCall c call argv hu hq hw =>
    apply left_goOn s { s with call := call } _ rfl rfl
    rw [hq.queued, hu]
    simp only [Upclnt.left]
    omega
  | @opensService c service argv hu hq hw =>
    apply left_goOn s { s with service := service } _ rfl rfl
    rw [hu]
    simp only [Upclnt.left]
    omega
  | @skips c param argv hu he =>
    apply left_goOn s s _ rfl rfl
    rw [hu]
    simp only [Upclnt.left, cost_cons]
    omega
  | @sends c call param argv hu hne hq hw =>
    have hlater := written_length hw.streamed
    rw [hq.written, hq.returned, List.length_append] at hlater
    apply left_goOn s { s with call := call } _ rfl rfl
    rw [hu]
    simp only [Upclnt.left, cost_cons]
    omega
  | @prints c param argv hu he =>
    apply left_goOn s { s with printed := _ } _ rfl rfl
    rw [hu]
    simp only [Upclnt.left]
    omega
  | @waits c service param argv hu hne hq hw =>
    apply left_goOn s { s with service := service } _ rfl rfl
    rw [hu]
    simp only [Upclnt.left]
    omega
  | @hears c service param argv bytes hu hne hq hw =>
    apply left_goOn s { s with service := service, printed := _ } _ rfl rfl
    rcases hu with hu | hu <;> rw [hu] <;> simp only [Upclnt.left] <;> omega
  | @exits c call service hu hq hq' hw hw' =>
    apply left_goOn s { s with call := call, service := service } _ rfl rfl
    rw [hq.queued, hu]
    simp only [Upclnt.left]
    omega

theorem left_run {parties : List (Option T)} (h : Inv s) (hrun : exec step s parties = some s') :
    parties.length + left s' ≤ left s := by
  induction parties generalizing s with
  | nil =>
    obtain rfl := Option.some.inj hrun
    rw [List.length_nil, Nat.zero_add]
  | cons party parties ih =>
    obtain ⟨s₁, hstep, hrest⟩ := exec_cons.mp hrun
    have hdid := did_of_step h hstep
    have hless := left_did h hdid
    have hrest := ih (inv_did h hdid) hrest
    rw [List.length_cons]
    omega

/-- The daemon can go on, unless it sleeps before an empty queue. -/
theorem upcd_moves (h : Inv s) (hstuck : upcdStep s = none) : s.call.pipe.list = [] ∧ busy s.upcd = 0 := by
  have hat := h.upcd
  unfold upcdStep at hstuck
  cases hu : s.upcd with
  | idle =>
    rw [hu] at hstuck hat
    obtain ⟨r, hr⟩ := reads h.call.synced hat (by decide : 0 < bufferLen)
    simp only [hr, Option.map_some, reduceCtorEq] at hstuck
  | reading =>
    rw [hu] at hstuck hat
    rcases hat with hat | hat
    · refine ⟨empty_of_asleep h.call.synced hat fun u l hl => ?_, rfl⟩
      cases u with
      | none =>
        rw [hat] at hl
        cases hl
      | some c =>
        rw [h.callers c] at hl
        cases hl
    · obtain ⟨r, hr⟩ := resumes h.call.synced hat
      simp only [hr, Option.map_some, reduceCtorEq] at hstuck
  | got message =>
    rw [hu] at hstuck
    dsimp only at hstuck
    split_ifs at hstuck with hnil
    have hne : message.map f ≠ [] := by simpa using hnil
    obtain ⟨service, hact, -⟩ := act_write h.replier hne h.service.synced.reader
    simp only [hact, Option.map_some, reduceCtorEq] at hstuck

/-- So can a client, unless it has left or sleeps before its reply. -/
theorem upclnt_moves (h : Inv s) (hstuck : upclntStep s c = none) : s.upclnt c = .exited ∨
    ∃ param argv, s.upclnt c = .reading param argv ∧ s.service.phase (some c) = .asleep param.chars.length := by
  have hat := h.upclnt c
  unfold upclntStep at hstuck
  cases hu : s.upclnt c with
  | start argv =>
    rw [hu] at hstuck
    cases hstuck
  | opened argv =>
    rw [hu] at hstuck
    cases hstuck
  | next argv =>
    cases argv with
    | nil =>
      rw [hu] at hstuck
      obtain ⟨call, service, hcall, hservice, -⟩ := exit_closes h hu
      simp only [hcall, hservice, Option.bind_some, Option.map_some, reduceCtorEq] at hstuck
    | cons param argv =>
      rw [hu] at hstuck
      dsimp only at hstuck
      split_ifs at hstuck with hparam
      obtain ⟨call, hact, -⟩ := act_write (h.callers c) hparam h.call.synced.reader
      simp only [hact, Option.map_some, reduceCtorEq] at hstuck
  | sent param argv =>
    rw [hu] at hstuck hat
    dsimp only at hstuck
    split_ifs at hstuck with hparam
    obtain ⟨r, hr⟩ := reads h.service.synced hat (List.length_pos_iff.mpr hparam)
    simp only [hr, Option.map_some, reduceCtorEq] at hstuck
  | reading param argv =>
    rw [hu] at hstuck hat
    obtain ⟨hat | hat, -⟩ := hat
    · exact Or.inr ⟨param, argv, rfl, hat⟩
    · obtain ⟨r, hr⟩ := resumes h.service.synced hat
      simp only [hr, Option.map_some, reduceCtorEq] at hstuck
  | exited => exact Or.inl rfl

/-- When nobody can go on, every client has left. -/
theorem exited_of_stuck (h : Inv s) (hstuck : ∀ party, step s party = none) (c : T) : s.upclnt c = .exited := by
  obtain ⟨hcall, hbusy⟩ := upcd_moves h (hstuck none)
  have hclients := fun d => upclnt_moves h (hstuck (some d))
  rcases hclients c with hexit | ⟨param, argv, hu, hasleep⟩
  · exact hexit
  exfalso
  have hservice : s.service.pipe.list = [] := by
    apply empty_of_asleep h.service.synced hasleep
    intro u l hl
    cases u with
    | none =>
      rw [h.replier] at hl
      cases hl
    | some d =>
      have hat := h.upclnt d
      rcases hclients d with hexit | ⟨_, _, -, hd⟩
      · rw [hexit] at hat
        rw [show s.service.phase (some d) = .out from hat] at hl
        cases hl
      · rw [hd] at hl
        cases hl
  have henough := h.enough
  have htally := tally_update waits s.upclnt c .exited
  rw [hu] at htally
  have hwaits : waits (.reading param argv) = 1 := rfl
  rw [hcall, hbusy, hservice] at henough
  rw [hwaits] at htally
  have hnone : waits .exited = 0 := rfl
  simp only [List.length_nil] at henough
  omega

end Completes

section Apart

/-- The parameters that a client has not printed an answer to. -/
def remaining : Upclnt → List Str
  | .start argv | .opened argv | .next argv => argv
  | .sent param argv | .reading param argv => param :: argv
  | .exited => []

variable {T : Type} [DecidableEq T] [Fintype T] {s s' : State T} {c : T} {party : Option T} {argv : T → List Str}
  {param : Str}

/-- A client sends while no other one waits for a reply. -/
def Alone (s : State T) : Option T → Prop
  | none => True
  | some c => ∀ param argv, s.upclnt c = .next (param :: argv) → param.chars ≠ [] → ∀ d, asks (s.upclnt d) = none

/-- Where the one request is that there is at a time. -/
inductive Stage (s : State T) : Prop
  | quiet (hnone : ∀ d, asks (s.upclnt d) = none) (hcall : s.call.pipe.list = []) (hheld : held s.upcd = [])
      (hservice : s.service.pipe.list = [])
  | asked {c : T} {param : Str} (hasks : asks (s.upclnt c) = some param)
      (hother : ∀ d, d ≠ c → asks (s.upclnt d) = none) (hcall : s.call.pipe.list = [param.chars ++ [0]])
      (hheld : held s.upcd = []) (hservice : s.service.pipe.list = [])
  | read {c : T} {param : Str} (hasks : asks (s.upclnt c) = some param)
      (hother : ∀ d, d ≠ c → asks (s.upclnt d) = none) (hcall : s.call.pipe.list = [])
      (hheld : s.upcd = .got param.chars) (hservice : s.service.pipe.list = [])
  | answered {c : T} {param : Str} (hasks : asks (s.upclnt c) = some param)
      (hother : ∀ d, d ≠ c → asks (s.upclnt d) = none) (hcall : s.call.pipe.list = [])
      (hheld : held s.upcd = []) (hservice : s.service.pipe.list = [param.chars.map f ++ [0]])

def line (param : Str) : List UInt8 := param.chars.map f

structure Tidy (argv : T → List Str) (s : State T) : Prop where
  lines : ∀ c, ∃ through, argv c = through ++ remaining (s.upclnt c) ∧ s.printed c = through.map line
  stage : Stage s

theorem asks_remaining {u : Upclnt} (h : asks u = some param) : param ∈ remaining u := by
  cases u with
  | sent param' argv =>
    rw [asks] at h
    split_ifs at h
    obtain rfl := Option.some.inj h
    exact List.mem_cons_self
  | reading param' argv =>
    obtain rfl := Option.some.inj h
    exact List.mem_cons_self
  | _ => cases h

omit [DecidableEq T] in
theorem asks_nonempty (h : Inv s) (hasks : asks (s.upclnt c) = some param) : param.chars ≠ [] := by
  have hat := h.upclnt c
  cases hu : s.upclnt c with
  | sent param' argv =>
    rw [hu, asks] at hasks
    split_ifs at hasks with hne
    obtain rfl := Option.some.inj hasks
    exact hne
  | reading param' argv =>
    rw [hu] at hasks hat
    obtain rfl := Option.some.inj hasks
    exact hat.2
  | _ =>
    rw [hu] at hasks
    cases hasks

omit [Fintype T] in
theorem asks_goOn (s₁ : State T) {u : Upclnt} (hu₁ : s₁.upclnt = s.upclnt) (hasks : asks u = asks (s.upclnt c))
    (d : T) : asks ((goOn s₁ c u).upclnt d) = asks (s.upclnt d) := by
  simp only [goOn, hu₁]
  by_cases hd : d = c
  · subst hd
    rw [Function.update_self, hasks]
  · rw [Function.update_of_ne hd]

omit [Fintype T] in
/-- A client goes on without a request or a reply. -/
theorem Stage.goOn (h : Stage s) (s₁ : State T) {u : Upclnt} (hu₁ : s₁.upclnt = s.upclnt) (hupcd₁ : s₁.upcd = s.upcd)
    (hcall₁ : s₁.call.pipe.list = s.call.pipe.list) (hservice₁ : s₁.service.pipe.list = s.service.pipe.list)
    (hasks : asks u = asks (s.upclnt c)) : Stage (goOn s₁ c u) := by
  have hall := asks_goOn s₁ hu₁ hasks
  cases h with
  | quiet hnone hcall hheld hservice =>
    exact .quiet (fun d => (hall d).trans (hnone d)) (hcall₁.trans hcall) ((congrArg held hupcd₁).trans hheld)
      (hservice₁.trans hservice)
  | asked hask hother hcall hheld hservice =>
    exact .asked ((hall _).trans hask) (fun d hd => (hall d).trans (hother d hd)) (hcall₁.trans hcall)
      ((congrArg held hupcd₁).trans hheld) (hservice₁.trans hservice)
  | read hask hother hcall hheld hservice =>
    exact .read ((hall _).trans hask) (fun d hd => (hall d).trans (hother d hd)) (hcall₁.trans hcall)
      (hupcd₁.trans hheld) (hservice₁.trans hservice)
  | answered hask hother hcall hheld hservice =>
    exact .answered ((hall _).trans hask) (fun d hd => (hall d).trans (hother d hd)) (hcall₁.trans hcall)
      ((congrArg held hupcd₁).trans hheld) (hservice₁.trans hservice)

omit [Fintype T] in
theorem Stage.sent (h : Stage s) {call : PipeStream.State (Option T)} {rest : List Str}
    (hnone : ∀ d, asks (s.upclnt d) = none) (hq : Put s.call call param.chars) (hne : param.chars ≠ []) :
    Stage (UpcService.goOn { s with call := call } c (.sent param rest)) := by
  cases h with
  | quiet _ hcall hheld hservice =>
    have hasks : asks ((UpcService.goOn { s with call := call } c (.sent param rest)).upclnt c) = some param := by
      simp only [UpcService.goOn, Function.update_self, asks]
      exact if_neg hne
    refine .asked hasks (fun d hd => ?_) ?_ hheld hservice
    · simp only [UpcService.goOn]
      rw [Function.update_of_ne hd]
      exact hnone d
    · have hlist := hq.list
      rw [hcall] at hlist
      exact hlist
  | asked hask => exact absurd ((hnone _).symm.trans hask) (by simp)
  | read hask => exact absurd ((hnone _).symm.trans hask) (by simp)
  | answered hask => exact absurd ((hnone _).symm.trans hask) (by simp)

omit [Fintype T] in
/-- The daemon reads the whole request. -/
theorem Stage.taken (h : Stage s) {call : PipeStream.State (Option T)} {bytes : List UInt8}
    (hshort : ∀ c param, asks (s.upclnt c) = some param → param.chars.length ≤ bufferLen)
    (hheld : held s.upcd = []) (hasked : ∀ c param, asks (s.upclnt c) = some param → param.chars ≠ [])
    (hq : Got s.call call none bufferLen bytes) : Stage { s with call := call, upcd := .got bytes } := by
  obtain ⟨input, rest, hlist, hbytes, -, hwhole⟩ := hq.input
  cases h with
  | quiet _ hcall => exact absurd (hcall.symm.trans hlist) (by simp)
  | @asked c param hask hother hcall _ hservice =>
    rw [hcall] at hlist
    obtain ⟨rfl, rfl⟩ := List.cons.inj hlist
    rw [text_terminated param.nul, List.take_of_length_le (hshort c param hask)] at hbytes
    rw [strlen_terminated param.nul] at hwhole
    exact .read hask hother (hwhole (hshort c param hask)) (congrArg Upcd.got hbytes) hservice
  | @read c param hask _ _ hu =>
    rw [hu] at hheld
    exact absurd hheld (hasked c param hask)
  | answered _ _ hcall => exact absurd (hcall.symm.trans hlist) (by simp)

omit [DecidableEq T] [Fintype T] in
theorem Stage.replied (h : Stage s) {service : PipeStream.State (Option T)} {message : List UInt8}
    (hu : s.upcd = .got message) (hne : message ≠ []) (hq : Put s.service service (message.map f)) :
    Stage { s with service := service, upcd := .idle } := by
  have hheld : held s.upcd ≠ [] := by
    rw [hu]
    exact hne
  cases h with
  | quiet _ _ hnone => exact absurd hnone hheld
  | asked _ _ _ hnone => exact absurd hnone hheld
  | read hask hother hcall hread hservice =>
    obtain rfl := Upcd.got.inj (hu.symm.trans hread)
    have hlist := hq.list
    rw [hservice] at hlist
    exact .answered hask hother hcall rfl hlist
  | answered _ _ _ hnone => exact absurd hnone hheld

omit [Fintype T] in
/-- A client that hears something hears its own answer, and then nothing is on the way. -/
theorem Stage.heard (h : Stage s) {service : PipeStream.State (Option T)} {bytes : List UInt8} {rest : List Str}
    (hask : asks (s.upclnt c) = some param) (hq : Got s.service service (some c) param.chars.length bytes) :
    bytes = line param ∧ Stage (received s c param rest (service, some bytes)) := by
  obtain ⟨input, more, hlist, hbytes, -, hwhole⟩ := hq.input
  cases h with
  | quiet hnone => exact absurd ((hnone c).symm.trans hask) (by simp)
  | asked _ _ _ _ hservice => exact absurd (hservice.symm.trans hlist) (by simp)
  | read _ _ _ _ hservice => exact absurd (hservice.symm.trans hlist) (by simp)
  | @answered c' param' hask' hother hcall hheld hservice =>
    obtain rfl : c = c' := by
      by_contra hne
      exact absurd ((hother c hne).symm.trans hask) (by simp)
    obtain rfl := Option.some.inj (hask.symm.trans hask')
    have hnul : 0 ∉ param.chars.map f := fun hmem => by
      obtain ⟨b, -, hb⟩ := List.mem_map.mp hmem
      exact f_ne_zero b hb
    rw [hservice] at hlist
    obtain ⟨rfl, rfl⟩ := List.cons.inj hlist
    rw [text_terminated hnul, List.take_of_length_le (by rw [List.length_map])] at hbytes
    rw [strlen_terminated hnul, List.length_map] at hwhole
    refine ⟨hbytes, .quiet (fun d => ?_) hcall hheld (hwhole le_rfl)⟩
    simp only [received, UpcService.goOn]
    by_cases hd : d = c
    · subst hd
      rw [Function.update_self]
      rfl
    · rw [Function.update_of_ne hd]
      exact hother d hd

omit [Fintype T] in
theorem lines_goOn (s₁ : State T) {u : Upclnt} (h : ∀ c, ∃ through, argv c = through ++ remaining (s.upclnt c) ∧
      s.printed c = through.map line) (hu₁ : s₁.upclnt = s.upclnt) (hprinted : s₁.printed = s.printed)
    (hu : remaining u = remaining (s.upclnt c)) (d : T) :
    ∃ through, argv d = through ++ remaining ((goOn s₁ c u).upclnt d) ∧
      (goOn s₁ c u).printed d = through.map line := by
  simp only [goOn, hu₁, hprinted]
  by_cases hd : d = c
  · subst hd
    rw [Function.update_self, hu]
    exact h d
  · rw [Function.update_of_ne hd]
    exact h d

omit [Fintype T] in
/-- One more line, which answers the next parameter. -/
theorem lines_received {service : PipeStream.State (Option T)} {rest : List Str}
    (h : ∀ c, ∃ through, argv c = through ++ remaining (s.upclnt c) ∧ s.printed c = through.map line)
    (hu : remaining (s.upclnt c) = param :: rest) (d : T) :
    ∃ through, argv d = through ++ remaining ((received s c param rest (service, some (line param))).upclnt d) ∧
      (received s c param rest (service, some (line param))).printed d = through.map line := by
  have hnul : 0 ∉ line param := fun hmem => by
    obtain ⟨b, -, hb⟩ := List.mem_map.mp hmem
    exact f_ne_zero b hb
  have hshown : text (line param ++ param.chars.drop (line param).length ++ [0]) = line param := by
    rw [line, List.length_map, List.drop_length, List.append_nil]
    exact text_terminated hnul []
  simp only [received, goOn]
  by_cases hd : d = c
  · subst hd
    obtain ⟨through, hargv, hprinted⟩ := h d
    rw [Function.update_self, Function.update_self, hshown]
    refine ⟨through ++ [param], ?_, ?_⟩
    · rw [hargv, hu, List.append_assoc]
      rfl
    · rw [hprinted, List.map_append]
      rfl
  · rw [Function.update_of_ne hd, Function.update_of_ne hd]
    exact h d

theorem tidy_did (hinv : Inv s) (h : Tidy argv s) (hshort : ∀ c, ∀ param ∈ argv c, param.chars.length ≤ bufferLen)
    (halone : Alone s party) (hdid : Did s party s') : Tidy argv s' := by
  have hshorts : ∀ c param, asks (s.upclnt c) = some param → param.chars.length ≤ bufferLen := by
    intro c param hasks
    obtain ⟨through, hargv, -⟩ := h.lines c
    apply hshort c
    rw [hargv]
    exact List.mem_append_right _ (asks_remaining hasks)
  have hasked : ∀ c param, asks (s.upclnt c) = some param → param.chars ≠ [] := fun _ _ => asks_nonempty hinv
  have hstage := h.stage
  cases hdid with
  | sleeps hu hq hw =>
    refine ⟨h.lines, ?_⟩
    cases hstage with
    | quiet hnone hcall hheld hservice => exact .quiet hnone (hq.list.trans hcall) rfl hservice
    | asked hask hother hcall hheld hservice => exact .asked hask hother (hq.list.trans hcall) rfl hservice
    | read hask hother hcall hread => exact absurd (hu.symm.trans hread) (by simp)
    | answered hask hother hcall hheld hservice => exact .answered hask hother (hq.list.trans hcall) rfl hservice
  | takes hu hq hw =>
    have hheld : held s.upcd = [] := by rcases hu with hu | hu <;> rw [hu] <;> rfl
    exact ⟨h.lines, hstage.taken hshorts hheld hasked hq⟩
  | drops hu =>
    refine ⟨h.lines, ?_⟩
    cases hstage with
    | quiet hnone hcall hheld hservice => exact .quiet hnone hcall rfl hservice
    | asked hask hother hcall hheld hservice => exact .asked hask hother hcall rfl hservice
    | @read c param hask hother hcall hread =>
      exact absurd (Upcd.got.inj (hu.symm.trans hread)).symm (hasked c param hask)
    | answered hask hother hcall hheld hservice => exact .answered hask hother hcall rfl hservice
  | replies hu hne hq hw => exact ⟨h.lines, hstage.replied hu hne hq⟩
  | @opensCall c call rest hu hq hw =>
    exact ⟨lines_goOn { s with call := call } h.lines rfl rfl (by rw [hu]; rfl),
      hstage.goOn { s with call := call } rfl rfl hq.list rfl (by rw [hu]; rfl)⟩
  | @opensService c service rest hu hq hw =>
    exact ⟨lines_goOn { s with service := service } h.lines rfl rfl (by rw [hu]; rfl),
      hstage.goOn { s with service := service } rfl rfl rfl hq.list (by rw [hu]; rfl)⟩
  | @skips c param rest hu he =>
    refine ⟨lines_goOn s h.lines rfl rfl (by rw [hu]; rfl), hstage.goOn s rfl rfl rfl rfl ?_⟩
    rw [hu, asks, if_pos he]
    rfl
  | @sends c call param rest hu hne hq hw =>
    exact ⟨lines_goOn { s with call := call } h.lines rfl rfl (by rw [hu]; rfl),
      hstage.sent (halone param rest hu hne) hq hne⟩
  | @prints c param rest hu he =>
    have hline : [] = line param := by
      rw [line, he]
      rfl
    have hlines := @lines_received _ _ s c argv param s.service rest h.lines (by rw [hu]; rfl)
    rw [← hline] at hlines
    have hsent : asks (.sent param rest) = none := if_pos he
    refine ⟨hlines, hstage.goOn { s with printed := _ } rfl rfl rfl rfl ?_⟩
    rw [hu, hsent]
    rfl
  | @waits c service param rest hu hne hq hw =>
    refine ⟨lines_goOn { s with service := service } h.lines rfl rfl (by rw [hu]; rfl),
      hstage.goOn { s with service := service } rfl rfl rfl hq.list ?_⟩
    rw [hu, asks, asks, if_neg hne]
  | @hears c service param rest bytes hu hne hq hw =>
    have hask : asks (s.upclnt c) = some param := by
      rcases hu with hu | hu
      · rw [hu, asks, if_neg hne]
      · rw [hu]
        rfl
    have hremaining : remaining (s.upclnt c) = param :: rest := by rcases hu with hu | hu <;> rw [hu] <;> rfl
    obtain ⟨rfl, hheard⟩ := @Stage.heard _ _ _ _ _ hstage service bytes rest hask hq
    exact ⟨lines_received h.lines hremaining, hheard⟩
  | @exits c call service hu hq hq' hw hw' =>
    exact ⟨lines_goOn { s with call := call, service := service } h.lines rfl rfl (by rw [hu]; rfl),
      hstage.goOn { s with call := call, service := service } rfl rfl hq.list hq'.list (by rw [hu]; rfl)⟩

end Apart

/-- However the clients and the daemon take turns, the run ends, and it ends with every client through. -/
theorem requests_complete {T : Type} [DecidableEq T] [Fintype T] (argv : T → List Str)
    (parties : List (Option T)) (s : State T) (hrun : exec step (start argv) parties = some s) :
    parties.length ≤ (∑ c, (3 + cost (argv c))) + 1 ∧
      ((∀ party, step s party = none) → ∀ c, s.upclnt c = .exited) := by
  have hleft : left (start argv) = (∑ c, (3 + cost (argv c))) + 1 := rfl
  have hrun' := left_run (inv_begin argv) hrun
  exact ⟨by omega, exited_of_stuck (inv_run hrun)⟩

/-- Where no two requests overlap, every client prints the answers to its own parameters, in their order. -/
theorem replies_own {T : Type} [DecidableEq T] [Fintype T] (argv : T → List Str)
    (hshort : ∀ c, ∀ param ∈ argv c, param.chars.length ≤ bufferLen) (parties : List (Option T)) (s : State T)
    (halone : Meets step Alone (start argv) parties) (hrun : exec step (start argv) parties = some s) (c : T) :
    ∃ through, argv c = through ++ remaining (s.upclnt c) ∧ s.printed c = through.map line := by
  have hbegin : Inv (start argv) ∧ Tidy argv (start argv) :=
    ⟨inv_begin argv, fun c => ⟨[], rfl, rfl⟩, .quiet (fun _ => rfl) rfl rfl rfl⟩
  have hpreserve : ∀ s party s', Inv s ∧ Tidy argv s → Alone s party → step s party = some s' →
      Inv s' ∧ Tidy argv s' := by
    intro s party s' h hparty hstep
    have hdid := did_of_step h.1 hstep
    exact ⟨inv_did h.1 hdid, tidy_did h.1 h.2 hshort hparty hdid⟩
  exact (exec_invariant hpreserve hbegin halone hrun).2.lines c

section Sample

/-- One client is always alone. -/
theorem alone_single {T : Type} [DecidableEq T] [Subsingleton T] (s : State T) (parties : List (Option T)) :
    Meets step Alone s parties := by
  induction parties generalizing s with
  | nil => trivial
  | cons party parties ih =>
    refine ⟨?_, fun s' _ => ih s'⟩
    cases party with
    | none => trivial
    | some c =>
      intro param argv hu _ d
      rw [Subsingleton.elim d c, hu]
      rfl

theorem nul_ab : (0 : UInt8) ∉ [97, 98] := by decide

/-- "ab". -/
def sampleParam : Str := ⟨[97, 98], nul_ab⟩

def sampleTurns : List (Option Unit) :=
  [none, some (), some (), some (), none, some (), none, some (), some ()]

/-- Two requests that overlap. -/
def overlapTurns : List (Option Bool) :=
  [some false, some false, some true, some true, some false, some true, none, none]

/-- The first request has been answered, the second lies in the queue. -/
theorem requests_conserved_sample : ∃ s, exec step (start fun _ : Bool => [sampleParam]) overlapTurns = some s ∧
    [65, 66, 65, 66] = s.service.returned ++ queued s.service ++ (held s.upcd).map f ++ (queued s.call).map f := by
  obtain ⟨s, hrun, hwritten⟩ : ∃ s, exec step (start fun _ : Bool => [sampleParam]) overlapTurns = some s ∧
      s.call.written = [97, 98, 97, 98] := ⟨_, rfl, rfl⟩
  have hconserved := requests_conserved (fun _ => [sampleParam]) overlapTurns s hrun
  rw [hwritten] at hconserved
  exact ⟨s, hrun, hconserved⟩

theorem requests_complete_sample : ∃ s, exec step (start fun _ => [sampleParam]) (sampleTurns ++ [none]) = some s ∧
    10 ≤ (∑ _ : Unit, (3 + cost [sampleParam])) + 1 ∧ ∀ c, s.upclnt c = .exited := by
  obtain ⟨s, hrun, hstuck⟩ : ∃ s, exec step (start fun _ : Unit => [sampleParam]) (sampleTurns ++ [none]) = some s ∧
      ∀ party, step s party = none := by
    refine ⟨_, rfl, fun party => ?_⟩
    cases party with
    | none => rfl
    | some c => rfl
  obtain ⟨hbound, hexited⟩ := requests_complete (fun _ => [sampleParam]) (sampleTurns ++ [none]) s hrun
  exact ⟨s, hrun, hbound, hexited hstuck⟩

/-- "AB" is printed. -/
theorem replies_own_sample : ∃ s, exec step (start fun _ => [sampleParam]) sampleTurns = some s ∧
    s.printed () = [[65, 66]] := by
  obtain ⟨s, hrun, hexited⟩ : ∃ s, exec step (start fun _ : Unit => [sampleParam]) sampleTurns = some s ∧
      s.upclnt () = .exited := ⟨_, rfl, rfl⟩
  refine ⟨s, hrun, ?_⟩
  obtain ⟨through, hargv, hprinted⟩ := replies_own (fun _ => [sampleParam]) (by decide) sampleTurns s
    (alone_single _ _) hrun ()
  rw [hexited, remaining, List.append_nil] at hargv
  rw [hprinted, ← hargv]
  decide

end Sample

end Eedox.UpcService
