import Eedox.Pipe
import Eedox.Library.Runs
import Eedox.Library.Tally

namespace Eedox.PipeStream

open Library.Runs Library.Tally Util Semaphore Pipe

inductive Phase
  | out
  | asleep (len : ℕ)
  | woken (len : ℕ)
  deriving DecidableEq

/-- A pipe and the tasks on it, with all bytes written and all bytes returned so far. -/
structure State (T : Type) where
  pipe : PipeT T
  phase : T → Phase
  written : List UInt8
  returned : List UInt8

inductive Action (T : Type)
  | write (t : T) (buffer : List UInt8)
  | read (t : T) (len : ℕ)
  | resume (t : T)
  | dupRd
  | dupWr
  | closeRd
  | closeWr
  | mqopen

variable {T : Type}

def Phase.awake : Phase → Phase
  | .asleep len => .woken len
  | ph => ph

def init : State T := ⟨pipeNew, fun _ => .out, [], []⟩

section Step

variable [DecidableEq T]

def wake (phase : T → Phase) : Option T → T → Phase
  | none => phase
  | some u => Function.update phase u (phase u).awake

def finish (s : State T) (t : T) (len : ℕ) : Option (State T × Option (List UInt8)) :=
  (pipeReadEnd s.pipe len).map fun next =>
    (⟨next.1, wake (Function.update s.phase t .out) next.2.1, s.written, s.returned ++ next.2.2⟩,
      some next.2.2)

/-- One action, with the bytes that a completed read returns. A reader is left at all times. -/
def act (s : State T) : Action T → Option (State T × Option (List UInt8))
  | .write t buffer =>
    if s.phase t = .out ∧ buffer ≠ [] then
      let next := pipeWrite s.pipe buffer
      some (⟨next.1, wake s.phase next.2, s.written ++ buffer, s.returned⟩, none)
    else none
  | .read t len =>
    if s.phase t = .out ∧ 0 < len then
      if atEnd s.pipe then some (s, some [])
      else
        let pipe := { s.pipe with lock := ksemaphoreWait s.pipe.lock t }
        if mustSleep s.pipe.lock then
          some ({ s with pipe, phase := Function.update s.phase t (.asleep len) }, none)
        else finish { s with pipe } t len
    else none
  | .resume t =>
    match s.phase t with
    | .woken len => finish s t len
    | _ => none
  | .dupRd => some ({ s with pipe := { s.pipe with readerCount := s.pipe.readerCount + 1 } }, none)
  | .dupWr =>
    if 0 < s.pipe.writerCount then
      some ({ s with pipe := { s.pipe with writerCount := s.pipe.writerCount + 1 } }, none)
    else none
  | .closeRd =>
    if 1 < s.pipe.readerCount then some ({ s with pipe := (pipeCloseRd s.pipe).1 }, none) else none
  | .closeWr =>
    if 0 < s.pipe.writerCount then some ({ s with pipe := (pipeCloseWr s.pipe).1 }, none) else none
  | .mqopen =>
    some ({ s with pipe := { s.pipe with readerCount := s.pipe.readerCount + 1,
                                         writerCount := s.pipe.writerCount + 1 } }, none)

def step (s : State T) (a : Action T) : Option (State T) := (act s a).map Prod.fst

/-- What was returned is a prefix of what was written, and a read that returns 0 finds all bytes
read and no writer left. -/
def Faithful (s : State T) : Prop :=
  s.returned <+: s.written ∧
    ∀ a s', act s a = some (s', some []) → s.returned = s.written ∧ s.pipe.writerCount = 0

end Step

def NulFree (_ : State T) : Action T → Prop
  | .write _ buffer => 0 ∉ buffer
  | _ => True

def weight : Phase → ℕ
  | .woken _ => 1
  | _ => 0

/-- The semaphore counts the messages that no woken reader has a claim on. -/
structure Synced [Fintype T] (s : State T) : Prop where
  reader : 0 < s.pipe.readerCount
  balanced : Balanced s.pipe.lock
  nodup : s.pipe.lock.sq.Nodup
  sleepers : ∀ t, t ∈ s.pipe.lock.sq ↔ ∃ len, s.phase t = .asleep len
  count : (s.pipe.list.length : ℤ) =
    s.pipe.lock.value + s.pipe.lock.sq.length + tally weight s.phase

def Message (m : List UInt8) : Prop := ∃ data tail, m = data ++ 0 :: tail ∧ 0 ∉ data ∧ data ≠ []

structure Streamed (s : State T) : Prop where
  lengths : ∀ t len, s.phase t = .asleep len ∨ s.phase t = .woken len → 0 < len
  messages : ∀ m ∈ s.pipe.list, Message m
  stream : s.written = s.returned ++ (s.pipe.list.map text).flatten

theorem closeRd_open {pipe : PipeT T} (h : 1 < pipe.readerCount) :
    (pipeCloseRd pipe).1 = { pipe with readerCount := pipe.readerCount - 1 } := by
  rw [pipeCloseRd, closeEnd, if_neg]
  dsimp only
  omega

theorem closeWr_open {pipe : PipeT T} (h : 0 < pipe.readerCount) :
    (pipeCloseWr pipe).1 = { pipe with writerCount := pipe.writerCount - 1 } := by
  rw [pipeCloseWr, closeEnd, if_neg]
  dsimp only
  omega

section Preserve

variable [DecidableEq T]

theorem wake_phase {phase : T → Phase} {u : Option T} {t : T} {ph : Phase}
    (h : wake phase u t = ph) : phase t = ph ∨ ∃ len, phase t = .asleep len ∧ ph = .woken len := by
  subst h
  cases u with
  | none => exact Or.inl rfl
  | some u =>
    by_cases ht : t = u
    · subst ht
      cases hp : phase t <;> simp [wake, hp, Phase.awake]
    · simp [wake, ht]

theorem finish_part {s : State T} {t : T} {len : ℕ} {input : List UInt8}
    {rest : List (List UInt8)} (hl : s.pipe.list = input :: rest) (hlt : len < strlen input) :
    finish s t len = some (⟨{ s.pipe with list := shift input len (strlen input - len) :: rest,
                                          lock := (ksemaphoreSignal s.pipe.lock).1 },
      wake (Function.update s.phase t .out) s.pipe.lock.sq.head?, s.written,
      s.returned ++ input.take len⟩, some (input.take len)) := by
  simp [finish, pipeReadEnd, hl, hlt, min_eq_left hlt.le, ksemaphoreSignal]

theorem finish_whole {s : State T} {t : T} {len : ℕ} {input : List UInt8}
    {rest : List (List UInt8)} (hl : s.pipe.list = input :: rest) (hlt : ¬ len < strlen input) :
    finish s t len = some (⟨{ s.pipe with list := rest }, Function.update s.phase t .out, s.written,
      s.returned ++ text input⟩, some (text input)) := by
  simp [finish, pipeReadEnd, hl, hlt, min_eq_right (not_lt.mp hlt), text, wake]

variable [Fintype T]

theorem wake_head {phase : T → Phase} {sq : List T} (hn : sq.Nodup)
    (hs : ∀ t, t ∈ sq ↔ ∃ len, phase t = .asleep len) :
    (∀ t, t ∈ sq.tail ↔ ∃ len, wake phase sq.head? t = .asleep len) ∧
      tally weight (wake phase sq.head?) + sq.tail.length = tally weight phase + sq.length := by
  cases sq with
  | nil => exact ⟨hs, rfl⟩
  | cons u us =>
    obtain ⟨len, hu⟩ := (hs u).mp List.mem_cons_self
    have hw : wake phase (some u) = Function.update phase u (.woken len) := by
      simp [wake, hu, Phase.awake]
    simp only [List.head?_cons, List.tail_cons, hw]
    constructor
    · intro t
      by_cases ht : t = u
      · subst ht
        simp [(List.nodup_cons.mp hn).1]
      · simp only [ne_eq, ht, not_false_eq_true, Function.update_of_ne, ← hs, List.mem_cons, false_or]
    · have := tally_update weight phase u (.woken len)
      simp only [hu, weight] at this
      simp only [List.length_cons]
      omega

theorem synced_finish {s : State T} {t : T} (len : ℕ) (hr : 0 < s.pipe.readerCount) (hb : Balanced s.pipe.lock)
    (hn : s.pipe.lock.sq.Nodup)
    (hs : ∀ u, u ∈ s.pipe.lock.sq ↔ ∃ l, Function.update s.phase t .out u = .asleep l)
    (hc : (s.pipe.list.length : ℤ) = s.pipe.lock.value + s.pipe.lock.sq.length +
      tally weight (Function.update s.phase t .out) + 1) :
    ∃ s' out, finish s t len = some (s', some out) ∧ Synced s' := by
  have hpos : s.pipe.list ≠ [] := by
    intro he
    simp only [Semaphore.Balanced, he, List.length_nil] at hb hc
    omega
  obtain ⟨input, rest, hl⟩ := List.exists_cons_of_ne_nil hpos
  by_cases hlt : len < strlen input
  · obtain ⟨hsl, htally⟩ := wake_head hn hs
    refine ⟨_, _, finish_part hl hlt, hr, balanced_signal hb, (List.tail_sublist _).nodup hn, hsl, ?_⟩
    rw [hl] at hc
    simp only [ksemaphoreSignal, List.length_cons] at hc ⊢
    omega
  · refine ⟨_, _, finish_whole hl hlt, hr, hb, hn, hs, ?_⟩
    rw [hl] at hc
    simp only [List.length_cons] at hc ⊢
    omega

omit [DecidableEq T] in
theorem synced_init : Synced (init : State T) where
  reader := Nat.one_pos
  balanced := balanced_init le_rfl
  nodup := List.nodup_nil
  sleepers := by simp [init, pipeNew, ksemaphoreInit]
  count := by
    have ht : tally weight (init : State T).phase = 0 := tally_eq_zero fun _ => rfl
    rw [ht]
    rfl

theorem synced_step {s s' : State T} {a : Action T} {out : Option (List UInt8)} (h : Synced s)
    (ha : act s a = some (s', out)) : Synced s' := by
  cases a with
  | write t buffer =>
    simp only [act, Option.ite_none_right_eq_some, Option.some.injEq, Prod.mk.injEq] at ha
    obtain ⟨_, rfl, _⟩ := ha
    simp only [pipeWrite, h.reader.ne', ↓reduceIte]
    obtain ⟨hsl, htally⟩ := wake_head h.nodup h.sleepers
    refine ⟨h.reader, balanced_signal h.balanced, (List.tail_sublist _).nodup h.nodup, hsl, ?_⟩
    have hc := h.count
    simp only [ksemaphoreSignal, List.length_append, List.length_singleton] at hc ⊢
    omega
  | read t len =>
    simp only [act, Option.ite_none_right_eq_some] at ha
    obtain ⟨⟨ht, hlen⟩, ha⟩ := ha
    have hne : t ∉ s.pipe.lock.sq := by
      rw [h.sleepers]
      simp [ht]
    have hout : Function.update s.phase t .out = s.phase := by
      rw [← ht]
      simp
    by_cases he : atEnd s.pipe = true
    · rw [if_pos he] at ha
      obtain ⟨rfl, _⟩ := Prod.mk.inj (Option.some.inj ha)
      exact h
    rw [if_neg he] at ha
    by_cases hv : mustSleep s.pipe.lock = true
    · rw [if_pos hv] at ha
      obtain ⟨rfl, _⟩ := Prod.mk.inj (Option.some.inj ha)
      have hw : ksemaphoreWait s.pipe.lock t =
          ⟨s.pipe.lock.sq ++ [t], s.pipe.lock.value - 1⟩ := by rw [ksemaphoreWait, if_pos hv]
      have htally := tally_update weight s.phase t (.asleep len)
      simp only [ht, weight] at htally
      refine ⟨h.reader, balanced_wait h.balanced t, ?_, ?_, ?_⟩
      · simp only [hw]
        refine List.nodup_append.mpr ⟨h.nodup, by simp, ?_⟩
        rintro u hu v hv rfl
        obtain rfl : u = t := by simpa using hv
        exact hne hu
      · intro u
        simp only [hw, List.mem_append, List.mem_singleton, h.sleepers]
        by_cases hu : u = t
        · subst hu
          simp
        · simp [hu]
      · have hc := h.count
        simp only [hw, List.length_append, List.length_singleton]
        omega
    · rw [if_neg hv] at ha
      have hw : ksemaphoreWait s.pipe.lock t =
          { s.pipe.lock with value := s.pipe.lock.value - 1 } := by rw [ksemaphoreWait, if_neg hv]
      obtain ⟨s'', o, hf, hs''⟩ := synced_finish
        (s := { s with pipe := { s.pipe with lock := ksemaphoreWait s.pipe.lock t } }) (t := t) len
        h.reader (balanced_wait h.balanced t) (by simpa only [hw] using h.nodup)
        (by simpa only [hw, hout] using h.sleepers)
        (by have hc := h.count; simp only [hw, hout]; omega)
      obtain ⟨rfl, _⟩ := Prod.mk.inj (Option.some.inj (hf.symm.trans ha))
      exact hs''
  | resume t =>
    simp only [act] at ha
    split at ha
    · rename_i len ht
      have htally := tally_update weight s.phase t .out
      simp only [ht, weight] at htally
      have hsl : ∀ u, u ∈ s.pipe.lock.sq ↔ ∃ l, Function.update s.phase t .out u = .asleep l := by
        intro u
        rw [h.sleepers]
        by_cases hu : u = t
        · subst hu
          simp [ht]
        · simp [hu]
      obtain ⟨s'', o, hf, hs''⟩ := synced_finish len h.reader h.balanced h.nodup hsl
        (by have hc := h.count; omega)
      obtain ⟨rfl, _⟩ := Prod.mk.inj (Option.some.inj (hf.symm.trans ha))
      exact hs''
    · simp at ha
  | dupRd =>
    obtain ⟨rfl, _⟩ := Prod.mk.inj (Option.some.inj ha)
    exact ⟨Nat.succ_pos _, h.balanced, h.nodup, h.sleepers, h.count⟩
  | dupWr =>
    simp only [act, Option.ite_none_right_eq_some, Option.some.injEq, Prod.mk.injEq] at ha
    obtain ⟨_, rfl, _⟩ := ha
    exact ⟨h.reader, h.balanced, h.nodup, h.sleepers, h.count⟩
  | closeRd =>
    simp only [act, Option.ite_none_right_eq_some, Option.some.injEq, Prod.mk.injEq] at ha
    obtain ⟨hr, rfl, _⟩ := ha
    rw [closeRd_open hr]
    exact ⟨Nat.sub_pos_of_lt hr, h.balanced, h.nodup, h.sleepers, h.count⟩
  | closeWr =>
    simp only [act, Option.ite_none_right_eq_some, Option.some.injEq, Prod.mk.injEq] at ha
    obtain ⟨_, rfl, _⟩ := ha
    rw [closeWr_open h.reader]
    exact ⟨h.reader, h.balanced, h.nodup, h.sleepers, h.count⟩
  | mqopen =>
    obtain ⟨rfl, _⟩ := Prod.mk.inj (Option.some.inj ha)
    exact ⟨Nat.succ_pos _, h.balanced, h.nodup, h.sleepers, h.count⟩

omit [Fintype T] in
theorem lengths_finish {s : State T} {t : T} (o : Option T)
    (h : ∀ u len, s.phase u = .asleep len ∨ s.phase u = .woken len → 0 < len) (u : T) (len : ℕ)
    (hu : wake (Function.update s.phase t .out) o u = .asleep len ∨
      wake (Function.update s.phase t .out) o u = .woken len) : 0 < len := by
  have hmid : ∀ v l, Function.update s.phase t .out v = .asleep l ∨
      Function.update s.phase t .out v = .woken l → 0 < l := by
    intro v l hv
    by_cases hvt : v = t
    · subst hvt
      simp at hv
    · rw [Function.update_of_ne hvt] at hv
      exact h v l hv
  rcases hu with hu | hu
  · rcases wake_phase hu with he | ⟨l, _, he⟩
    · exact hmid u len (Or.inl he)
    · simp at he
  · rcases wake_phase hu with he | ⟨l, he, hl⟩
    · exact hmid u len (Or.inr he)
    · cases hl
      exact hmid u len (Or.inl he)

omit [Fintype T] in
theorem streamed_finish {s s' : State T} {t : T} {len : ℕ} {out : Option (List UInt8)}
    (h : Streamed s) (hlen : 0 < len) (hf : finish s t len = some (s', out)) :
    Streamed s' ∧ out ≠ some [] := by
  cases hl : s.pipe.list with
  | nil => simp [finish, pipeReadEnd, hl] at hf
  | cons input rest =>
    have hms := h.messages
    rw [hl, List.forall_mem_cons] at hms
    obtain ⟨⟨data, tail, rfl, hz, hne⟩, hrest⟩ := hms
    have hst := h.stream
    rw [hl, List.map_cons, List.flatten_cons, text_terminated hz] at hst
    by_cases hlt : len < strlen (data ++ 0 :: tail)
    · rw [finish_part hl hlt] at hf
      obtain ⟨rfl, rfl⟩ := Prod.mk.inj (Option.some.inj hf)
      rw [strlen_terminated hz] at hlt ⊢
      obtain ⟨tail', hshift⟩ := shift_terminated hlt
      have hz' : 0 ∉ data.drop len := fun hm => hz (List.mem_of_mem_drop hm)
      have htake : (data ++ 0 :: tail).take len = data.take len :=
        List.take_append_of_le_length hlt.le
      refine ⟨⟨lengths_finish _ h.lengths, ?_, ?_⟩, ?_⟩
      · rw [List.forall_mem_cons, hshift]
        refine ⟨⟨data.drop len, tail', rfl, hz', ?_⟩, hrest⟩
        simpa using hlt
      · rw [hst, hshift, List.map_cons, List.flatten_cons, text_terminated hz', htake,
          List.append_assoc, ← List.append_assoc (data.take len), List.take_append_drop]
      · rw [htake]
        simp [hne, hlen.ne']
    · rw [finish_whole hl hlt, text_terminated hz] at hf
      obtain ⟨rfl, rfl⟩ := Prod.mk.inj (Option.some.inj hf)
      refine ⟨⟨lengths_finish none h.lengths, hrest, ?_⟩, by simpa using hne⟩
      rw [hst, List.append_assoc]

omit [Fintype T] [DecidableEq T] in
theorem streamed_init : Streamed (init : State T) where
  lengths t len h := by simp [init] at h
  messages := by simp [init, pipeNew]
  stream := by simp [init, pipeNew]

omit [Fintype T] in
theorem streamed_step {s s' : State T} {a : Action T} {out : Option (List UInt8)}
    (hr : 0 < s.pipe.readerCount) (h : Streamed s) (hg : NulFree s a)
    (ha : act s a = some (s', out)) : Streamed s' := by
  cases a with
  | write t buffer =>
    simp only [act, Option.ite_none_right_eq_some, Option.some.injEq, Prod.mk.injEq] at ha
    obtain ⟨⟨_, hne⟩, rfl, _⟩ := ha
    simp only [pipeWrite, hr.ne', ↓reduceIte]
    have hz : 0 ∉ buffer := hg
    refine ⟨?_, ?_, ?_⟩
    · intro u len hu
      rcases hu with hu | hu
      · rcases wake_phase hu with he | ⟨l, _, he⟩
        · exact h.lengths u len (Or.inl he)
        · simp at he
      · rcases wake_phase hu with he | ⟨l, he, hl⟩
        · exact h.lengths u len (Or.inr he)
        · cases hl
          exact h.lengths u len (Or.inl he)
    · intro m hm
      rcases List.mem_append.mp hm with hm | hm
      · exact h.messages m hm
      · obtain rfl := List.mem_singleton.mp hm
        exact ⟨buffer, [], rfl, hz, hne⟩
    · simp only [h.stream, List.map_append, List.flatten_append, List.append_assoc, List.map_cons,
        List.map_nil, List.flatten_cons, List.flatten_nil, List.append_nil, text_terminated hz]
  | read t len =>
    simp only [act, Option.ite_none_right_eq_some] at ha
    obtain ⟨⟨ht, hlen⟩, ha⟩ := ha
    by_cases he : atEnd s.pipe = true
    · rw [if_pos he] at ha
      obtain ⟨rfl, _⟩ := Prod.mk.inj (Option.some.inj ha)
      exact h
    rw [if_neg he] at ha
    by_cases hv : mustSleep s.pipe.lock = true
    · rw [if_pos hv] at ha
      obtain ⟨rfl, _⟩ := Prod.mk.inj (Option.some.inj ha)
      refine ⟨?_, h.messages, h.stream⟩
      intro u l hu
      by_cases hut : u = t
      · subst hut
        simp only [Function.update_self, Phase.asleep.injEq, reduceCtorEq, or_false] at hu
        exact hu ▸ hlen
      · simp only [ne_eq, hut, not_false_eq_true, Function.update_of_ne] at hu
        exact h.lengths u l hu
    · rw [if_neg hv] at ha
      have hmid : Streamed { s with pipe := { s.pipe with lock := ksemaphoreWait s.pipe.lock t } } :=
        ⟨h.lengths, h.messages, h.stream⟩
      exact (streamed_finish hmid hlen ha).1
  | resume t =>
    simp only [act] at ha
    split at ha
    · rename_i len ht
      exact (streamed_finish h (h.lengths t len (Or.inr ht)) ha).1
    · simp at ha
  | dupRd =>
    obtain ⟨rfl, _⟩ := Prod.mk.inj (Option.some.inj ha)
    exact ⟨h.lengths, h.messages, h.stream⟩
  | dupWr =>
    simp only [act, Option.ite_none_right_eq_some, Option.some.injEq, Prod.mk.injEq] at ha
    obtain ⟨_, rfl, _⟩ := ha
    exact ⟨h.lengths, h.messages, h.stream⟩
  | closeRd =>
    simp only [act, Option.ite_none_right_eq_some, Option.some.injEq, Prod.mk.injEq] at ha
    obtain ⟨hr', rfl, _⟩ := ha
    rw [closeRd_open hr']
    exact ⟨h.lengths, h.messages, h.stream⟩
  | closeWr =>
    simp only [act, Option.ite_none_right_eq_some, Option.some.injEq, Prod.mk.injEq] at ha
    obtain ⟨_, rfl, _⟩ := ha
    rw [closeWr_open hr]
    exact ⟨h.lengths, h.messages, h.stream⟩
  | mqopen =>
    obtain ⟨rfl, _⟩ := Prod.mk.inj (Option.some.inj ha)
    exact ⟨h.lengths, h.messages, h.stream⟩

omit [Fintype T] in
theorem returns_zero {s s' : State T} {a : Action T} (h : Streamed s)
    (ha : act s a = some (s', some [])) : s.pipe.list = [] ∧ s.pipe.writerCount = 0 := by
  cases a with
  | read t len =>
    simp only [act, Option.ite_none_right_eq_some] at ha
    obtain ⟨⟨ht, hlen⟩, ha⟩ := ha
    by_cases he : atEnd s.pipe = true
    · simpa [atEnd] using he
    rw [if_neg he] at ha
    by_cases hv : mustSleep s.pipe.lock = true
    · rw [if_pos hv] at ha
      simp at ha
    · rw [if_neg hv] at ha
      have hmid : Streamed { s with pipe := { s.pipe with lock := ksemaphoreWait s.pipe.lock t } } :=
        ⟨h.lengths, h.messages, h.stream⟩
      exact absurd rfl (streamed_finish hmid hlen ha).2
  | resume t =>
    simp only [act] at ha
    split at ha
    · rename_i len ht
      exact absurd rfl (streamed_finish h (h.lengths t len (Or.inr ht)) ha).2
    · simp at ha
  | write t buffer => simp [act] at ha
  | dupRd => simp [act] at ha
  | dupWr => simp [act] at ha
  | closeRd => simp [act] at ha
  | closeWr => simp [act] at ha
  | mqopen => simp [act] at ha

/-- In every run that writes no zero byte, the pipe is a byte stream. -/
theorem faithful_of_nulFree (as : List (Action T)) (hg : Meets step NulFree init as) (s : State T)
    (hs : exec step init as = some s) : Faithful s := by
  have hinv : Synced s ∧ Streamed s := by
    refine @exec_invariant _ _ _ _ (fun s => Synced s ∧ Streamed s) ?_ _ _ _
      ⟨synced_init, streamed_init⟩ hg hs
    intro s a s' h hga hstep
    obtain ⟨⟨t, out⟩, ha, rfl⟩ := Option.map_eq_some_iff.mp hstep
    exact ⟨synced_step h.1 ha, streamed_step h.1.reader h.2 hga ha⟩
  refine ⟨⟨_, hinv.2.stream.symm⟩, fun a s' ha => ?_⟩
  obtain ⟨hl, hw⟩ := returns_zero hinv.2 ha
  refine ⟨?_, hw⟩
  rw [hinv.2.stream, hl]
  simp

theorem faithful_two_messages : ∃ s : State (Fin 2), exec step init
    [.read 1 2, .write 0 [104, 105, 33], .resume 1, .read 1 9, .write 0 [10], .read 1 1] = some s ∧
      Faithful s :=
  ⟨_, rfl, faithful_of_nulFree
    [.read 1 2, .write 0 [104, 105, 33], .resume 1, .read 1 9, .write 0 [10], .read 1 1]
    (meets_cons trivial rfl (meets_cons (by simp [NulFree]) rfl (meets_cons trivial rfl
      (meets_cons trivial rfl (meets_cons (by simp [NulFree]) rfl (meets_cons trivial rfl trivial))))))
    _ rfl⟩

/-- The byte after a zero byte is lost: `a`, 0, `b` and then `c` are read as `a`, `c`. -/
theorem zero_byte_lost : ¬ ∀ (as : List (Action (Fin 2))) (s : State (Fin 2)),
    exec step init as = some s → Faithful s := by
  intro h
  have hf := h [.write 0 [97, 0, 98], .write 0 [99], .read 1 8, .read 1 8] _ rfl
  exact absurd hf.1 (by decide)

end Preserve

end Eedox.PipeStream
