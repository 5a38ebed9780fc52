import Eedox.Library.Runs
import Mathlib.Data.Fintype.Card
import Mathlib.Data.List.TakeWhile

namespace Eedox.ReaderWriterLock

open Library.Runs

inductive Operation | none | read | write
  deriving DecidableEq

structure Krwlock (T : Type) where
  procq : List T
  opq : List Operation
  readers : ℕ
  operation : Operation

variable {T : Type}

def krwlockInit : Krwlock T := ⟨[], [], 0, .none⟩

/-- The `while` loop of `krwlock_read`: the readers at the head of the queues leave them. -/
def wakeReaders : List T → List Operation → List T × List Operation × List T
  | p :: ps, .read :: os =>
    let rest := wakeReaders ps os
    (rest.1, rest.2.1, p :: rest.2.2)
  | ps, os => (ps, os, [])

def readBlocked (l : Krwlock T) : Bool :=
  l.operation = .write || (l.operation = .read && l.opq.head? = some .write)

def writeBlocked (l : Krwlock T) : Bool := l.operation ≠ .none

def enqueue (l : Krwlock T) (t : T) (op : Operation) : Krwlock T :=
  { l with procq := l.procq ++ [t], opq := l.opq ++ [op] }

def krwlockReadEnd (l : Krwlock T) : Krwlock T × List T :=
  let rest := wakeReaders l.procq l.opq
  (⟨rest.1, rest.2.1, l.readers + 1, .read⟩, rest.2.2)

def krwlockWriteEnd (l : Krwlock T) : Krwlock T := { l with operation := .write }

def free (l : Krwlock T) : Krwlock T × List T :=
  ({ l with procq := l.procq.tail, opq := if l.procq = [] then l.opq else l.opq.tail,
            operation := .none }, l.procq.take 1)

def krwlockRelease (l : Krwlock T) : Krwlock T × List T :=
  if l.readers = 0 then free l
  else if l.readers - 1 = 0 then free { l with readers := 0 }
  else ({ l with readers := l.readers - 1 }, [])

inductive Phase
  | out
  | asleep (op : Operation)
  | woken (op : Operation)
  | holds (op : Operation)
  deriving DecidableEq

structure State (T : Type) where
  lock : Krwlock T
  phase : T → Phase

inductive Action (T : Type)
  | read (t : T)
  | write (t : T)
  | resume (t : T)
  | release (t : T)

def init : State T := ⟨krwlockInit, fun _ => .out⟩

def Phase.awake : Phase → Phase
  | .asleep op => .woken op
  | ph => ph

section Step

variable [DecidableEq T]

def awake (phase : T → Phase) (ts : List T) : T → Phase :=
  fun u => if u ∈ ts then (phase u).awake else phase u

def acquire (s : State T) (t : T) : Operation → State T
  | .read =>
    let next := krwlockReadEnd s.lock
    ⟨next.1, awake (Function.update s.phase t (.holds .read)) next.2⟩
  | op => ⟨krwlockWriteEnd s.lock, Function.update s.phase t (.holds op)⟩

def block (s : State T) (t : T) (op : Operation) : State T :=
  ⟨enqueue s.lock t op, Function.update s.phase t (.asleep op)⟩

/-- One action of a task that runs; the others stand still. -/
def step (s : State T) : Action T → Option (State T)
  | .read t =>
    if s.phase t = .out then
      some (if readBlocked s.lock then block s t .read else acquire s t .read)
    else none
  | .write t =>
    if s.phase t = .out then
      some (if writeBlocked s.lock then block s t .write else acquire s t .write)
    else none
  | .resume t =>
    match s.phase t with
    | .woken op => some (acquire s t op)
    | _ => none
  | .release t =>
    match s.phase t with
    | .holds _ =>
      let next := krwlockRelease s.lock
      some ⟨next.1, awake (Function.update s.phase t .out) next.2⟩
    | _ => none

end Step

def Exclusive (s : State T) : Prop :=
  ∀ t u op, s.phase t = .holds .write → s.phase u = .holds op → u = t

/-- No call overtakes a task that was woken and has not resumed: a writer is not let in past a woken
task, nor a reader past a woken writer, and the last reader does not wake a writer beside a woken
reader. -/
def Waits (s : State T) : Action T → Prop
  | .read _ => s.lock.operation = .none → ∀ u, s.phase u ≠ .woken .write
  | .write _ => s.lock.operation = .none → ∀ u op, s.phase u ≠ .woken op
  | .release _ => s.lock.readers = 1 → s.lock.opq.head? = some .write →
      ∀ u, s.phase u ≠ .woken .read
  | .resume _ => True

structure Queued (s : State T) (q : List (T × Operation)) : Prop where
  procq : s.lock.procq = q.map Prod.fst
  opq : s.lock.opq = q.map Prod.snd
  nodup : (q.map Prod.fst).Nodup
  asleep : ∀ t op, (t, op) ∈ q ↔ s.phase t = .asleep op

def Granted (s : State T) (t : T) (op : Operation) : Prop :=
  s.phase t = .woken op ∨ s.phase t = .holds op

def Phase.Proper : Phase → Prop
  | .out => True
  | .asleep op | .woken op | .holds op => op ≠ .none

structure Inv [Fintype T] [DecidableEq T] (s : State T) : Prop where
  queued : ∃ q, Queued s q
  proper : ∀ t, (s.phase t).Proper
  alone : ∀ t u op, Granted s t .write → Granted s u op → u = t
  readers : s.lock.readers = (Finset.univ.filter fun t => s.phase t = .holds .read).card
  reading : s.lock.operation = .read ↔ ∃ t, s.phase t = .holds .read
  writing : s.lock.operation = .write ↔ ∃ t, s.phase t = .holds .write

theorem wakeReaders_zip (q : List (T × Operation)) :
    wakeReaders (q.map Prod.fst) (q.map Prod.snd) =
      ((q.dropWhile fun e => e.2 = .read).map Prod.fst,
        (q.dropWhile fun e => e.2 = .read).map Prod.snd,
        (q.takeWhile fun e => e.2 = .read).map Prod.fst) := by
  induction q with
  | nil => rfl
  | cons e q ih =>
    obtain ⟨p, op⟩ := e
    cases op <;> simp [wakeReaders, ih]

theorem exclusive_of_inv [Fintype T] [DecidableEq T] {s : State T} (h : Inv s) : Exclusive s :=
  fun t u op ht hu => h.alone t u op (Or.inr ht) (Or.inr hu)

section Preserve

variable [Fintype T] [DecidableEq T]

theorem inv_init : Inv (init : State T) where
  queued := ⟨[], rfl, rfl, List.nodup_nil, by simp [init]⟩
  proper t := trivial
  alone t u op h := by simp [Granted, init] at h
  readers := by simp [init, krwlockInit]
  reading := by simp [init, krwlockInit]
  writing := by simp [init, krwlockInit]

omit [Fintype T] [DecidableEq T] in
theorem Queued.not_mem {s : State T} {q : List (T × Operation)} (hq : Queued s q) {t : T}
    (ht : ∀ op, s.phase t ≠ .asleep op) : t ∉ q.map Prod.fst := by
  intro hm
  obtain ⟨⟨u, op⟩, he, rfl⟩ := List.mem_map.mp hm
  exact ht op ((hq.asleep u op).mp he)

theorem inv_block {s : State T} (h : Inv s) {t : T} (ht : s.phase t = .out) {op : Operation}
    (hop : op ≠ .none) : Inv (block s t op) := by
  obtain ⟨q, hq⟩ := h.queued
  have hne : ∀ o, s.phase t ≠ .asleep o := by simp [ht]
  have hph : ∀ u ph, ph ≠ .asleep op → ph ≠ .out → ((block s t op).phase u = ph ↔ s.phase u = ph) := by
    intro u ph h1 h2
    by_cases hu : u = t
    · subst hu
      simp [block, ht, Ne.symm h1, Ne.symm h2]
    · simp [block, hu]
  refine ⟨⟨q ++ [(t, op)], ?_, ?_, ?_, ?_⟩, ?_, ?_, ?_, ?_, ?_⟩
  · simp [block, enqueue, hq.procq]
  · simp [block, enqueue, hq.opq]
  · rw [List.map_append, List.nodup_append]
    refine ⟨hq.nodup, by simp, ?_⟩
    rintro a ha b hb rfl
    obtain rfl : a = t := by simpa using hb
    exact hq.not_mem hne ha
  · intro u o
    rw [List.mem_append, hq.asleep]
    by_cases hu : u = t
    · subst hu
      simp [block, hne, eq_comm]
    · simp [block, hu]
  · intro u
    by_cases hu : u = t
    · subst hu
      simpa [block, Phase.Proper] using hop
    · simpa [block, hu] using h.proper u
  · intro u v o hu hv
    simp only [Granted] at hu hv
    rw [hph _ _ (by simp) (by simp), hph _ _ (by simp) (by simp)] at hu hv
    exact h.alone u v o hu hv
  · simp only [hph _ (.holds .read) (by simp) (by simp)]
    exact h.readers
  · simp only [hph _ (.holds .read) (by simp) (by simp)]
    exact h.reading
  · simp only [hph _ (.holds .write) (by simp) (by simp)]
    exact h.writing

structure Woken (phase phase' : T → Phase) (w r : List (T × Operation)) : Prop where
  asleep : ∀ t op, (t, op) ∈ r ↔ phase' t = .asleep op
  woken : ∀ t op, phase' t = .woken op ↔ phase t = .woken op ∨ (t, op) ∈ w
  holds : ∀ t op, phase' t = .holds op ↔ phase t = .holds op

omit [Fintype T] in
theorem awake_woken {phase : T → Phase} {w r : List (T × Operation)}
    (hn : ((w ++ r).map Prod.fst).Nodup) (hq : ∀ t op, (t, op) ∈ w ++ r ↔ phase t = .asleep op) :
    Woken phase (awake phase (w.map Prod.fst)) w r := by
  have hw : ∀ t op, (t, op) ∈ w → awake phase (w.map Prod.fst) t = .woken op := by
    intro t op ht
    have hm : t ∈ w.map Prod.fst := List.mem_map.mpr ⟨_, ht, rfl⟩
    have ha := (hq t op).mp (List.mem_append_left _ ht)
    simp only [awake, hm, ↓reduceIte, ha, Phase.awake]
  have hr : ∀ t, (∀ op, (t, op) ∉ w) → awake phase (w.map Prod.fst) t = phase t := by
    intro t ht
    have hm : t ∉ w.map Prod.fst := by
      intro hm
      obtain ⟨⟨u, op⟩, he, rfl⟩ := List.mem_map.mp hm
      exact ht op he
    simp only [awake, hm, ↓reduceIte]
  rw [List.map_append, List.nodup_append] at hn
  have hdisj : ∀ t op o, (t, op) ∈ w → (t, o) ∉ r := fun t op o h1 h2 =>
    hn.2.2 t (List.mem_map.mpr ⟨_, h1, rfl⟩) t (List.mem_map.mpr ⟨_, h2, rfl⟩) rfl
  refine ⟨?_, ?_, ?_⟩ <;> intro t op <;> by_cases ht : ∃ o, (t, o) ∈ w
  · obtain ⟨o, ho⟩ := ht
    simp [hw t o ho, hdisj t o op ho]
  · push Not at ht
    rw [hr t ht, ← hq, List.mem_append]
    simp [ht op]
  · obtain ⟨o, ho⟩ := ht
    have ha := (hq t o).mp (List.mem_append_left _ ho)
    rw [hw t o ho]
    constructor
    · intro he
      cases he
      exact Or.inr ho
    · rintro (he | he)
      · simp [ha] at he
      · have hb := (hq t op).mp (List.mem_append_left _ he)
        rw [ha] at hb
        cases hb
        rfl
  · push Not at ht
    simp [hr t ht, ht op]
  · obtain ⟨o, ho⟩ := ht
    have ha := (hq t o).mp (List.mem_append_left _ ho)
    simp [hw t o ho, ha]
  · push Not at ht
    rw [hr t ht]

theorem inv_acquire_read {s : State T} (h : Inv s) {t : T}
    (ht : s.phase t = .out ∨ s.phase t = .woken .read) (hw : ∀ u, ¬ Granted s u .write) :
    Inv (acquire s t .read) := by
  obtain ⟨q, hq⟩ := h.queued
  have hne : ∀ op, s.phase t ≠ .asleep op := by rcases ht with ht | ht <;> simp [ht]
  have hh : ∀ op, s.phase t ≠ .holds op := by rcases ht with ht | ht <;> simp [ht]
  let mid := Function.update s.phase t (.holds .read)
  have hmid : ∀ u op, (u, op) ∈ q ↔ mid u = .asleep op := by
    intro u op
    rw [hq.asleep]
    by_cases hu : u = t
    · subst hu
      simp [mid, hne]
    · simp [mid, hu]
  let w := q.takeWhile fun e => e.2 = .read
  let r := q.dropWhile fun e => e.2 = .read
  have hqr : w ++ r = q := List.takeWhile_append_dropWhile
  have hwr : ∀ u op, (u, op) ∈ w → op = .read := by
    intro u op hm
    simpa using List.mem_takeWhile_imp hm
  have hk := awake_woken (hqr.symm ▸ hq.nodup) (hqr.symm ▸ hmid)
  have hacq : acquire s t .read =
      ⟨⟨r.map Prod.fst, r.map Prod.snd, s.lock.readers + 1, .read⟩,
        awake mid (w.map Prod.fst)⟩ := by
    simp only [acquire, krwlockReadEnd, hq.procq, hq.opq, wakeReaders_zip]
    rfl
  have hholds : ∀ u op, (acquire s t .read).phase u = .holds op ↔
      (u = t ∧ op = .read) ∨ s.phase u = .holds op := by
    intro u op
    rw [hacq, hk.holds]
    by_cases hu : u = t
    · subst hu
      simp [mid, hh, eq_comm]
    · simp [mid, hu]
  have hwoken : ∀ u op, (acquire s t .read).phase u = .woken op →
      s.phase u = .woken op ∨ op = .read := by
    intro u op he
    rw [hacq, hk.woken] at he
    rcases he with he | he
    · by_cases hu : u = t
      · simp [mid, hu] at he
      · exact Or.inl (by simpa [mid, hu] using he)
    · exact Or.inr (hwr u op he)
  have hgw : ∀ u, ¬ Granted (acquire s t .read) u .write := by
    rintro u (he | he)
    · rcases hwoken u _ he with he | he
      · exact hw u (Or.inl he)
      · exact absurd he (by simp)
    · rcases (hholds u _).mp he with ⟨_, he⟩ | he
      · exact absurd he (by simp)
      · exact hw u (Or.inr he)
  have hop : (acquire s t .read).lock.operation = .read := by rw [hacq]
  refine ⟨⟨r, ?_, ?_, ?_, ?_⟩, ?_, ?_, ?_, ?_, ?_⟩
  · rw [hacq]
  · rw [hacq]
  · exact ((List.dropWhile_sublist _).map Prod.fst).nodup hq.nodup
  · rw [hacq]
    exact hk.asleep
  · intro u
    cases hu : (acquire s t .read).phase u with
    | out => trivial
    | asleep op =>
      rw [hacq, ← hk.asleep] at hu
      have hm := (hq.asleep u op).mp ((List.dropWhile_sublist _).mem hu)
      have hp := h.proper u
      rw [hm] at hp
      exact hp
    | woken op =>
      rcases hwoken u op hu with he | he
      · have hp := h.proper u
        rw [he] at hp
        exact hp
      · simp [Phase.Proper, he]
    | holds op =>
      rcases (hholds u op).mp hu with ⟨_, he⟩ | he
      · simp [Phase.Proper, he]
      · have hp := h.proper u
        rw [he] at hp
        exact hp
  · intro u v op hu
    exact absurd hu (hgw u)
  · have hset : (Finset.univ.filter fun u => (acquire s t .read).phase u = .holds .read) =
        insert t (Finset.univ.filter fun u => s.phase u = .holds .read) := by
      ext u
      simp [hholds]
    rw [hset, Finset.card_insert_of_notMem (by simp [hh]), ← h.readers, hacq]
  · rw [hop]
    exact iff_of_true rfl ⟨t, (hholds t _).mpr (Or.inl ⟨rfl, rfl⟩)⟩
  · rw [hop]
    exact iff_of_false (by simp) fun ⟨u, hu⟩ => hgw u (Or.inr hu)

theorem inv_acquire_write {s : State T} (h : Inv s) {t : T}
    (ht : s.phase t = .out ∨ s.phase t = .woken .write) (hw : ∀ u op, Granted s u op → u = t) :
    Inv (acquire s t .write) := by
  obtain ⟨q, hq⟩ := h.queued
  have hne : ∀ op, s.phase t ≠ .asleep op := by rcases ht with ht | ht <;> simp [ht]
  have hh : ∀ op, s.phase t ≠ .holds op := by rcases ht with ht | ht <;> simp [ht]
  have hnh : ∀ u op, s.phase u ≠ .holds op := by
    intro u op hu
    have := hw u op (Or.inr hu)
    exact hh op (this ▸ hu)
  have hph : ∀ u, u ≠ t → (acquire s t .write).phase u = s.phase u := by
    intro u hu
    simp [acquire, hu]
  have hpt : (acquire s t .write).phase t = .holds .write := by simp [acquire]
  have hholds : ∀ u op, (acquire s t .write).phase u = .holds op ↔ u = t ∧ op = .write := by
    intro u op
    by_cases hu : u = t
    · subst hu
      simp [hpt, eq_comm]
    · simp [hph u hu, hu, hnh]
  refine ⟨⟨q, hq.procq, hq.opq, hq.nodup, ?_⟩, ?_, ?_, ?_, ?_, ?_⟩
  · intro u op
    rw [hq.asleep]
    by_cases hu : u = t
    · subst hu
      simp [hpt, hne]
    · rw [hph u hu]
  · intro u
    by_cases hu : u = t
    · subst hu
      simp [hpt, Phase.Proper]
    · rw [hph u hu]
      exact h.proper u
  · have hone : ∀ v op, Granted (acquire s t .write) v op → v = t := by
      intro v op hv
      by_contra hne'
      rw [Granted, hph v hne'] at hv
      exact hne' (hw v op hv)
    intro u v op hu hv
    rw [hone u _ hu, hone v _ hv]
  · simp only [hholds]
    simp [acquire, krwlockWriteEnd, h.readers, hnh]
  · simp only [hholds]
    simp [acquire, krwlockWriteEnd]
  · simp only [hholds]
    simp [acquire, krwlockWriteEnd]

theorem inv_free {s : State T} (h : Inv s) {t : T} {op : Operation} (ht : s.phase t = .holds op)
    (hone : ∀ u o, s.phase u = .holds o → u = t)
    (hwait : s.lock.opq.head? = some .write → ∀ u o, Granted s u o → u = t) :
    Inv ⟨(free { s.lock with readers := 0 }).1,
      awake (Function.update s.phase t .out) (free { s.lock with readers := 0 }).2⟩ := by
  obtain ⟨q, hq⟩ := h.queued
  let mid := Function.update s.phase t .out
  have hmid : ∀ u o, (u, o) ∈ q ↔ mid u = .asleep o := by
    intro u o
    rw [hq.asleep]
    by_cases hu : u = t
    · subst hu
      simp [mid, ht]
    · simp [mid, hu]
  have hwr : q.take 1 ++ q.tail = q := by cases q <;> simp
  have hk := awake_woken (hwr.symm ▸ hq.nodup) (hwr.symm ▸ hmid)
  have hfree : free { s.lock with readers := 0 } =
      (⟨q.tail.map Prod.fst, q.tail.map Prod.snd, 0, .none⟩, (q.take 1).map Prod.fst) := by
    cases q <;> simp [free, hq.procq, hq.opq]
  rw [hfree]
  change Inv ⟨⟨q.tail.map Prod.fst, q.tail.map Prod.snd, 0, .none⟩,
    awake mid ((q.take 1).map Prod.fst)⟩
  generalize awake mid ((q.take 1).map Prod.fst) = phase' at hk ⊢
  have hholds : ∀ u o, phase' u ≠ .holds o := by
    intro u o hu
    rw [hk.holds] at hu
    by_cases hut : u = t
    · simp [mid, hut] at hu
    · exact hut (hone u o (by simpa [mid, hut] using hu))
  have hwoken : ∀ u o, phase' u = .woken o →
      (u ≠ t ∧ s.phase u = .woken o) ∨ (u, o) ∈ q.take 1 := by
    intro u o hu
    rw [hk.woken] at hu
    rcases hu with hu | hu
    · by_cases hut : u = t
      · simp [mid, hut] at hu
      · exact Or.inl ⟨hut, by simpa [mid, hut] using hu⟩
    · exact Or.inr hu
  refine ⟨⟨q.tail, rfl, rfl, ((List.tail_sublist q).map Prod.fst).nodup hq.nodup, hk.asleep⟩,
    ?_, ?_, ?_, ?_, ?_⟩
  · intro u
    have hp := h.proper u
    cases hu : phase' u with
    | out => simp [hu, Phase.Proper]
    | asleep o =>
      rw [(hq.asleep u o).mp ((List.tail_sublist q).mem ((hk.asleep u o).mpr hu))] at hp
      simpa [hu, Phase.Proper] using hp
    | woken o =>
      rcases hwoken u o hu with ⟨_, he⟩ | he
      · rw [he] at hp
        simpa [hu, Phase.Proper] using hp
      · rw [(hq.asleep u o).mp ((List.take_sublist 1 q).mem he)] at hp
        simpa [hu, Phase.Proper] using hp
    | holds o => exact absurd hu (hholds u o)
  · -- a woken writer can only be the head of the queue; nobody else is then granted
    intro u v o hu hv
    have hu' := hu.resolve_right (hholds u _)
    have hv' := hv.resolve_right (hholds v _)
    rcases hwoken u _ hu' with ⟨hut, he⟩ | he
    · exact absurd (h.alone u t op (Or.inl he) (Or.inr ht)).symm hut
    · have hhead : s.lock.opq.head? = some .write := by
        cases q with
        | nil => simp at he
        | cons e q =>
          obtain rfl : e = (u, .write) := by simpa [eq_comm] using he
          simp [hq.opq]
      rcases hwoken v _ hv' with ⟨hvt, hw⟩ | hw
      · exact absurd (hwait hhead v o (Or.inl hw)) hvt
      · cases q with
        | nil => simp at he
        | cons e q =>
          simp only [List.take_succ_cons, List.take_zero, List.mem_singleton] at he hw
          exact congrArg Prod.fst (hw.trans he.symm)
  · simp [hholds]
  · simp [hholds]
  · simp [hholds]

theorem inv_release {s : State T} (h : Inv s) {t : T} {op : Operation}
    (ht : s.phase t = .holds op) (hg : Waits s (.release t)) :
    Inv ⟨(krwlockRelease s.lock).1,
      awake (Function.update s.phase t .out) (krwlockRelease s.lock).2⟩ := by
  have hp := h.proper t
  rw [ht] at hp
  cases op with
  | none => exact absurd rfl hp
  | write =>
    have hone : ∀ u o, Granted s u o → u = t := fun u o hu => h.alone t u o (Or.inr ht) hu
    have hr : s.lock.readers = 0 := by
      rw [h.readers, Finset.card_eq_zero, Finset.filter_eq_empty_iff]
      intro u _ hu
      have := hone u _ (Or.inr hu)
      subst this
      simp [ht] at hu
    have hl : { s.lock with readers := 0 } = s.lock := by rw [← hr]
    have hf := inv_free h ht (fun u o hu => hone u o (Or.inr hu)) (fun _ => hone)
    rw [hl] at hf
    simpa only [krwlockRelease, hr, ↓reduceIte] using hf
  | read =>
    have hnw : ∀ u, ¬ Granted s u .write := by
      intro u hu
      have he := h.alone u t _ hu (Or.inr ht)
      subst he
      simp [Granted, ht] at hu
    have hmem : t ∈ Finset.univ.filter fun u => s.phase u = .holds .read := by simp [ht]
    have hpos : s.lock.readers ≠ 0 := by
      rw [h.readers]
      exact Finset.card_ne_zero_of_mem hmem
    have hread : ∀ u o, s.phase u = .holds o → s.phase u = .holds .read := by
      intro u o hu
      have hpu := h.proper u
      rw [hu] at hpu
      cases o with
      | none => exact absurd rfl hpu
      | read => exact hu
      | write => exact absurd (Or.inr hu) (hnw u)
    by_cases hlast : s.lock.readers - 1 = 0
    · have hcard : s.lock.readers = 1 := by omega
      have hone : ∀ u o, s.phase u = .holds o → u = t := by
        intro u o hu
        rw [h.readers] at hcard
        obtain ⟨v, hv⟩ := Finset.card_eq_one.mp hcard
        have hu' : u ∈ Finset.univ.filter fun u => s.phase u = .holds .read := by
          simp [hread u o hu]
        rw [hv, Finset.mem_singleton] at hu' hmem
        rw [hu', hmem]
      have hf := inv_free h ht hone (fun hw u o hu => ?_)
      · simpa only [krwlockRelease, hpos, hlast, ↓reduceIte] using hf
      · rcases hu with hu | hu
        · have hpu := h.proper u
          rw [hu] at hpu
          cases o with
          | none => exact absurd rfl hpu
          | read => exact absurd hu (hg hcard hw u)
          | write => exact absurd (Or.inl hu) (hnw u)
        · exact hone u o hu
    · have hrel : krwlockRelease s.lock = ({ s.lock with readers := s.lock.readers - 1 }, []) := by
        simp only [krwlockRelease, hpos, hlast, ↓reduceIte]
      have haw : awake (Function.update s.phase t .out) [] = Function.update s.phase t .out := by
        funext u
        simp [awake]
      rw [hrel, haw]
      obtain ⟨q, hq⟩ := h.queued
      have hph : ∀ u ph, ph ≠ .out →
          (Function.update s.phase t .out u = ph ↔ u ≠ t ∧ s.phase u = ph) := by
        intro u ph hne
        by_cases hu : u = t
        · subst hu
          simp [hne.symm]
        · simp [hu]
      refine ⟨⟨q, hq.procq, hq.opq, hq.nodup, ?_⟩, ?_, ?_, ?_, ?_, ?_⟩
      · intro u o
        rw [hq.asleep, hph _ _ (by simp), iff_and_self]
        rintro hu rfl
        simp [ht] at hu
      · intro u
        by_cases hu : u = t
        · simp [hu, Phase.Proper]
        · simpa [hu] using h.proper u
      · intro u v o hu
        simp only [Granted] at hu
        rw [hph _ _ (by simp), hph _ _ (by simp), ← and_or_left] at hu
        exact absurd hu.2 (hnw u)
      · have hset : (Finset.univ.filter fun u =>
            Function.update s.phase t Phase.out u = .holds .read) =
            (Finset.univ.filter fun u => s.phase u = .holds .read).erase t := by
          ext u
          simp [hph]
        rw [hset, Finset.card_erase_of_mem hmem, ← h.readers]
      · rw [h.reading]
        refine iff_of_true ⟨t, ht⟩ ?_
        have hlt : 1 < (Finset.univ.filter fun u => s.phase u = .holds .read).card := by
          rw [← h.readers]
          omega
        obtain ⟨u, hu, hut⟩ := Finset.exists_mem_ne hlt t
        exact ⟨u, (hph _ _ (by simp)).mpr ⟨hut, (Finset.mem_filter.mp hu).2⟩⟩
      · rw [h.writing]
        refine iff_of_false ?_ ?_
        · rintro ⟨u, hu⟩
          exact hnw u (Or.inr hu)
        · rintro ⟨u, hu⟩
          exact hnw u (Or.inr ((hph _ _ (by simp)).mp hu).2)

theorem Inv.free_iff {s : State T} (h : Inv s) :
    s.lock.operation = .none ↔ ∀ u op, s.phase u ≠ .holds op := by
  constructor
  · intro hn u op hu
    have hp := h.proper u
    rw [hu] at hp
    cases op with
    | none => exact hp rfl
    | read => simp [h.reading.mpr ⟨u, hu⟩] at hn
    | write => simp [h.writing.mpr ⟨u, hu⟩] at hn
  · intro hn
    cases ho : s.lock.operation with
    | none => rfl
    | read =>
      obtain ⟨u, hu⟩ := h.reading.mp ho
      exact absurd hu (hn u _)
    | write =>
      obtain ⟨u, hu⟩ := h.writing.mp ho
      exact absurd hu (hn u _)

theorem inv_step (s : State T) (a : Action T) (s' : State T) (h : Inv s) (hg : Waits s a)
    (hs : step s a = some s') : Inv s' := by
  cases a with
  | read t =>
    simp only [step, Option.ite_none_right_eq_some, Option.some.injEq] at hs
    obtain ⟨ht, rfl⟩ := hs
    by_cases hb : readBlocked s.lock = true
    · rw [if_pos hb]
      exact inv_block h ht (by simp)
    · rw [if_neg hb]
      simp only [readBlocked, Bool.or_eq_true, Bool.and_eq_true, decide_eq_true_eq, not_or] at hb
      apply inv_acquire_read h (Or.inl ht)
      rintro u (hu | hu)
      · -- a writer is woken, so it is alone and the lock is marked free
        have hn : s.lock.operation = .none := h.free_iff.mpr fun v op hv => by
          have := h.alone u v op (Or.inl hu) (Or.inr hv)
          subst this
          simp [hu] at hv
        exact hg hn u hu
      · exact hb.1 (h.writing.mpr ⟨u, hu⟩)
  | write t =>
    simp only [step, Option.ite_none_right_eq_some, Option.some.injEq] at hs
    obtain ⟨ht, rfl⟩ := hs
    by_cases hb : writeBlocked s.lock = true
    · rw [if_pos hb]
      exact inv_block h ht (by simp)
    · rw [if_neg hb]
      simp only [writeBlocked, ne_eq, decide_not, Bool.not_eq_eq_eq_not, Bool.not_true,
        decide_eq_false_iff_not, not_not] at hb
      apply inv_acquire_write h (Or.inl ht)
      rintro u op (hu | hu)
      · exact absurd hu (hg hb u op)
      · exact absurd hu (h.free_iff.mp hb u op)
  | resume t =>
    simp only [step] at hs
    split at hs
    · rename_i op ht
      obtain rfl : acquire s t op = s' := by simpa using hs
      have hp := h.proper t
      rw [ht] at hp
      cases op with
      | none => exact absurd rfl hp
      | read =>
        apply inv_acquire_read h (Or.inr ht)
        intro u hu
        have := h.alone u t _ hu (Or.inl ht)
        subst this
        simp [Granted, ht] at hu
      | write => exact inv_acquire_write h (Or.inr ht) (fun u op hu => h.alone t u op (Or.inl ht) hu)
    · simp at hs
  | release t =>
    simp only [step] at hs
    split at hs
    · rename_i op ht
      obtain rfl := Option.some.inj hs
      exact inv_release h ht hg
    · simp at hs

/-- In every run in which no call overtakes a woken task, the lock excludes. -/
theorem exclusive_of_waits (as : List (Action T)) (hg : Meets step Waits init as) (s : State T)
    (hs : exec step init as = some s) : Exclusive s :=
  exclusive_of_inv (exec_invariant inv_step inv_init hg hs)

theorem exclusive_handover : ∃ s : State (Fin 2),
    exec step init [.write 0, .write 1, .release 0, .resume 1] = some s ∧ Exclusive s := by
  refine ⟨_, rfl, exclusive_of_waits [.write 0, .write 1, .release 0, .resume 1] ?_ _ rfl⟩
  refine meets_cons (fun _ u op => ?_) rfl (meets_cons ?_ rfl
    (meets_cons ?_ rfl (meets_cons trivial rfl trivial)))
  · simp [init]
  · intro h
    simp [acquire, krwlockWriteEnd, krwlockInit, init, writeBlocked] at h
  · intro h
    simp [acquire, krwlockWriteEnd, krwlockInit, init, writeBlocked, block, enqueue] at h

/-- Task 2 takes the lock that task 0 has just freed, and the woken task 1 takes it too. -/
theorem barging_writer : ¬ ∀ (as : List (Action (Fin 3))) (s : State (Fin 3)),
    exec step init as = some s → Exclusive s := by
  intro h
  have he := h [.write 0, .write 1, .release 0, .write 2, .resume 1] _ rfl 1 2 .write rfl rfl
  exact absurd he (by decide)

omit [Fintype T] in
theorem acquire_self (s : State T) (t : T) (op : Operation) :
    (acquire s t op).phase t = .holds op := by
  cases op <;> simp [acquire, awake, Phase.awake]

omit [Fintype T] in
theorem acquire_other {s : State T} {t u : T} (op : Operation) (hu : u ≠ t)
    (ha : (s.phase u).awake = s.phase u) : (acquire s t op).phase u = s.phase u := by
  cases op <;> simp [acquire, awake, hu, ha]

omit [Fintype T] in
theorem resume_breaks {s : State T} {t u : T} {op o : Operation} (ht : s.phase t = .holds op)
    (hu : s.phase u = .woken o) (hw : op = .write ∨ o = .write) :
    ∃ s', step s (.resume u) = some s' ∧ ¬ Exclusive s' := by
  have hne : t ≠ u := by
    rintro rfl
    simp [ht] at hu
  refine ⟨acquire s u o, by simp [step, hu], fun he => ?_⟩
  have hu' := acquire_self s u o
  have ht' : (acquire s u o).phase t = .holds op := by
    rw [acquire_other o hne (by simp [ht, Phase.awake]), ht]
  rcases hw with rfl | rfl
  · exact hne (he t u o ht' hu').symm
  · exact hne (he u t op hu' ht')

/-- The condition is exact: after a call that overtakes, the woken tasks only have to resume. -/
theorem overtaking_breaks {s s' : State T} {a : Action T} (h : Inv s) (hs : step s a = some s')
    (hg : ¬ Waits s a) :
    ∃ as s'', (∀ b ∈ as, ∃ t, b = .resume t) ∧ exec step s' as = some s'' ∧ ¬ Exclusive s'' := by
  cases a with
  | read t =>
    simp only [Waits, not_forall, not_not] at hg
    obtain ⟨hn, u, hu⟩ := hg
    simp only [step, Option.ite_none_right_eq_some, readBlocked, hn, Option.some.injEq] at hs
    obtain ⟨ht, rfl⟩ := hs
    have hne : u ≠ t := by
      rintro rfl
      simp [ht] at hu
    have hu' : (acquire s t .read).phase u = .woken .write := by
      rw [acquire_other _ hne (by simp [hu, Phase.awake]), hu]
    obtain ⟨s'', hs'', hx⟩ := resume_breaks (acquire_self s t .read) hu' (Or.inr rfl)
    exact ⟨[.resume u], s'', by simp, by simpa [exec] using hs'', hx⟩
  | write t =>
    simp only [Waits, not_forall, not_not] at hg
    obtain ⟨hn, u, op, hu⟩ := hg
    simp only [step, Option.ite_none_right_eq_some, writeBlocked, hn, Option.some.injEq] at hs
    obtain ⟨ht, rfl⟩ := hs
    have hne : u ≠ t := by
      rintro rfl
      simp [ht] at hu
    have hu' : (acquire s t .write).phase u = .woken op := by
      rw [acquire_other _ hne (by simp [hu, Phase.awake]), hu]
    obtain ⟨s'', hs'', hx⟩ := resume_breaks (acquire_self s t .write) hu' (Or.inl rfl)
    exact ⟨[.resume u], s'', by simp, by simpa [exec] using hs'', hx⟩
  | resume t => exact absurd trivial hg
  | release t =>
    simp only [Waits, not_forall, not_not] at hg
    obtain ⟨hr, hw, u, hu⟩ := hg
    obtain ⟨q, hq⟩ := h.queued
    obtain ⟨p, q, rfl⟩ : ∃ p q', q = (p, .write) :: q' := by
      cases q with
      | nil => simp [hq.opq] at hw
      | cons e q =>
        have he : e.2 = .write := by simpa [hq.opq] using hw
        exact ⟨e.1, q, by rw [← he]⟩
    have hp : s.phase p = .asleep .write := (hq.asleep p _).mp (by simp)
    simp only [step] at hs
    split at hs
    · rename_i op ht
      have hpt : p ≠ t := by
        rintro rfl
        simp [ht] at hp
      have hut : u ≠ t := by
        rintro rfl
        simp [ht] at hu
      have hup : u ≠ p := by
        rintro rfl
        simp [hp] at hu
      have hwake : (krwlockRelease s.lock).2 = [p] := by
        simp [krwlockRelease, hr, free, hq.procq]
      rw [hwake] at hs
      obtain rfl := Option.some.inj hs
      -- the woken writer resumes first, then the reader that was woken before it
      have hp' : (awake (Function.update s.phase t .out) [p]) p = .woken .write := by
        simp [awake, hpt, hp, Phase.awake]
      have hu' : (awake (Function.update s.phase t .out) [p]) u = .woken .read := by
        simp [awake, hup, hut, hu]
      let mid : State T := ⟨(krwlockRelease s.lock).1, awake (Function.update s.phase t .out) [p]⟩
      have hmid : step mid (.resume p) = some (acquire mid p .write) := by simp [step, mid, hp']
      have hu'' : (acquire mid p .write).phase u = .woken .read := by
        rw [acquire_other _ hup (by simp [mid, hu', Phase.awake])]
        exact hu'
      obtain ⟨s'', hs'', hx⟩ := resume_breaks (acquire_self mid p .write) hu'' (Or.inl rfl)
      refine ⟨[.resume p, .resume u], s'', by simp, ?_, hx⟩
      rw [exec_cons]
      exact ⟨_, hmid, by simpa [exec] using hs''⟩
    · simp at hs

end Preserve

end Eedox.ReaderWriterLock
