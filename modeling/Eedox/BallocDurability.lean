import Eedox.ReaderWriterLock
import Eedox.Semaphore
import Mathlib.Algebra.Group.Nat.Defs

namespace Eedox.BallocDurability

open Library.Runs Semaphore ReaderWriterLock

abbrev Range := ℕ × ℕ

inductive Phase
  | out
  | lockAsleep (r : Option Range)
  | lockWoken (r : Option Range)
  | diskAsleep (r : Option Range) (v : ℕ)
  | diskWoken (r : Option Range) (v : ℕ)
  | writing (r : Option Range) (v : ℕ)
  | written (r : Option Range)

/-- `sector0` is the pointer on the disk; `returned` are the ranges of the calls that have returned, over
all restarts. -/
structure State where
  lock : Krwlock ℕ
  sem : Ksemaphore ℕ
  ballocPtr : ℕ
  sector0 : ℕ
  ready : Bool
  phase : ℕ → Phase
  returned : List Range

inductive Action
  | balloc (t size : ℕ)
  | resume (t : ℕ)
  | write (t : ℕ)
  | finish (t : ℕ)
  | crash

def fsStartSector : ℕ := 2

def bootTask : ℕ := 1

def updateLocked (s : State) (t : ℕ) (r : Option Range) : State :=
  let v := s.ballocPtr
  let entered := { s with lock := krwlockWriteEnd s.lock, sem := ksemaphoreWait s.sem t }
  if mustSleep s.sem then { entered with phase := Function.update s.phase t (.diskAsleep r v) }
  else { entered with phase := Function.update s.phase t (.writing r v) }

def ballocUpdate (s : State) (t : ℕ) (r : Option Range) : State :=
  if writeBlocked s.lock then
    { s with lock := enqueue s.lock t .write, phase := Function.update s.phase t (.lockAsleep r) }
  else updateLocked s t r

def ballocFetch (s : State) (t : ℕ) : State :=
  { s with lock := (krwlockRelease (krwlockReadEnd s.lock).1).1
           sem := (ksemaphoreSignal (ksemaphoreWait s.sem t)).1
           ballocPtr := s.sector0 }

def binit (s : State) : State :=
  let s := ballocFetch s bootTask
  if s.ballocPtr = 0 then
    ballocUpdate { s with ballocPtr := fsStartSector, ready := false } bootTask none
  else { s with ready := true }

/-- A restart: what was in memory is lost, and `fs_init` runs. -/
def restart (sector0 : ℕ) (returned : List Range) : State :=
  binit ⟨krwlockInit, ksemaphoreInit 1, 0, sector0, false, fun _ => .out, returned⟩

def init (sector0 : ℕ) : State := restart sector0 []

def balloc (s : State) (t size : ℕ) : State :=
  let ptr := s.ballocPtr
  ballocUpdate { s with ballocPtr := (ptr + size) % 2 ^ 32 } t (some (ptr, size))

def Phase.awake : Phase → Phase
  | .lockAsleep r => .lockWoken r
  | ph => ph

def Phase.pop : Phase → Phase
  | .diskAsleep r v => .diskWoken r v
  | ph => ph

def finish (s : State) (t : ℕ) (r : Option Range) : State :=
  let signal := ksemaphoreSignal s.sem
  let release := krwlockRelease s.lock
  let left := Function.update s.phase t .out
  { s with
    sem := signal.1
    lock := release.1
    phase := fun u =>
      let ph := if signal.2 = some u then (left u).pop else left u
      if u ∈ release.2 then ph.awake else ph
    ready := s.ready || r.isNone
    returned := s.returned ++ r.toList }

def step (s : State) : Action → Option State
  | .balloc t size =>
    match s.phase t with
    | .out => if s.ready then some (balloc s t size) else none
    | _ => none
  | .resume t =>
    match s.phase t with
    | .lockWoken r => some (updateLocked s t r)
    | .diskWoken r v => some { s with phase := Function.update s.phase t (.writing r v) }
    | _ => none
  | .write t =>
    match s.phase t with
    | .writing r v => some { s with sector0 := v, phase := Function.update s.phase t (.written r) }
    | _ => none
  | .finish t =>
    match s.phase t with
    | .written r => some (finish s t r)
    | _ => none
  | .crash => some (restart s.sector0 s.returned)

def NoWrap (s : State) : Action → Prop
  | .balloc _ size => s.ballocPtr + size < 2 ^ 32
  | _ => True

def Apart (r r' : Range) : Prop := r.1 + r.2 ≤ r'.1 ∨ r'.1 + r'.2 ≤ r.1

/-- The returned ranges are disjoint, and a restart at this point does not go back behind any of them. -/
structure Durable (s : State) : Prop where
  disjoint : s.returned.Pairwise Apart
  covered : ∀ r ∈ s.returned, r.1 + r.2 ≤ (restart s.sector0 s.returned).ballocPtr

def Phase.waiting : Phase → Bool
  | .diskAsleep _ _ => true
  | _ => false

def Phase.inside : Phase → Bool
  | .diskWoken _ _ | .writing _ _ | .written _ => true
  | _ => false

/-- The pointer that is still to be written. -/
def Phase.value : Phase → Option ℕ
  | .diskAsleep _ v | .diskWoken _ v | .writing _ v => some v
  | _ => none

def Phase.range : Phase → Option Range
  | .out => none
  | .lockAsleep r | .lockWoken r | .diskAsleep r _ | .diskWoken r _ | .writing r _ | .written r => r

/-- What is known to lie beyond the range of a call: the pointer in memory, in its buffer, on disk. -/
def Phase.bound (ballocPtr sector0 : ℕ) : Phase → ℕ
  | .out | .lockAsleep _ | .lockWoken _ => ballocPtr
  | .diskAsleep _ v | .diskWoken _ v | .writing _ v => v
  | .written _ => sector0

def Locked (sem : Ksemaphore ℕ) (phase : ℕ → Phase) (holder : Option ℕ) : Prop :=
  Exclusive sem (fun t => (phase t).waiting = true) (fun t => (phase t).inside = true) holder

/-- The pointers on their way to the disk grow along the queue, and every range lies below what its call
has to write. -/
structure Ordered (sq : List ℕ) (ballocPtr sector0 : ℕ) (phase : ℕ → Phase) (returned : List Range) :
    Prop where
  stored : sector0 ≤ ballocPtr
  pending : ∀ t v, (phase t).value = some v → sector0 ≤ v ∧ v ≤ ballocPtr
  queue : sq.Pairwise fun t u => ∀ v w, (phase t).value = some v → (phase u).value = some w → v ≤ w
  front : ∀ t v u w, (phase t).inside = true → (phase t).value = some v → u ∈ sq →
    (phase u).value = some w → v ≤ w
  covered : ∀ t r, (phase t).range = some r → r.1 + r.2 ≤ (phase t).bound ballocPtr sector0
  below : ∀ r ∈ returned, r.1 + r.2 ≤ sector0
  apart : ∀ t u r r', t ≠ u → (phase t).range = some r → (phase u).range = some r' → Apart r r'
  fresh : ∀ t r, (phase t).range = some r → ∀ r' ∈ returned, Apart r r'
  disjoint : returned.Pairwise Apart

def Inv (s : State) : Prop := Ordered s.sem.sq s.ballocPtr s.sector0 s.phase s.returned ∧
  ∃ holder, Locked s.sem s.phase holder

structure Alike (ph ph' : Phase) : Prop where
  waiting : ph'.waiting = ph.waiting
  inside : ph'.inside = ph.inside
  value : ph'.value = ph.value
  range : ph'.range = ph.range
  bound : ∀ p q, ph'.bound p q = ph.bound p q

theorem Alike.refl (ph : Phase) : Alike ph ph := ⟨rfl, rfl, rfl, rfl, fun _ _ => rfl⟩

theorem alike_awake (ph : Phase) : Alike ph ph.awake := by
  cases ph <;> exact ⟨rfl, rfl, rfl, rfl, fun _ _ => rfl⟩

theorem bound_mono {p p' q q' : ℕ} (hp : p ≤ p') (hq : q ≤ q') (ph : Phase) :
    ph.bound p q ≤ ph.bound p' q' := by
  cases ph with
  | out => exact hp
  | lockAsleep r => exact hp
  | lockWoken r => exact hp
  | diskAsleep r v => exact le_rfl
  | diskWoken r v => exact le_rfl
  | writing r v => exact le_rfl
  | written r => exact hq

theorem waiting_or_inside {ph : Phase} {v : ℕ} (h : ph.value = some v) :
    ph.waiting = true ∨ ph.inside = true := by
  cases ph <;> simp_all [Phase.value, Phase.waiting, Phase.inside]

section Order

variable {sem : Ksemaphore ℕ} {sq : List ℕ} {ballocPtr sector0 : ℕ} {phase phase' : ℕ → Phase}
  {returned : List Range} {t : ℕ} {r : Option Range} {holder : Option ℕ}

theorem Ordered.alike (h : Ordered sq ballocPtr sector0 phase returned)
    (hp : ∀ t, Alike (phase t) (phase' t)) : Ordered sq ballocPtr sector0 phase' returned := by
  refine ⟨h.stored, ?_, ?_, ?_, ?_, h.below, ?_, ?_, h.disjoint⟩
  · simpa only [(hp _).value] using h.pending
  · simpa only [(hp _).value] using h.queue
  · simpa only [(hp _).value, (hp _).inside] using h.front
  · simpa only [(hp _).range, (hp _).bound] using h.covered
  · simpa only [(hp _).range] using h.apart
  · simpa only [(hp _).range] using h.fresh

theorem Ordered.range_le (h : Ordered sq ballocPtr sector0 phase returned) {x : Range}
    (ht : (phase t).range = some x) : x.1 + x.2 ≤ ballocPtr := by
  refine (h.covered t x ht).trans ?_
  have hp := h.pending t
  cases hph : phase t with
  | out => exact le_rfl
  | lockAsleep r => exact le_rfl
  | lockWoken r => exact le_rfl
  | diskAsleep r v => exact (hp v (by rw [hph, Phase.value])).2
  | diskWoken r v => exact (hp v (by rw [hph, Phase.value])).2
  | writing r v => exact (hp v (by rw [hph, Phase.value])).2
  | written r => exact h.stored

theorem Ordered.take (h : Ordered sq ballocPtr sector0 phase returned) (ht : phase t = .out)
    (size : ℕ) : Ordered sq (ballocPtr + size) sector0
      (Function.update phase t (.lockWoken (some (ballocPtr, size)))) returned := by
  have hself := Function.update_self t (Phase.lockWoken (some (ballocPtr, size))) phase
  have hother : ∀ u, u ≠ t → Function.update phase t (.lockWoken (some (ballocPtr, size))) u = phase u :=
    fun u hu => Function.update_of_ne hu _ _
  generalize Function.update phase t (.lockWoken (some (ballocPtr, size))) = phase' at hself hother ⊢
  have hvalue : ∀ u, (phase' u).value = (phase u).value := by
    intro u
    by_cases hu : u = t
    · subst hu
      rw [hself, ht]
      rfl
    · rw [hother u hu]
  have hin : ∀ u, (phase' u).inside = (phase u).inside := by
    intro u
    by_cases hu : u = t
    · subst hu
      rw [hself, ht]
      rfl
    · rw [hother u hu]
  have hrange : ∀ u x, (phase' u).range = some x →
      u = t ∧ x = (ballocPtr, size) ∨ u ≠ t ∧ (phase u).range = some x := by
    intro u x hx
    by_cases hu : u = t
    · subst hu
      rw [hself, Phase.range, Option.some.injEq] at hx
      exact Or.inl ⟨rfl, hx.symm⟩
    · rw [hother u hu] at hx
      exact Or.inr ⟨hu, hx⟩
  refine ⟨h.stored.trans (Nat.le_add_right _ _), fun u v hv => ?_, ?_, ?_, fun u x hx => ?_, h.below,
    fun u w x y hne hx hy => ?_, fun u x hx y hy => ?_, h.disjoint⟩
  · rw [hvalue] at hv
    exact ⟨(h.pending u v hv).1, (h.pending u v hv).2.trans (Nat.le_add_right _ _)⟩
  · simpa only [hvalue] using h.queue
  · simpa only [hvalue, hin] using h.front
  · rcases hrange u x hx with ⟨rfl, rfl⟩ | ⟨hu, hx⟩
    · rw [hself]
      exact le_rfl
    · rw [hother u hu]
      exact (h.covered u x hx).trans (bound_mono (Nat.le_add_right _ _) le_rfl _)
  · rcases hrange u x hx with ⟨rfl, rfl⟩ | ⟨hu, hx⟩
    · rcases hrange w y hy with ⟨rfl, -⟩ | ⟨-, hy⟩
      · exact absurd rfl hne
      · exact Or.inr (h.range_le hy)
    · rcases hrange w y hy with ⟨rfl, rfl⟩ | ⟨-, hy⟩
      · exact Or.inl (h.range_le hx)
      · exact h.apart u w x y hne hx hy
  · rcases hrange u x hx with ⟨rfl, rfl⟩ | ⟨hu, hx⟩
    · exact Or.inr ((h.below y hy).trans h.stored)
    · exact h.fresh u x hx y hy

theorem Ordered.buffer (h : Ordered sq ballocPtr sector0 phase returned) (ht : phase t = .lockWoken r)
    {ph : Phase} (hvalue : ph.value = some ballocPtr) (hrange : ph.range = r)
    (hbound : ∀ p q, ph.bound p q = ballocPtr) {sq' : List ℕ} (htq : t ∉ sq)
    (hsq : ph.inside = true ∧ sq = [] ∧ sq' = [] ∨ ph.inside = false ∧ sq' = sq ++ [t]) :
    Ordered sq' ballocPtr sector0 (Function.update phase t ph) returned := by
  have hself := Function.update_self t ph phase
  have hother : ∀ u, u ≠ t → Function.update phase t ph u = phase u := fun u hu =>
    Function.update_of_ne hu _ _
  generalize Function.update phase t ph = phase' at hself hother ⊢
  have hrange' : ∀ u, (phase' u).range = (phase u).range := by
    intro u
    by_cases hu : u = t
    · subst hu
      rw [hself, ht, hrange]
      rfl
    · rw [hother u hu]
  have hvalue' : ∀ u v, (phase' u).value = some v →
      u = t ∧ v = ballocPtr ∨ u ≠ t ∧ (phase u).value = some v := by
    intro u v hv
    by_cases hu : u = t
    · subst hu
      rw [hself, hvalue, Option.some.injEq] at hv
      exact Or.inl ⟨rfl, hv.symm⟩
    · rw [hother u hu] at hv
      exact Or.inr ⟨hu, hv⟩
  have hle : ∀ u v, (phase' u).value = some v → v ≤ ballocPtr := by
    intro u v hv
    rcases hvalue' u v hv with ⟨-, rfl⟩ | ⟨-, hv⟩
    · exact le_rfl
    · exact (h.pending u v hv).2
  have hmem : ∀ u v, u ∈ sq → (phase' u).value = some v → (phase u).value = some v := by
    intro u v hu hv
    rcases hvalue' u v hv with ⟨rfl, -⟩ | ⟨-, hv⟩
    · exact absurd hu htq
    · exact hv
  refine ⟨h.stored, fun u v hv => ⟨?_, hle u v hv⟩, ?_, fun u v w x hu hv hw hx => ?_, fun u x hx => ?_,
    h.below, ?_, ?_, h.disjoint⟩
  · rcases hvalue' u v hv with ⟨-, rfl⟩ | ⟨-, hv⟩
    · exact h.stored
    · exact (h.pending u v hv).1
  · rcases hsq with ⟨-, -, rfl⟩ | ⟨-, rfl⟩
    · exact List.Pairwise.nil
    · refine List.pairwise_append.mpr ⟨?_, List.pairwise_singleton _ _, fun a _ b hb v w hv hw => ?_⟩
      · exact h.queue.imp_of_mem fun ha hb hab v w hv hw => hab v w (hmem _ _ ha hv) (hmem _ _ hb hw)
      · rcases hvalue' b w hw with ⟨-, rfl⟩ | ⟨hbt, -⟩
        · exact hle a v hv
        · exact absurd (by simpa using hb) hbt
  · rcases hsq with ⟨-, -, rfl⟩ | ⟨hout, rfl⟩
    · cases hw
    · have hut : u ≠ t := by
        rintro rfl
        rw [hself, hout] at hu
        cases hu
      rcases hvalue' w x hx with ⟨-, rfl⟩ | ⟨hwt, hx⟩
      · exact hle u v hv
      · have hwq : w ∈ sq := by
          rcases List.mem_append.mp hw with hw | hw
          · exact hw
          · exact absurd (by simpa using hw) hwt
        rw [hother u hut] at hu hv
        exact h.front u v w x hu hv hwq hx
  · rw [hrange'] at hx
    by_cases hu : u = t
    · subst hu
      rw [hself, hbound]
      exact h.range_le hx
    · rw [hother u hu]
      exact h.covered u x hx
  · simpa only [hrange'] using h.apart
  · simpa only [hrange'] using h.fresh

theorem Ordered.write (h : Ordered sem.sq ballocPtr sector0 phase returned)
    (hl : Locked sem phase holder) {v : ℕ} (ht : phase t = .writing r v) :
    sector0 ≤ v ∧ Ordered sem.sq ballocPtr v (Function.update phase t (.written r)) returned := by
  have hself := Function.update_self t (Phase.written r) phase
  have hother : ∀ u, u ≠ t → Function.update phase t (.written r) u = phase u := fun u hu =>
    Function.update_of_ne hu _ _
  generalize Function.update phase t (.written r) = phase' at hself hother ⊢
  have hv : (phase t).value = some v := by rw [ht, Phase.value]
  have hin : (phase t).inside = true := by rw [ht, Phase.inside]
  obtain ⟨hlow, hhigh⟩ := h.pending t v hv
  have hrange : ∀ u, (phase' u).range = (phase u).range := by
    intro u
    by_cases hu : u = t
    · subst hu
      rw [hself, ht]
      rfl
    · rw [hother u hu]
  have hvalue : ∀ u w, (phase' u).value = some w → u ≠ t ∧ (phase u).value = some w := by
    intro u w hw
    by_cases hu : u = t
    · subst hu
      rw [hself] at hw
      cases hw
    · rw [hother u hu] at hw
      exact ⟨hu, hw⟩
  refine ⟨hlow, hhigh, fun u w hw => ?_, ?_, fun u w x y hu hw _ _ => ?_, fun u x hx => ?_,
    fun x hx => (h.below x hx).trans hlow, ?_, ?_, h.disjoint⟩
  · obtain ⟨hu, hw⟩ := hvalue u w hw
    refine ⟨?_, (h.pending u w hw).2⟩
    rcases waiting_or_inside hw with hwait | hin'
    · exact h.front t v u w hin hv ((hl.queued u).mpr hwait) hw
    · exact absurd (hl.unique hin' hin) hu
  · exact h.queue.imp fun {a b} hab x y hx hy => hab x y (hvalue a x hx).2 (hvalue b y hy).2
  · obtain ⟨hut, -⟩ := hvalue u w hw
    rw [hother u hut] at hu
    exact absurd (hl.unique hu hin) hut
  · rw [hrange] at hx
    have hc := h.covered u x hx
    by_cases hu : u = t
    · subst hu
      rw [hself]
      rw [ht] at hc
      exact hc
    · rw [hother u hu]
      exact hc.trans (bound_mono le_rfl hlow _)
  · simpa only [hrange] using h.apart
  · simpa only [hrange] using h.fresh

theorem pop_fields (ph : Phase) : ph.pop.value = ph.value ∧ ph.pop.range = ph.range ∧
    ∀ p q, ph.pop.bound p q = ph.bound p q := by
  cases ph <;> exact ⟨rfl, rfl, fun _ _ => rfl⟩

theorem Ordered.leave (h : Ordered sem.sq ballocPtr sector0 phase returned) (ht : phase t = .written r)
    (hself : phase' t = .out) (hother : ∀ u, u ≠ t → phase' u = phase u ∨ phase' u = (phase u).pop)
    (hin : ∀ u, (phase' u).inside = true → sem.sq.head? = some u) :
    Ordered sem.sq.tail ballocPtr sector0 phase' (returned ++ r.toList) := by
  have hvalue : ∀ u w, (phase' u).value = some w → (phase u).value = some w := by
    intro u w hw
    by_cases hu : u = t
    · subst hu
      rw [hself] at hw
      cases hw
    · rcases hother u hu with he | he
      · rwa [he] at hw
      · rwa [he, (pop_fields _).1] at hw
  have hrange : ∀ u x, (phase' u).range = some x → u ≠ t ∧ (phase u).range = some x := by
    intro u x hx
    by_cases hu : u = t
    · subst hu
      rw [hself] at hx
      cases hx
    · rcases hother u hu with he | he
      · rw [he] at hx
        exact ⟨hu, hx⟩
      · rw [he, (pop_fields _).2.1] at hx
        exact ⟨hu, hx⟩
  have hown : ∀ x ∈ r.toList, (phase t).range = some x := by
    intro x hx
    rw [ht, Phase.range]
    exact Option.mem_toList.mp hx
  refine ⟨h.stored, fun u v hv => h.pending u v (hvalue u v hv), ?_, fun u v w x hu hv hw hx => ?_,
    fun u x hx => ?_, fun x hx => ?_, fun u w x y hne hx hy => ?_, fun u x hx y hy => ?_, ?_⟩
  · refine (h.queue.sublist (List.tail_sublist _)).imp fun {a b} hab v w hv hw => ?_
    exact hab v w (hvalue a v hv) (hvalue b w hw)
  · have hhead := hin u hu
    have hqueue := h.queue
    cases hsq : sem.sq with
    | nil =>
      rw [hsq] at hhead
      cases hhead
    | cons a as =>
      rw [hsq] at hhead hw hqueue
      obtain rfl : a = u := Option.some.inj hhead
      exact (List.pairwise_cons.mp hqueue).1 w hw v x (hvalue a v hv) (hvalue w x hx)
  · obtain ⟨hu, hx⟩ := hrange u x hx
    rcases hother u hu with he | he
    · rw [he]
      exact h.covered u x hx
    · rw [he, (pop_fields _).2.2]
      exact h.covered u x hx
  · rcases List.mem_append.mp hx with hx | hx
    · exact h.below x hx
    · have hc := h.covered t x (hown x hx)
      rw [ht] at hc
      exact hc
  · exact h.apart u w x y hne (hrange u x hx).2 (hrange w y hy).2
  · obtain ⟨hu, hx⟩ := hrange u x hx
    rcases List.mem_append.mp hy with hy | hy
    · exact h.fresh u x hx y hy
    · exact h.apart u t x y hu hx (hown y hy)
  · refine List.pairwise_append.mpr ⟨h.disjoint, ?_, fun x hx y hy => ?_⟩
    · cases r with
      | none => exact List.Pairwise.nil
      | some x => exact List.pairwise_singleton _ _
    · exact (h.fresh t y (hown y hy) x hx).symm

theorem Locked.alike (h : Locked sem phase holder) (hw : ∀ u, (phase' u).waiting = (phase u).waiting)
    (hi : ∀ u, (phase' u).inside = (phase u).inside) : Locked sem phase' holder :=
  Exclusive.congr h (fun u => by rw [hw]) fun u => by rw [hi]

theorem Locked.update (h : Locked sem phase holder) {ph : Phase} (hw : ph.waiting = (phase t).waiting)
    (hi : ph.inside = (phase t).inside) : Locked sem (Function.update phase t ph) holder := by
  refine h.alike (fun u => ?_) fun u => ?_
  · by_cases hu : u = t
    · subst hu
      rw [Function.update_self, hw]
    · rw [Function.update_of_ne hu]
  · by_cases hu : u = t
    · subst hu
      rw [Function.update_self, hi]
    · rw [Function.update_of_ne hu]

end Order

section Steps

variable {s : State} {t : ℕ} {r : Option Range}

theorem inv_alike (h : Inv s) {lock : Krwlock ℕ} {ready : Bool} {phase : ℕ → Phase}
    (hp : ∀ t, Alike (s.phase t) (phase t)) :
    Inv { s with lock := lock, ready := ready, phase := phase } := by
  obtain ⟨ho, holder, hl⟩ := h
  exact ⟨ho.alike hp, holder, hl.alike (fun u => (hp u).waiting) fun u => (hp u).inside⟩

theorem alike_update {phase : ℕ → Phase} {ph ph' : Phase} (h : Alike ph ph') (u : ℕ) :
    Alike (Function.update phase t ph u) (Function.update phase t ph' u) := by
  by_cases hu : u = t
  · subst hu
    rw [Function.update_self, Function.update_self]
    exact h
  · rw [Function.update_of_ne hu, Function.update_of_ne hu]
    exact Alike.refl _

theorem inv_updateLocked (h : Inv s) (ht : s.phase t = .lockWoken r) : Inv (updateLocked s t r) := by
  obtain ⟨ho, holder, hl⟩ := h
  have htq : t ∉ s.sem.sq := by
    rw [hl.queued, ht]
    exact Bool.false_ne_true
  unfold updateLocked
  by_cases hm : mustSleep s.sem = true
  · have hsq : (ksemaphoreWait s.sem t).sq = s.sem.sq ++ [t] := by
      rw [ksemaphoreWait, if_pos hm]
    have hbuffer := @Ordered.buffer _ _ _ _ _ _ _ ho ht (.diskAsleep r s.ballocPtr) rfl rfl (fun _ _ => rfl) _ htq
      (Or.inr ⟨rfl, hsq⟩)
    have he := exclusive_queue hl (t := t) (by simp [ht, Phase.waiting]) hm
    rw [if_pos hm]
    refine ⟨hbuffer, holder, Exclusive.congr he (fun u => ?_) fun u => ?_⟩
    · by_cases hu : u = t
      · subst hu
        simp [Phase.waiting]
      · simp [hu]
    · by_cases hu : u = t
      · subst hu
        simp [ht, Phase.inside]
      · simp [hu]
  · obtain ⟨hnone, hnil, he⟩ := exclusive_enter hl t (by simpa using hm)
    have hsq : (ksemaphoreWait s.sem t).sq = [] := by
      rw [ksemaphoreWait, if_neg hm]
      exact hnil
    have hbuffer := @Ordered.buffer _ _ _ _ _ _ _ ho ht (.writing r s.ballocPtr) rfl rfl (fun _ _ => rfl) _ htq
      (Or.inl ⟨rfl, hnil, hsq⟩)
    rw [if_neg hm]
    refine ⟨hbuffer, some t, Exclusive.congr he (fun u => ?_) fun u => ?_⟩
    · by_cases hu : u = t
      · subst hu
        simp [ht, Phase.waiting]
      · simp [hu]
    · by_cases hu : u = t
      · subst hu
        simp [Phase.inside]
      · have hout := hl.inside u
        rw [hnone] at hout
        simpa [hu] using hout

theorem updateLocked_update (s : State) (t : ℕ) (r : Option Range) (ph : Phase) :
    updateLocked { s with phase := Function.update s.phase t ph } t r = updateLocked s t r := by
  simp [updateLocked]

theorem inv_ballocUpdate (h : Inv { s with phase := Function.update s.phase t (.lockWoken r) }) :
    Inv (ballocUpdate s t r) := by
  unfold ballocUpdate
  by_cases hb : writeBlocked s.lock = true
  · rw [if_pos hb]
    have halike : Alike (.lockWoken r) (.lockAsleep r) := ⟨rfl, rfl, rfl, rfl, fun _ _ => rfl⟩
    exact inv_alike h (alike_update halike)
  · rw [if_neg hb, ← updateLocked_update s t r (.lockWoken r)]
    exact inv_updateLocked h (Function.update_self _ _ _)

theorem inv_balloc (h : Inv s) (ht : s.phase t = .out) {size : ℕ} (hw : s.ballocPtr + size < 2 ^ 32) :
    Inv (balloc s t size) := by
  obtain ⟨ho, holder, hl⟩ := h
  simp only [balloc, Nat.mod_eq_of_lt hw]
  refine inv_ballocUpdate ⟨ho.take ht size, holder, hl.update ?_ ?_⟩
  · rw [ht]
    rfl
  · rw [ht]
    rfl

theorem inv_write (h : Inv s) {v : ℕ} (ht : s.phase t = .writing r v) : s.sector0 ≤ v ∧
    Inv { s with sector0 := v, phase := Function.update s.phase t (.written r) } := by
  obtain ⟨ho, holder, hl⟩ := h
  obtain ⟨hle, ho⟩ := ho.write hl ht
  refine ⟨hle, ho, holder, hl.update ?_ ?_⟩
  · rw [ht]
    rfl
  · rw [ht]
    rfl

theorem inv_finish (h : Inv s) (ht : s.phase t = .written r) : Inv (finish s t r) := by
  obtain ⟨ho, holder, hl⟩ := h
  let left := Function.update s.phase t .out
  let phase : ℕ → Phase := fun u => if s.sem.sq.head? = some u then (left u).pop else left u
  have hin : (s.phase t).inside = true := by rw [ht, Phase.inside]
  have hne : ∀ u, s.sem.sq.head? = some u → u ≠ t ∧ ∃ r' v, s.phase u = .diskAsleep r' v := by
    intro u hu
    have hw := (hl.queued u).mp (List.mem_of_mem_head? (Option.mem_def.mpr hu))
    have hut : u ≠ t := by
      rintro rfl
      simp [ht, Phase.waiting] at hw
    refine ⟨hut, ?_⟩
    cases hph : s.phase u <;> simp_all [Phase.waiting]
  have hself : phase t = .out := by
    have : s.sem.sq.head? ≠ some t := fun he => (hne t he).1 rfl
    simp [phase, left, this]
  have hother : ∀ u, u ≠ t → phase u = if s.sem.sq.head? = some u then (s.phase u).pop else s.phase u := by
    intro u hu
    simp [phase, left, hu]
  have hinside : ∀ u, (phase u).inside = true ↔ s.sem.sq.head? = some u := by
    intro u
    by_cases hu : u = t
    · subst hu
      rw [hself]
      exact iff_of_false Bool.false_ne_true fun he => (hne u he).1 rfl
    · rw [hother u hu]
      by_cases hhead : s.sem.sq.head? = some u
      · obtain ⟨-, r', v, hph⟩ := hne u hhead
        simp [hhead, hph, Phase.pop, Phase.inside]
      · rw [if_neg hhead]
        exact iff_of_false (fun hu' => hu (hl.unique hu' hin)) hhead
  have hwaiting : ∀ u, (phase u).waiting = true ↔
      (s.phase u).waiting = true ∧ s.sem.sq.head? ≠ some u := by
    intro u
    by_cases hu : u = t
    · subst hu
      rw [hself, ht]
      simp [Phase.waiting]
    · rw [hother u hu]
      by_cases hhead : s.sem.sq.head? = some u
      · obtain ⟨-, r', v, hph⟩ := hne u hhead
        simp [hhead, hph, Phase.pop, Phase.waiting]
      · simp [hhead]
  have hmid : Inv { s with sem := (ksemaphoreSignal s.sem).1, phase := phase,
                           returned := s.returned ++ r.toList } := by
    have hstep : ∀ u, u ≠ t → phase u = s.phase u ∨ phase u = (s.phase u).pop := by
      intro u hu
      rw [hother u hu]
      split_ifs
      · exact Or.inr rfl
      · exact Or.inl rfl
    exact ⟨ho.leave ht hself hstep fun u hu => (hinside u).mp hu, _,
      Exclusive.congr (exclusive_signal hl hin) hwaiting hinside⟩
  refine inv_alike hmid fun u => ?_
  change Alike (phase u) (if u ∈ (krwlockRelease s.lock).2 then (phase u).awake else phase u)
  split_ifs
  · exact alike_awake _
  · exact Alike.refl _

theorem inv_quiet {lock : Krwlock ℕ} {ballocPtr sector0 : ℕ} {ready : Bool} {returned : List Range}
    {phase : ℕ → Phase} (hp : ∀ t, phase t = .out ∨ phase t = .lockWoken none)
    (hle : sector0 ≤ ballocPtr) (hb : ∀ x ∈ returned, x.1 + x.2 ≤ sector0)
    (hd : returned.Pairwise Apart) :
    Inv ⟨lock, ksemaphoreInit 1, ballocPtr, sector0, ready, phase, returned⟩ := by
  have hnone : ∀ t, (phase t).value = none ∧ (phase t).range = none ∧ (phase t).waiting = false ∧
      (phase t).inside = false := by
    intro t
    rcases hp t with h | h <;> rw [h] <;> exact ⟨rfl, rfl, rfl, rfl⟩
  refine ⟨⟨hle, ?_, List.Pairwise.nil, ?_, ?_, hb, ?_, ?_, hd⟩, none, exclusive_init ?_ ?_⟩
  · simp [hnone]
  · simp [hnone]
  · simp [hnone]
  · simp [hnone]
  · simp [hnone]
  · simp [hnone]
  · simp [hnone]

theorem restart_spec {sector0 : ℕ} {returned : List Range} (hb : ∀ x ∈ returned, x.1 + x.2 ≤ sector0)
    (hd : returned.Pairwise Apart) :
    Inv (restart sector0 returned) ∧ sector0 ≤ (restart sector0 returned).ballocPtr ∧
      (restart sector0 returned).sector0 = sector0 ∧ (restart sector0 returned).returned = returned := by
  have hsem : (ksemaphoreSignal (ksemaphoreWait (ksemaphoreInit 1) bootTask)).1 =
      (ksemaphoreInit 1 : Ksemaphore ℕ) := rfl
  unfold restart binit ballocFetch
  simp only [hsem]
  by_cases h0 : sector0 = 0
  · rw [if_pos h0]
    refine ⟨inv_ballocUpdate (inv_quiet (fun u => ?_) (by simp [h0]) hb hd), ?_, ?_, ?_⟩
    · by_cases hu : u = bootTask
      · subst hu
        exact Or.inr (Function.update_self _ _ _)
      · exact Or.inl (Function.update_of_ne hu _ _)
    · rw [h0]
      exact Nat.zero_le _
    · rfl
    · rfl
  · rw [if_neg h0]
    exact ⟨inv_quiet (fun _ => Or.inl rfl) le_rfl hb hd, le_rfl, rfl, rfl⟩

theorem inv_step {s' : State} {a : Action} (h : Inv s) (hw : NoWrap s a) (hs : step s a = some s') :
    Inv s' := by
  cases a with
  | balloc t size =>
    simp only [step] at hs
    split at hs
    · rename_i ht
      split_ifs at hs
      obtain rfl := Option.some.inj hs
      exact inv_balloc h ht hw
    · cases hs
  | resume t =>
    simp only [step] at hs
    split at hs
    · rename_i r ht
      obtain rfl := Option.some.inj hs
      exact inv_updateLocked h ht
    · rename_i r v ht
      obtain rfl := Option.some.inj hs
      refine inv_alike h fun u => ?_
      by_cases hu : u = t
      · subst hu
        rw [Function.update_self, ht]
        exact ⟨rfl, rfl, rfl, rfl, fun _ _ => rfl⟩
      · rw [Function.update_of_ne hu]
        exact Alike.refl _
    · cases hs
  | write t =>
    simp only [step] at hs
    split at hs
    · rename_i r v ht
      obtain rfl := Option.some.inj hs
      exact (inv_write h ht).2
    · cases hs
  | finish t =>
    simp only [step] at hs
    split at hs
    · rename_i r ht
      obtain rfl := Option.some.inj hs
      exact inv_finish h ht
    · cases hs
  | crash =>
    obtain rfl := Option.some.inj hs
    exact (restart_spec h.1.below h.1.disjoint).1

theorem sector0_le {s' : State} {a : Action} (h : Inv s) (hs : step s a = some s') :
    s.sector0 ≤ s'.sector0 := by
  have hupdate : ∀ (s : State) t r, (updateLocked s t r).sector0 = s.sector0 := by
    intro s t r
    unfold updateLocked
    simp only
    split_ifs <;> rfl
  cases a with
  | balloc t size =>
    simp only [step] at hs
    split at hs
    · split_ifs at hs
      obtain rfl := Option.some.inj hs
      unfold balloc ballocUpdate
      simp only
      split_ifs
      · exact le_rfl
      · exact (hupdate { s with ballocPtr := (s.ballocPtr + size) % 2 ^ 32 } _ _).ge
    · cases hs
  | resume t =>
    simp only [step] at hs
    split at hs
    · obtain rfl := Option.some.inj hs
      exact (hupdate _ _ _).ge
    · obtain rfl := Option.some.inj hs
      exact le_rfl
    · cases hs
  | write t =>
    simp only [step] at hs
    split at hs
    · rename_i r v ht
      obtain rfl := Option.some.inj hs
      exact (inv_write h ht).1
    · cases hs
  | finish t =>
    simp only [step] at hs
    split at hs
    · obtain rfl := Option.some.inj hs
      exact le_rfl
    · cases hs
  | crash =>
    obtain rfl := Option.some.inj hs
    exact (restart_spec h.1.below h.1.disjoint).2.2.1.ge

end Steps

theorem Inv.durable {s : State} (h : Inv s) : Durable s where
  disjoint := h.1.disjoint
  covered := fun r hr => (h.1.below r hr).trans (restart_spec h.1.below h.1.disjoint).2.1

theorem inv_init (sector0 : ℕ) : Inv (init sector0) :=
  (restart_spec (fun _ h => absurd h List.not_mem_nil) List.Pairwise.nil).1

/-- In every run, with any calls in flight and any crashes and restarts, the ranges that `balloc` has
returned are disjoint, a restart begins behind them, and the stored pointer never decreases. -/
theorem durable_exec (sector0 : ℕ) (as : List Action) (s : State)
    (hw : Meets step NoWrap (init sector0) as) (hs : exec step (init sector0) as = some s) :
    Durable s ∧ ∀ a s', step s a = some s' → s.sector0 ≤ s'.sector0 := by
  have h : Inv s := exec_invariant (fun _ _ _ h hw hs => inv_step h hw hs) (inv_init sector0) hw hs
  exact ⟨h.durable, fun a s' ha => sector0_le h ha⟩

theorem durable_crash : ∃ s, exec step (init 0)
    [.write 1, .finish 1, .balloc 2 3, .balloc 3 4, .write 2, .finish 2, .crash] = some s ∧
    s.returned = [(2, 3)] ∧ s.ballocPtr = 5 ∧ Durable s := by
  refine ⟨_, rfl, rfl, rfl, (durable_exec 0 [.write 1, .finish 1, .balloc 2 3, .balloc 3 4, .write 2,
    .finish 2, .crash] _ ?_ rfl).1⟩
  have hfirst : NoWrap (init 0) (.write 1) := trivial
  refine meets_cons hfirst rfl (meets_cons trivial rfl (meets_cons ?_ rfl (meets_cons ?_ rfl
    (meets_cons trivial rfl (meets_cons trivial rfl (meets_cons trivial rfl trivial))))))
  · exact (by decide : 2 + 3 < 2 ^ 32)
  · exact (by decide : 5 + 4 < 2 ^ 32)

end Eedox.BallocDurability
