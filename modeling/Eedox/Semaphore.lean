import Mathlib.Data.List.Basic
import Mathlib.Algebra.Order.Group.Int

namespace Eedox.Semaphore

structure Ksemaphore (T : Type) where
  sq : List T
  value : ℤ

variable {T : Type}

def ksemaphoreInit (initial : ℤ) : Ksemaphore T := ⟨[], initial⟩

def mustSleep (sem : Ksemaphore T) : Bool := sem.value ≤ 0

def ksemaphoreWait (sem : Ksemaphore T) (curtask : T) : Ksemaphore T :=
  if mustSleep sem then ⟨sem.sq ++ [curtask], sem.value - 1⟩ else { sem with value := sem.value - 1 }

def ksemaphoreSignal (sem : Ksemaphore T) : Ksemaphore T × Option T :=
  (⟨sem.sq.tail, sem.value + 1⟩, sem.sq.head?)

/-- The sleepers are as many as the value is below zero. -/
def Balanced (sem : Ksemaphore T) : Prop := (sem.sq.length : ℤ) = max 0 (-sem.value)

theorem balanced_init {initial : ℤ} (h : 0 ≤ initial) :
    Balanced (ksemaphoreInit initial : Ksemaphore T) := by
  simp only [Balanced, ksemaphoreInit, List.length_nil]
  omega

theorem balanced_wait {sem : Ksemaphore T} (h : Balanced sem) (t : T) :
    Balanced (ksemaphoreWait sem t) := by
  simp only [Balanced] at *
  by_cases hv : sem.value ≤ 0
  · simp only [ksemaphoreWait, mustSleep, hv, decide_true, ↓reduceIte, List.length_append,
      List.length_singleton]
    omega
  · simp only [ksemaphoreWait, mustSleep, hv, decide_false, Bool.false_eq_true, ↓reduceIte]
    omega

theorem balanced_signal {sem : Ksemaphore T} (h : Balanced sem) :
    Balanced (ksemaphoreSignal sem).1 := by
  simp only [Balanced, ksemaphoreSignal, List.length_tail] at *
  omega

structure Exclusive (sem : Ksemaphore T) (queued inside : T → Prop) (holder : Option T) : Prop where
  balanced : Balanced sem
  nodup : sem.sq.Nodup
  queued : ∀ t, t ∈ sem.sq ↔ queued t
  inside : ∀ t, inside t ↔ holder = some t
  value : sem.value + sem.sq.length = if holder = none then 1 else 0

variable {sem : Ksemaphore T} {queued inside queued' inside' : T → Prop} {holder : Option T} {t u : T}

theorem exclusive_init (hq : ∀ t, ¬ queued t) (hi : ∀ t, ¬ inside t) :
    Exclusive (ksemaphoreInit 1) queued inside none where
  balanced := balanced_init (by decide)
  nodup := List.nodup_nil
  queued := fun t => iff_of_false List.not_mem_nil (hq t)
  inside := fun t => iff_of_false (hi t) (by simp)
  value := rfl

theorem Exclusive.congr (h : Exclusive sem queued inside holder) (hq : ∀ t, queued' t ↔ queued t)
    (hi : ∀ t, inside' t ↔ inside t) : Exclusive sem queued' inside' holder where
  balanced := h.balanced
  nodup := h.nodup
  queued := fun t => (h.queued t).trans (hq t).symm
  inside := fun t => (hi t).trans (h.inside t)
  value := h.value

theorem Exclusive.unique (h : Exclusive sem queued inside holder) (ht : inside t) (hu : inside u) :
    t = u := by
  have h1 := (h.inside t).mp ht
  rw [(h.inside u).mp hu] at h1
  exact (Option.some.inj h1).symm

theorem exclusive_queue (h : Exclusive sem queued inside holder) (ht : ¬ queued t)
    (hm : mustSleep sem = true) :
    Exclusive (ksemaphoreWait sem t) (fun u => u = t ∨ queued u) inside holder := by
  have hwait : ksemaphoreWait sem t = ⟨sem.sq ++ [t], sem.value - 1⟩ := by
    rw [ksemaphoreWait, if_pos hm]
  refine ⟨balanced_wait h.balanced t, ?_, fun u => ?_, h.inside, ?_⟩
  · simp only [hwait]
    refine List.nodup_append.mpr ⟨h.nodup, by simp, ?_⟩
    rintro u hu v hv rfl
    obtain rfl : u = t := by simpa using hv
    exact ht ((h.queued u).mp hu)
  · simp only [hwait, List.mem_append, List.mem_singleton, h.queued]
    exact or_comm
  · have hv := h.value
    simp only [hwait, List.length_append, List.length_singleton]
    omega

theorem exclusive_enter (h : Exclusive sem queued inside holder) (t : T)
    (hm : mustSleep sem = false) : holder = none ∧ sem.sq = [] ∧
      Exclusive (ksemaphoreWait sem t) queued (fun u => u = t) (some t) := by
  have hwait : ksemaphoreWait sem t = { sem with value := sem.value - 1 } := by
    rw [ksemaphoreWait, if_neg (by simp [hm])]
  have hv : 0 < sem.value := by simpa [mustSleep] using hm
  have hvalue := h.value
  have hb := h.balanced
  simp only [Balanced] at hb
  have hnone : holder = none := by
    by_contra hne
    rw [if_neg hne] at hvalue
    omega
  refine ⟨hnone, List.eq_nil_of_length_eq_zero (by omega), balanced_wait h.balanced t, ?_, fun u => ?_,
    fun u => ?_, ?_⟩
  · simpa only [hwait] using h.nodup
  · simpa only [hwait] using h.queued u
  · rw [Option.some.injEq, eq_comm]
  · rw [hnone, if_pos rfl] at hvalue
    simp only [hwait, reduceCtorEq, ↓reduceIte]
    omega

theorem exclusive_signal (h : Exclusive sem queued inside holder) (ht : inside t) :
    Exclusive (ksemaphoreSignal sem).1 (fun u => queued u ∧ sem.sq.head? ≠ some u)
      (fun u => sem.sq.head? = some u) sem.sq.head? := by
  have hvalue := h.value
  rw [(h.inside t).mp ht] at hvalue
  simp only [reduceCtorEq, ↓reduceIte] at hvalue
  refine ⟨balanced_signal h.balanced, (List.tail_sublist _).nodup h.nodup, fun u => ?_, fun u => Iff.rfl, ?_⟩
  · rw [← h.queued]
    have hnd := h.nodup
    simp only [ksemaphoreSignal]
    cases hsq : sem.sq with
    | nil => simp
    | cons v vs =>
      rw [hsq] at hnd
      have hv := (List.nodup_cons.mp hnd).1
      simp only [List.tail_cons, List.mem_cons, List.head?_cons, ne_eq, Option.some.injEq]
      constructor
      · intro hu
        refine ⟨Or.inr hu, ?_⟩
        rintro rfl
        exact hv hu
      · rintro ⟨rfl | hu, hne⟩
        · exact absurd rfl hne
        · exact hu
  · simp only [ksemaphoreSignal]
    cases hsq : sem.sq with
    | nil =>
      rw [hsq] at hvalue
      simp only [List.length_nil, List.tail_nil, List.head?_nil, ↓reduceIte] at hvalue ⊢
      omega
    | cons v vs =>
      rw [hsq] at hvalue
      simp only [List.length_cons, List.tail_cons, List.head?_cons, reduceCtorEq, ↓reduceIte] at hvalue ⊢
      omega

end Eedox.Semaphore
