import Eedox.Semaphore
import Eedox.Library.Runs
import Mathlib.Data.List.Perm.Subperm

namespace Eedox.SemaphoreOrder

open Library.Runs Semaphore

inductive Phase | running | asleep | woken
  deriving DecidableEq

/-- A semaphore and the tasks that use it, with the callers of `ksemaphore_wait`, those that it let
through, those that have returned from it, and the callers of `ksemaphore_signal`, each in order. -/
structure State (T : Type) where
  sem : Ksemaphore T
  phase : T → Phase
  waits : List T
  granted : List T
  returned : List T
  signals : List T

inductive Action (T : Type)
  | wait (t : T)
  | resume (t : T)
  | signal (t : T)

variable {T : Type}

def init (k : ℕ) : State T := ⟨ksemaphoreInit k, fun _ => .running, [], [], [], []⟩

section Step

variable [DecidableEq T]

def wait (s : State T) (t : T) : State T :=
  if mustSleep s.sem then
    { s with sem := ksemaphoreWait s.sem t, phase := Function.update s.phase t .asleep,
             waits := s.waits ++ [t] }
  else
    { s with sem := ksemaphoreWait s.sem t, waits := s.waits ++ [t], granted := s.granted ++ [t],
             returned := s.returned ++ [t] }

def wake (phase : T → Phase) : Option T → T → Phase
  | none => phase
  | some u => Function.update phase u .woken

def signal (s : State T) (t : T) : State T :=
  let next := ksemaphoreSignal s.sem
  { s with sem := next.1, phase := wake s.phase next.2, granted := s.granted ++ next.2.toList,
           signals := s.signals ++ [t] }

def step (s : State T) : Action T → Option (State T)
  | .wait t => if s.phase t = .running then some (wait s t) else none
  | .resume t =>
    if s.phase t = .woken then
      some { s with phase := Function.update s.phase t .running, returned := s.returned ++ [t] }
    else none
  | .signal t => if s.phase t = .running then some (signal s t) else none

/-- The task has returned from more waits than it has signalled. -/
def Inside (s : State T) (t : T) : Prop := s.signals.count t < s.returned.count t

def HolderSignals (s : State T) : Action T → Prop
  | .signal t => Inside s t
  | _ => True

end Step

structure Inv (k : ℕ) (s : State T) (ws : List T) : Prop where
  balanced : Balanced s.sem
  value : s.sem.value = k + s.signals.length - s.waits.length
  order : s.granted ++ s.sem.sq = s.waits
  nodup : (s.sem.sq ++ ws).Nodup
  asleep : ∀ t, t ∈ s.sem.sq ↔ s.phase t = .asleep
  woken : ∀ t, t ∈ ws ↔ s.phase t = .woken
  returned : (s.returned ++ ws).Perm s.granted

section Preserve

variable {k : ℕ} {s : State T} {ws : List T}

theorem inv_init (k : ℕ) : Inv k (init k : State T) [] where
  balanced := balanced_init (Int.natCast_nonneg k)
  value := by simp [init, ksemaphoreInit]
  order := rfl
  nodup := List.nodup_nil
  asleep := by simp [init, ksemaphoreInit]
  woken := by simp [init]
  returned := List.Perm.refl _

theorem Inv.sq_eq_nil (h : Inv k s ws) (hv : 0 ≤ s.sem.value) : s.sem.sq = [] := by
  have hl := h.balanced
  simp only [Semaphore.Balanced] at hl
  apply List.eq_nil_of_length_eq_zero
  omega

variable [DecidableEq T]

theorem inv_wait (h : Inv k s ws) {t : T} (ht : s.phase t = .running) : Inv k (wait s t) ws := by
  have hv := h.value
  by_cases hsleep : mustSleep s.sem = true
  · have hw : wait s t = { s with
        sem := ⟨s.sem.sq ++ [t], s.sem.value - 1⟩
        phase := Function.update s.phase t .asleep
        waits := s.waits ++ [t] } := by
      rw [wait, if_pos hsleep, ksemaphoreWait, if_pos hsleep]
    have hb := balanced_wait h.balanced t
    rw [ksemaphoreWait, if_pos hsleep] at hb
    have hsq : t ∉ s.sem.sq := by simp [h.asleep, ht]
    have hws : t ∉ ws := by simp [h.woken, ht]
    rw [hw]
    refine ⟨hb, ?_, ?_, ?_, ?_, ?_, h.returned⟩
    · simp only [List.length_append, List.length_singleton]
      omega
    · rw [← List.append_assoc, h.order]
    · have hp : (s.sem.sq ++ [t] ++ ws).Perm (t :: (s.sem.sq ++ ws)) := by
        rw [List.append_assoc]
        exact List.perm_middle
      refine hp.nodup_iff.mpr (List.nodup_cons.mpr ⟨?_, h.nodup⟩)
      simp [hsq, hws]
    · intro u
      rw [List.mem_append, List.mem_singleton, h.asleep]
      by_cases hu : u = t <;> simp [hu]
    · intro u
      rw [h.woken]
      by_cases hu : u = t <;> simp [hu, ht]
  · have hw : wait s t = { s with
        sem := { s.sem with value := s.sem.value - 1 }
        waits := s.waits ++ [t]
        granted := s.granted ++ [t]
        returned := s.returned ++ [t] } := by
      rw [wait, if_neg hsleep, ksemaphoreWait, if_neg hsleep]
    have hb := balanced_wait h.balanced t
    rw [ksemaphoreWait, if_neg hsleep] at hb
    have hempty : s.sem.sq = [] := h.sq_eq_nil (by
      have hpos : 0 < s.sem.value := by simpa [mustSleep] using hsleep
      exact hpos.le)
    have ho := h.order
    rw [hempty, List.append_nil] at ho
    rw [hw]
    refine ⟨hb, ?_, ?_, h.nodup, h.asleep, h.woken, ?_⟩
    · simp only [List.length_append, List.length_singleton]
      omega
    · simp only [hempty, List.append_nil, ho]
    · have hp : (s.returned ++ [t] ++ ws).Perm (s.returned ++ ws ++ [t]) := by
        rw [List.append_assoc, List.append_assoc]
        exact List.perm_append_comm.append_left _
      exact hp.trans (h.returned.append_right [t])

theorem inv_signal (h : Inv k s ws) (t : T) :
    Inv k (signal s t) (ws ++ s.sem.sq.head?.toList) := by
  have hv := h.value
  have hb := balanced_signal h.balanced
  unfold signal
  unfold ksemaphoreSignal at *
  simp only
  cases hq : s.sem.sq with
  | nil =>
    have ho := h.order
    have hn := h.nodup
    rw [hq] at hb ho hn
    simp only [List.head?_nil, Option.toList_none, List.append_nil, wake, List.tail_nil]
    refine ⟨hb, ?_, ?_, hn, ?_, h.woken, h.returned⟩
    · simp only [List.length_append, List.length_singleton]
      omega
    · simpa using ho
    · intro u
      rw [← h.asleep, hq]
  | cons v rest =>
    have ho := h.order
    have hn := h.nodup
    have hasleep := h.asleep
    rw [hq] at hb ho hn hasleep
    simp only [List.head?_cons, Option.toList_some, wake, List.tail_cons]
    have hvr : v ∉ rest ++ ws := (List.nodup_cons.mp hn).1
    refine ⟨hb, ?_, ?_, ?_, ?_, ?_, ?_⟩
    · simp only [List.length_append, List.length_singleton]
      omega
    · simpa using ho
    · have hp : (rest ++ (ws ++ [v])).Perm (v :: rest ++ ws) := by
        rw [← List.append_assoc]
        exact List.perm_append_comm
      exact hp.nodup_iff.mpr hn
    · intro u
      by_cases hu : u = v
      · subst hu
        simp only [Function.update_self, reduceCtorEq, iff_false]
        exact fun hm => hvr (List.mem_append_left ws hm)
      · have hu' := hasleep u
        rw [List.mem_cons] at hu'
        simpa [hu] using hu'
    · intro u
      rw [List.mem_append, List.mem_singleton, h.woken]
      by_cases hu : u = v <;> simp [hu]
    · rw [← List.append_assoc]
      exact h.returned.append_right [v]

theorem inv_resume (h : Inv k s ws) {t : T} (ht : s.phase t = .woken) :
    Inv k { s with phase := Function.update s.phase t .running, returned := s.returned ++ [t] }
      (ws.erase t) := by
  have hws : ws.Nodup := (List.nodup_append.mp h.nodup).2.1
  have hmem : t ∈ ws := (h.woken t).mpr ht
  refine ⟨h.balanced, h.value, h.order, ?_, ?_, ?_, ?_⟩
  · exact (List.Sublist.append_left List.erase_sublist _).nodup h.nodup
  · intro u
    rw [h.asleep]
    by_cases hu : u = t <;> simp [hu, ht]
  · intro u
    rw [hws.mem_erase_iff, h.woken]
    by_cases hu : u = t <;> simp [hu]
  · have hp : (s.returned ++ [t] ++ ws.erase t).Perm (s.returned ++ ws) := by
      rw [List.append_assoc]
      exact (List.perm_cons_erase hmem).symm.append_left _
    exact hp.trans h.returned

theorem inv_step {s' : State T} {a : Action T} (h : ∃ ws, Inv k s ws) (hs : step s a = some s') :
    ∃ ws, Inv k s' ws := by
  obtain ⟨ws, h⟩ := h
  cases a with
  | wait t =>
    simp only [step, Option.ite_none_right_eq_some, Option.some.injEq] at hs
    obtain ⟨ht, rfl⟩ := hs
    exact ⟨ws, inv_wait h ht⟩
  | resume t =>
    simp only [step, Option.ite_none_right_eq_some, Option.some.injEq] at hs
    obtain ⟨ht, rfl⟩ := hs
    exact ⟨_, inv_resume h ht⟩
  | signal t =>
    simp only [step, Option.ite_none_right_eq_some, Option.some.injEq] at hs
    obtain ⟨_, rfl⟩ := hs
    exact ⟨_, inv_signal h t⟩

theorem inv_exec {as : List (Action T)} {s : State T} (h : exec step (init k) as = some s) :
    ∃ ws, Inv k s ws :=
  exec_invariant (fun _ _ _ hi _ hs => inv_step hi hs) ⟨[], inv_init k⟩
    (meets_true _ _) h

def Entered (s : State T) : Prop := ∀ t, s.signals.count t ≤ s.returned.count t

theorem entered_step {s' : State T} {a : Action T} (h : Entered s) (hg : HolderSignals s a)
    (hs : step s a = some s') : Entered s' := by
  intro u
  have hu := h u
  cases a with
  | wait t =>
    simp only [step, Option.ite_none_right_eq_some, Option.some.injEq] at hs
    obtain ⟨_, rfl⟩ := hs
    unfold wait
    split_ifs
    · exact hu
    · simp only [List.count_append]
      omega
  | resume t =>
    simp only [step, Option.ite_none_right_eq_some, Option.some.injEq] at hs
    obtain ⟨_, rfl⟩ := hs
    simp only [List.count_append]
    omega
  | signal t =>
    simp only [step, Option.ite_none_right_eq_some, Option.some.injEq] at hs
    obtain ⟨_, rfl⟩ := hs
    have ht : s.signals.count t < s.returned.count t := hg
    simp only [signal, List.count_append]
    by_cases hut : u = t
    · subst hut
      simp only [List.count_singleton_self]
      omega
    · rw [List.count_singleton, if_neg (by simpa using Ne.symm hut)]
      omega

theorem inside_unique (h : Entered s) (hl : s.returned.length ≤ s.signals.length + 1) {t u : T}
    (ht : Inside s t) (hu : Inside s u) : t = u := by
  by_contra hne
  have hsub : (t :: u :: s.signals).Subperm s.returned := by
    refine List.subperm_ext_iff.mpr fun v _ => ?_
    have hv := h v
    rw [List.count_cons, List.count_cons]
    by_cases hvt : t = v
    · subst hvt
      have hut : ¬ (u == t) = true := by simpa using Ne.symm hne
      simp only [hut, Bool.false_eq_true, ↓reduceIte, beq_self_eq_true]
      exact ht
    · by_cases hvu : u = v
      · subst hvu
        have htu : ¬ (t == u) = true := by simpa using hne
        simp only [htu, Bool.false_eq_true, ↓reduceIte, beq_self_eq_true]
        exact hu
      · have h1 : ¬ (t == v) = true := by simpa using hvt
        have h2 : ¬ (u == v) = true := by simpa using hvu
        simp only [h1, h2, Bool.false_eq_true, ↓reduceIte]
        exact hv
  have := hsub.length_le
  simp only [List.length_cons] at this
  omega

/-- What a semaphore with the initial value `k` guarantees. -/
structure Correct (k : ℕ) (s : State T) : Prop where
  sleepers : (s.sem.sq.length : ℤ) = max 0 (-s.sem.value)
  asleep : ∀ t, t ∈ s.sem.sq ↔ s.phase t = .asleep
  value : s.sem.value = k + s.signals.length - s.waits.length
  bound : s.returned.length ≤ k + s.signals.length
  /-- Who was let through and who sleeps, one after the other, are the callers in their order. -/
  firstCome : s.granted ++ s.sem.sq = s.waits
  returned : s.returned.Subperm s.granted
  noBarging : ∀ t s', step s (.wait t) = some s' → s'.phase t ≠ .asleep → s.sem.sq = []
  noneLeft : 0 ≤ s.sem.value → s.sem.sq = []

theorem Inv.correct (h : Inv k s ws) : Correct k s where
  sleepers := h.balanced
  asleep := h.asleep
  value := h.value
  bound := by
    have hr := h.returned.length_eq
    have ho := congrArg List.length h.order
    have hb := h.balanced
    have hv := h.value
    simp only [List.length_append, Semaphore.Balanced] at hr ho hb
    omega
  firstCome := h.order
  returned := (List.sublist_append_left s.returned ws).subperm.trans h.returned.subperm
  noBarging := by
    intro t s' hs hne
    simp only [step, Option.ite_none_right_eq_some, Option.some.injEq] at hs
    obtain ⟨_, rfl⟩ := hs
    by_cases hsleep : mustSleep s.sem = true
    · rw [wait, if_pos hsleep] at hne
      exact absurd (Function.update_self t _ _) hne
    · have hpos : 0 < s.sem.value := by simpa [mustSleep] using hsleep
      exact h.sq_eq_nil hpos.le
  noneLeft := h.sq_eq_nil

/-- In every run the semaphore counts, and serves in order; with one permit and holders that signal once
each, at most one task is inside. -/
theorem correct_exec (k : ℕ) (as : List (Action T)) (s : State T)
    (h : exec step (init k) as = some s) : Correct k s ∧
      (k = 1 → Meets step HolderSignals (init k) as → ∀ t u, Inside s t → Inside s u → t = u) := by
  obtain ⟨ws, hi⟩ := inv_exec h
  have hc := hi.correct
  refine ⟨hc, ?_⟩
  rintro rfl hm t u ht hu
  have he : Entered s := exec_invariant (fun _ _ _ hi hg hs => entered_step hi hg hs)
    (fun v => by simp [init]) hm h
  refine inside_unique he ?_ ht hu
  have := hc.bound
  omega

end Preserve

theorem correct_handover : ∃ s : State ℕ,
    exec step (init 1) [.wait 0, .wait 1, .signal 0, .resume 1] = some s ∧ Correct 1 s ∧ Inside s 1 ∧
      ∀ t u, Inside s t → Inside s u → t = u := by
  have hc := correct_exec 1 [.wait (0 : ℕ), .wait 1, .signal 0, .resume 1] _ rfl
  refine ⟨_, rfl, hc.1, by unfold Inside; decide, hc.2 rfl ?_⟩
  refine meets_cons trivial rfl (meets_cons trivial rfl (meets_cons ?_ rfl
    (meets_cons trivial rfl trivial)))
  unfold HolderSignals Inside
  decide

end Eedox.SemaphoreOrder
