import Mathlib.Data.List.Basic

namespace Eedox.Library.Runs

variable {σ α : Type*}

/-- A run of a partial step function; a label that is not enabled ends it. -/
def exec (step : σ → α → Option σ) : σ → List α → Option σ
  | s, [] => some s
  | s, a :: as => (step s a).bind (fun t => exec step t as)

/-- Every step of the run is taken in a state that meets the guard. -/
def Meets (step : σ → α → Option σ) (guard : σ → α → Prop) : σ → List α → Prop
  | _, [] => True
  | s, a :: as => guard s a ∧ ∀ t, step s a = some t → Meets step guard t as

variable {step : σ → α → Option σ} {guard : σ → α → Prop}

@[simp] theorem exec_nil (s : σ) : exec step s [] = some s := rfl

theorem exec_cons {s u : σ} {a : α} {as : List α} :
    exec step s (a :: as) = some u ↔ ∃ t, step s a = some t ∧ exec step t as = some u := by
  simp only [exec, Option.bind_eq_some_iff]

theorem meets_cons {s t : σ} {a : α} {as : List α} (hg : guard s a) (ht : step s a = some t)
    (h : Meets step guard t as) : Meets step guard s (a :: as) := by
  refine ⟨hg, fun u hu => ?_⟩
  obtain rfl : t = u := Option.some.inj (ht.symm.trans hu)
  exact h

/-- A guard that can be tested can be tested along a run. -/
instance decidableMeets [∀ s a, Decidable (guard s a)] :
    (s : σ) → (as : List α) → Decidable (Meets step guard s as)
  | _, [] => .isTrue trivial
  | s, a :: as =>
    match ht : step s a with
    | none => decidable_of_iff (guard s a) ⟨fun hg => ⟨hg, fun t h => by
        rw [ht] at h
        cases h⟩, fun h => h.1⟩
    | some t =>
      have := decidableMeets t as
      decidable_of_iff (guard s a ∧ Meets step guard t as)
        ⟨fun h => meets_cons h.1 ht h.2, fun h => ⟨h.1, h.2 t ht⟩⟩

theorem meets_snoc {s : σ} {as : List α} {a : α} : Meets step guard s (as ++ [a]) ↔
    Meets step guard s as ∧ ∀ t, exec step s as = some t → guard t a := by
  induction as generalizing s with
  | nil => simp [Meets]
  | cons b as ih =>
    simp only [List.cons_append, Meets, ih, exec_cons]
    constructor
    · rintro ⟨hb, h⟩
      refine ⟨⟨hb, fun t ht => (h t ht).1⟩, ?_⟩
      rintro u ⟨t, ht, hu⟩
      exact (h t ht).2 u hu
    · rintro ⟨⟨hb, h⟩, hlast⟩
      exact ⟨hb, fun t ht => ⟨h t ht, fun u hu => hlast u ⟨t, ht, hu⟩⟩⟩

theorem meets_true (s : σ) (as : List α) : Meets step (fun _ _ => True) s as := by
  induction as generalizing s with
  | nil => trivial
  | cons a as ih => exact ⟨trivial, fun t _ => ih t⟩

/-- The invariant rule for runs whose steps all meet a guard. -/
theorem exec_invariant {inv : σ → Prop}
    (preserve : ∀ s a t, inv s → guard s a → step s a = some t → inv t)
    {s t : σ} {as : List α} (hs : inv s) (hg : Meets step guard s as)
    (ht : exec step s as = some t) : inv t := by
  induction as generalizing s with
  | nil =>
    obtain rfl : s = t := by simpa using ht
    exact hs
  | cons a as ih =>
    obtain ⟨u, hu, hrest⟩ := exec_cons.mp ht
    exact ih (preserve s a u hs hg.1 hu) (hg.2 u hu) hrest

/-- What the guard gives in the states of the invariant holds of all steps of a guarded run. -/
theorem meets_imp {inv : σ → Prop} {claim : σ → α → Prop}
    (preserve : ∀ s a t, inv s → guard s a → step s a = some t → inv t)
    (imp : ∀ s a, inv s → guard s a → claim s a) {s : σ} {as : List α} (hs : inv s)
    (hg : Meets step guard s as) : Meets step claim s as := by
  induction as generalizing s with
  | nil => trivial
  | cons a as ih => exact ⟨imp s a hs hg.1, fun t ht => ih (preserve s a t hs hg.1 ht) (hg.2 t ht)⟩

/-- Where each step from a good state leads to a good one exactly when it meets the guard, a run stays
in good states exactly when all its steps do. -/
theorem meets_iff_prefixes {inv good : σ → Prop}
    (preserve : ∀ s a t, inv s → good s → step s a = some t → inv t)
    (exact_guard : ∀ s a t, inv s → good s → step s a = some t → (good t ↔ guard s a))
    {s u : σ} {as : List α} (hs : inv s) (hg : good s) (hu : exec step s as = some u) :
    Meets step guard s as ↔ ∀ bs t, bs <+: as → exec step s bs = some t → good t := by
  induction as generalizing s with
  | nil =>
    refine ⟨fun _ bs t hb ht => ?_, fun _ => trivial⟩
    rw [List.prefix_nil.mp hb, exec_nil, Option.some.injEq] at ht
    exact ht ▸ hg
  | cons a as ih =>
    obtain ⟨v, hv, hrest⟩ := exec_cons.mp hu
    have hstep := exact_guard s a v hs hg hv
    have hinv := preserve s a v hs hg hv
    constructor
    · rintro ⟨hga, hm⟩ bs t hb ht
      have hgv := hstep.mpr hga
      cases bs with
      | nil => exact Option.some.inj ht ▸ hg
      | cons b bs =>
        obtain ⟨rfl, hrun⟩ := List.cons_prefix_cons.mp hb
        obtain ⟨w, hw, ht⟩ := exec_cons.mp ht
        obtain rfl : v = w := Option.some.inj (hv.symm.trans hw)
        exact (ih hinv hgv hrest).mp (hm v hv) bs t hrun ht
    · intro h
      have hgv : good v := h [a] v (List.cons_prefix_cons.mpr ⟨rfl, List.nil_prefix⟩)
        (exec_cons.mpr ⟨v, hv, rfl⟩)
      refine meets_cons (hstep.mp hgv) hv ((ih hinv hgv hrest).mpr fun bs t hb ht => ?_)
      exact h (a :: bs) t (List.cons_prefix_cons.mpr ⟨rfl, hb⟩) (exec_cons.mpr ⟨v, hv, ht⟩)

/-- Where a claim about a step holds exactly when the step meets the guard, it holds of each step of a
run exactly when all of them do. -/
theorem meets_iff_steps {inv : σ → Prop} {claim : σ → α → Prop}
    (preserve : ∀ s a t, inv s → guard s a → step s a = some t → inv t)
    (exact_guard : ∀ s a, inv s → (claim s a ↔ guard s a)) {s : σ} {as : List α} (hs : inv s) :
    Meets step guard s as ↔
      ∀ bs a t, bs ++ [a] <+: as → exec step s bs = some t → claim t a := by
  induction as generalizing s with
  | nil =>
    refine ⟨fun _ bs a t hb _ => ?_, fun _ => trivial⟩
    exact absurd (List.prefix_nil.mp hb) (by simp)
  | cons b as ih =>
    constructor
    · rintro ⟨hgb, hm⟩ bs a t hb ht
      cases bs with
      | nil =>
        obtain ⟨rfl, -⟩ := List.cons_prefix_cons.mp hb
        obtain rfl := Option.some.inj ht
        exact (exact_guard s a hs).mpr hgb
      | cons c bs =>
        obtain ⟨rfl, hrun⟩ := List.cons_prefix_cons.mp hb
        obtain ⟨v, hv, ht⟩ := exec_cons.mp ht
        exact (ih (preserve s c v hs hgb hv)).mp (hm v hv) bs a t hrun ht
    · intro h
      have hgb : guard s b := (exact_guard s b hs).mp
        (h [] b s (List.cons_prefix_cons.mpr ⟨rfl, List.nil_prefix⟩) rfl)
      refine ⟨hgb, fun v hv => (ih (preserve s b v hs hgb hv)).mpr fun bs a t hb ht => ?_⟩
      exact h (b :: bs) a t (List.cons_prefix_cons.mpr ⟨rfl, hb⟩) (exec_cons.mpr ⟨v, hv, ht⟩)

theorem exec_total (f : σ → α → σ) (s : σ) (as : List α) :
    exec (fun s a => some (f s a)) s as = some (as.foldl f s) := by
  induction as generalizing s with
  | nil => rfl
  | cons a as ih => exact ih (f s a)

/-- Where what is lost is not regained, the last state tells about all. -/
theorem good_of_last {inv good : σ → Prop} (preserve : ∀ s a t, inv s → step s a = some t → inv t)
    (back : ∀ s a t, inv s → step s a = some t → good t → good s)
    {s u : σ} {as : List α} (hs : inv s) (hu : exec step s as = some u) (hg : good u) : good s := by
  induction as generalizing s with
  | nil => exact Option.some.inj hu ▸ hg
  | cons a as ih =>
    obtain ⟨v, hv, hrest⟩ := exec_cons.mp hu
    exact back s a v hs hv (ih (preserve s a v hs hv) hrest)

theorem meets_iff_last {inv good : σ → Prop} (preserve : ∀ s a t, inv s → step s a = some t → inv t)
    (exact_guard : ∀ s a t, inv s → good s → step s a = some t → (good t ↔ guard s a))
    (back : ∀ s a t, inv s → step s a = some t → good t → good s)
    {s u : σ} {as : List α} (hs : inv s) (hg : good s) (hu : exec step s as = some u) :
    Meets step guard s as ↔ good u := by
  induction as generalizing s with
  | nil =>
    obtain rfl : s = u := Option.some.inj hu
    exact ⟨fun _ => hg, fun _ => trivial⟩
  | cons a as ih =>
    obtain ⟨v, hv, hrest⟩ := exec_cons.mp hu
    have hinv := preserve s a v hs hv
    have hstep := exact_guard s a v hs hg hv
    constructor
    · rintro ⟨hga, hm⟩
      exact (ih hinv (hstep.mpr hga) hrest).mp (hm v hv)
    · intro hlast
      have hgv := good_of_last preserve back hinv hrest hlast
      exact meets_cons (hstep.mp hgv) hv ((ih hinv hgv hrest).mpr hlast)

end Eedox.Library.Runs
