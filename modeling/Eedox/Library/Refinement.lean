import Mathlib.Data.List.Forall2
import Eedox.Library.Runs

namespace Eedox.Library.Refinement

open Runs

section calls

variable {σ β : Type*} {result : Option σ} {P : σ → Prop} {cond : Prop}

/-- The call goes through and leaves what it should. -/
def Yields (result : Option σ) (P : σ → Prop) : Prop := ∃ o, result = some o ∧ P o

/-- A condition under which the call is right, and without which it does not go through. -/
theorem yields_of_none (hspec : cond → Yields result P) (hnone : ¬cond → result = none) :
    cond ↔ Yields result P := by
  refine ⟨hspec, fun ⟨o, hresult, _⟩ => ?_⟩
  by_contra hc
  rw [hnone hc] at hresult
  cases hresult

/-- A condition under which the call is right, and without which it leaves something wrong. -/
theorem yields_of_wrong (hspec : cond → Yields result P) (hwrong : ¬cond → ∀ o, result = some o → ¬P o) :
    cond ↔ Yields result P := by
  refine ⟨hspec, fun ⟨o, hresult, ho⟩ => ?_⟩
  by_contra hc
  exact hwrong hc o hresult ho

/-- A call that returns no value. -/
theorem yields_silent : Yields result P ↔ ∃ o, result.map (fun o => (o, ([] : List β))) = some (o, []) ∧ P o := by
  simp [Yields]

end calls

section runs

variable {σ τ α : Type*} {step : σ → α → Option σ} {spec : τ → α → τ} {rel : σ → τ → Prop}
  {permitted guard : σ → α → Prop}

/-- The step goes through, to a state that is related to the one of the specification. -/
def Follows (step : σ → α → Option σ) (spec : τ → α → τ) (rel : σ → τ → Prop) (s : σ) (t : τ) (a : α) : Prop :=
  Yields (step s a) fun s' => rel s' (spec t a)

/-- Every prefix of the run goes through and ends where the specification does. -/
def Refines (step : σ → α → Option σ) (spec : τ → α → τ) (rel : σ → τ → Prop) (s : σ) (t : τ)
    (as : List α) : Prop :=
  ∀ pre, pre <+: as → ∃ s', exec step s pre = some s' ∧ rel s' (pre.foldl spec t)

theorem refines_cons {s : σ} {t : τ} {a : α} {as : List α} (h : rel s t) :
    Refines step spec rel s t (a :: as) ↔
      ∃ s', step s a = some s' ∧ rel s' (spec t a) ∧ Refines step spec rel s' (spec t a) as := by
  constructor
  · intro hall
    obtain ⟨s', hexec, hs'⟩ := hall [a] (List.cons_prefix_cons.mpr ⟨rfl, List.nil_prefix⟩)
    obtain ⟨s₁, hstep, hs₁⟩ := exec_cons.mp hexec
    obtain rfl := Option.some.inj hs₁
    refine ⟨s₁, hstep, hs', fun pre hpre => ?_⟩
    obtain ⟨s₂, hexec, hs₂⟩ := hall (a :: pre) (List.cons_prefix_cons.mpr ⟨rfl, hpre⟩)
    obtain ⟨s₃, hstep', hexec⟩ := exec_cons.mp hexec
    obtain rfl := Option.some.inj (hstep.symm.trans hstep')
    exact ⟨s₂, hexec, hs₂⟩
  · rintro ⟨s', hstep, -, hall⟩ pre hpre
    cases pre with
    | nil => exact ⟨s, rfl, h⟩
    | cons b pre =>
      obtain ⟨rfl, hrest⟩ := List.cons_prefix_cons.mp hpre
      obtain ⟨s₂, hexec, hs₂⟩ := hall pre hrest
      exact ⟨s₂, exec_cons.mpr ⟨s', hstep, hexec⟩, hs₂⟩

/-- Where a permitted step follows the specification exactly when it meets the guard, a permitted run refines it
exactly when all its steps do. -/
theorem meets_iff_refines
    (exact_guard : ∀ s t a, rel s t → permitted s a → (guard s a ↔ Follows step spec rel s t a))
    {s : σ} {t : τ} {as : List α} (h : rel s t) (hp : Meets step permitted s as) :
    Meets step guard s as ↔ Refines step spec rel s t as := by
  induction as generalizing s t with
  | nil =>
    refine ⟨fun _ pre hpre => ?_, fun _ => trivial⟩
    rw [List.prefix_nil.mp hpre]
    exact ⟨s, rfl, h⟩
  | cons a as ih =>
    obtain ⟨hpa, hps⟩ := hp
    rw [refines_cons h]
    constructor
    · rintro ⟨hga, hgs⟩
      obtain ⟨s', hstep, hs'⟩ := (exact_guard s t a h hpa).mp hga
      exact ⟨s', hstep, hs', (ih hs' (hps s' hstep)).mp (hgs s' hstep)⟩
    · rintro ⟨s', hstep, hs', hrest⟩
      exact meets_cons ((exact_guard s t a h hpa).mpr ⟨s', hstep, hs'⟩) hstep ((ih hs' (hps s' hstep)).mpr hrest)

/-- Where a step that meets the guard follows the specification, a run whose steps all do refines it. -/
theorem refines_of_meets (follow : ∀ s t a, rel s t → guard s a → Follows step spec rel s t a) {s : σ} {t : τ}
    {as : List α} (h : rel s t) (hg : Meets step guard s as) : Refines step spec rel s t as := by
  induction as generalizing s t with
  | nil =>
    intro pre hpre
    rw [List.prefix_nil.mp hpre]
    exact ⟨s, rfl, h⟩
  | cons a as ih =>
    obtain ⟨s', hstep, hs'⟩ := follow s t a h hg.1
    exact (refines_cons h).mpr ⟨s', hstep, hs', ih hs' (hg.2 s' hstep)⟩

/-- A step that follows the specification is taken in a run that is met step by step. -/
theorem meets_follows {s : σ} {t : τ} {a : α} {as : List α} (hf : Follows step spec rel s t a) (hg : guard s a)
    (hrest : ∀ s', step s a = some s' → rel s' (spec t a) → Meets step guard s' as) :
    Meets step guard s (a :: as) := by
  obtain ⟨s', hstep, hs'⟩ := hf
  exact meets_cons hg hstep (hrest s' hstep hs')

end runs

/-- A program makes objects, works on each of them and copies them. -/
inductive Call (γ α : Type*)
  | make (c : γ)
  | act (k : ℕ) (a : α)
  | copy (k : ℕ)

/-- The objects made so far, and what the calls have returned. -/
structure State (σ β : Type*) where
  objects : List σ
  out : List β

structure Kind (γ α β σ : Type*) where
  make : γ → Option σ
  act : σ → α → Option (σ × List β)
  copy : σ → Option σ

structure Abstract (γ α β τ : Type*) where
  make : γ → τ
  act : τ → α → τ × List β

section objects

variable {γ α β σ τ : Type*} (K : Kind γ α β σ) (A : Abstract γ α β τ)

def Kind.step (s : State σ β) : Call γ α → Option (State σ β)
  | .make c => (K.make c).map fun o => { s with objects := s.objects ++ [o] }
  | .act k a => s.objects[k]?.bind fun o => (K.act o a).map fun (o, r) => ⟨s.objects.set k o, s.out ++ r⟩
  | .copy k => s.objects[k]?.bind fun o => (K.copy o).map fun o => { s with objects := s.objects ++ [o] }

def Abstract.step (t : State τ β) : Call γ α → State τ β
  | .make c => { t with objects := t.objects ++ [A.make c] }
  | .act k a =>
    match t.objects[k]? with
    | some x => ⟨t.objects.set k (A.act x a).1, t.out ++ (A.act x a).2⟩
    | none => t
  | .copy k => { t with objects := t.objects ++ t.objects[k]?.toList }

/-- The objects stand for the abstract ones, each for its own, and the calls have returned the same. -/
structure Represents (rel : σ → τ → Prop) (s : State σ β) (t : State τ β) : Prop where
  objects : List.Forall₂ rel s.objects t.objects
  out : s.out = t.out

variable {rel : σ → τ → Prop} {allowed on : σ → α → Prop} {new : γ → Prop} {dup : σ → Prop}

/-- The call is for an object that there is. -/
def Permitted (allowed : σ → α → Prop) (s : State σ β) : Call γ α → Prop
  | .make _ => True
  | .act k a => ∃ o ∈ s.objects[k]?, allowed o a
  | .copy k => k < s.objects.length

instance [∀ o a, Decidable (allowed o a)] (s : State σ β) :
    (call : Call γ α) → Decidable (Permitted allowed s call)
  | .make _ => inferInstanceAs (Decidable True)
  | .act k _ => inferInstanceAs (Decidable (∃ o ∈ s.objects[k]?, _))
  | .copy _ => inferInstanceAs (Decidable (_ < _))

def Guard (new : γ → Prop) (on : σ → α → Prop) (dup : σ → Prop) (s : State σ β) : Call γ α → Prop
  | .make c => new c
  | .act k a => ∀ o ∈ s.objects[k]?, on o a
  | .copy k => ∀ o ∈ s.objects[k]?, dup o

theorem forall₂_getElem? {os : List σ} {xs : List τ} (h : List.Forall₂ rel os xs) {k : ℕ} {o : σ}
    (ho : os[k]? = some o) : ∃ x, xs[k]? = some x ∧ rel o x := by
  induction h generalizing k with
  | nil => cases ho
  | @cons p x ps xs hpx h ih =>
    cases k with
    | zero => exact ⟨x, rfl, Option.some.inj ho ▸ hpx⟩
    | succ k => exact ih ho

theorem forall₂_set {os : List σ} {xs : List τ} (h : List.Forall₂ rel os xs) (k : ℕ) {o : σ} {x : τ}
    (hox : rel o x) : List.Forall₂ rel (os.set k o) (xs.set k x) := by
  induction h generalizing k with
  | nil => exact .nil
  | cons hpx h ih =>
    cases k with
    | zero => exact .cons hox h
    | succ k => exact .cons hpx (ih k)

theorem forall₂_snoc {os : List σ} {xs : List τ} (h : List.Forall₂ rel os xs) {o : σ} {x : τ} :
    List.Forall₂ rel (os ++ [o]) (xs ++ [x]) ↔ rel o x := by
  refine ⟨fun hall => ?_, fun hox => List.rel_append h (.cons hox .nil)⟩
  have hlast : (os ++ [o])[os.length]? = some o := by simp
  obtain ⟨y, hy, hrel⟩ := forall₂_getElem? hall hlast
  rw [h.length_eq] at hy
  have hyx : (xs ++ [x])[xs.length]? = some x := by simp
  exact Option.some.inj (hyx.symm.trans hy) ▸ hrel

/-- Each call on one object follows its specification exactly when it meets its condition. -/
structure Exact (rel : σ → τ → Prop) (allowed : σ → α → Prop) (new : γ → Prop) (on : σ → α → Prop)
    (dup : σ → Prop) : Prop where
  make : ∀ c, new c ↔ ∃ o, K.make c = some o ∧ rel o (A.make c)
  act : ∀ o x a, rel o x → allowed o a →
    (on o a ↔ ∃ o', K.act o a = some (o', (A.act x a).2) ∧ rel o' (A.act x a).1)
  copy : ∀ o x, rel o x → (dup o ↔ ∃ o', K.copy o = some o' ∧ rel o' x)

variable {K A} {s : State σ β} {t : State τ β}

theorem Exact.make_iff (h : Exact K A rel allowed new on dup) (hr : Represents rel s t) (c : γ) :
    Guard new on dup s (.make c : Call γ α) ↔ Follows K.step A.step (Represents rel) s t (.make c) := by
  constructor
  · intro hc
    obtain ⟨o, ho, hrel⟩ := (h.make c).mp hc
    exact ⟨{ s with objects := s.objects ++ [o] }, by rw [Kind.step, ho, Option.map_some],
      (forall₂_snoc hr.objects).mpr hrel, hr.out⟩
  · rintro ⟨s', hstep, hs'⟩
    obtain ⟨o, ho, rfl⟩ := Option.map_eq_some_iff.mp hstep
    exact (h.make c).mpr ⟨o, ho, (forall₂_snoc hr.objects).mp hs'.objects⟩

theorem Exact.act_iff (h : Exact K A rel allowed new on dup) (hr : Represents rel s t) {k : ℕ} {a : α}
    (hp : Permitted allowed s (.act k a : Call γ α)) : Guard new on dup s (.act k a : Call γ α) ↔
      Follows K.step A.step (Represents rel) s t (.act k a) := by
  obtain ⟨o, ho, hallowed⟩ := hp
  obtain ⟨x, hx, hox⟩ := forall₂_getElem? hr.objects ho
  have hspec : A.step t (.act k a : Call γ α) = ⟨t.objects.set k (A.act x a).1, t.out ++ (A.act x a).2⟩ := by
    rw [Abstract.step, hx]
  constructor
  · intro hon
    obtain ⟨o', hact, hrel⟩ := (h.act o x a hox hallowed).mp (hon o ho)
    refine ⟨⟨s.objects.set k o', s.out ++ (A.act x a).2⟩, ?_, ?_⟩
    · rw [Kind.step, ho, Option.bind_some, hact, Option.map_some]
    · rw [hspec]
      exact ⟨forall₂_set hr.objects k hrel, congrArg (· ++ (A.act x a).2) hr.out⟩
  · rintro ⟨s', hstep, hs'⟩ o₁ ho₁
    obtain rfl := Option.some.inj (ho.symm.trans ho₁)
    rw [Kind.step, ho, Option.bind_some] at hstep
    obtain ⟨⟨o', r⟩, hact, rfl⟩ := Option.map_eq_some_iff.mp hstep
    rw [hspec] at hs'
    have hout : r = (A.act x a).2 := by
      have hout := hs'.out
      simp only at hout
      rw [hr.out] at hout
      exact List.append_cancel_left hout
    have hk : (s.objects.set k o')[k]? = some o' := by
      rw [List.getElem?_set_self]
      exact (List.getElem?_eq_some_iff.mp ho).1
    obtain ⟨y, hy, hrel⟩ := forall₂_getElem? hs'.objects hk
    rw [List.getElem?_set_self (List.getElem?_eq_some_iff.mp hx).1] at hy
    exact (h.act o x a hox hallowed).mpr ⟨o', hout ▸ hact, Option.some.inj hy ▸ hrel⟩

theorem Exact.copy_iff (h : Exact K A rel allowed new on dup) (hr : Represents rel s t) {k : ℕ}
    (hp : Permitted allowed s (.copy k : Call γ α)) : Guard new on dup s (.copy k : Call γ α) ↔
      Follows K.step A.step (Represents rel) s t (.copy k) := by
  have ho : s.objects[k]? = some s.objects[k] := List.getElem?_eq_getElem hp
  obtain ⟨x, hx, hox⟩ := forall₂_getElem? hr.objects ho
  have hspec : A.step t (.copy k : Call γ α) = { t with objects := t.objects ++ [x] } := by
    rw [Abstract.step, hx]
    rfl
  constructor
  · intro hdup
    obtain ⟨o', hcopy, hrel⟩ := (h.copy _ x hox).mp (hdup _ ho)
    refine ⟨{ s with objects := s.objects ++ [o'] }, ?_, ?_⟩
    · rw [Kind.step, ho, Option.bind_some, hcopy, Option.map_some]
    · rw [hspec]
      exact ⟨(forall₂_snoc hr.objects).mpr hrel, hr.out⟩
  · rintro ⟨s', hstep, hs'⟩ o ho'
    obtain rfl := Option.some.inj (ho.symm.trans ho')
    rw [Kind.step, ho, Option.bind_some] at hstep
    obtain ⟨o', hcopy, rfl⟩ := Option.map_eq_some_iff.mp hstep
    rw [hspec] at hs'
    exact (h.copy _ x hox).mpr ⟨o', hcopy, (forall₂_snoc hr.objects).mp hs'.objects⟩

/-- A program refines its specification exactly as long as its calls meet their conditions. -/
theorem Exact.run_iff (h : Exact K A rel allowed new on dup) {calls : List (Call γ α)}
    (hr : Represents rel s t) (hp : Meets K.step (Permitted allowed) s calls) :
    Meets K.step (Guard new on dup) s calls ↔ Refines K.step A.step (Represents rel) s t calls := by
  refine meets_iff_refines (fun s t a hr hp => ?_) hr hp
  cases a with
  | make c => exact h.make_iff hr c
  | act k a => exact h.act_iff hr hp
  | copy k => exact h.copy_iff hr hp

end objects

end Eedox.Library.Refinement
