import Mathlib.Data.List.Basic
import Mathlib.Data.List.Pairwise
import Mathlib.Order.Nat

namespace Eedox.Library.MaximalRuns

variable {sep : ℕ → Bool} {n i turns s e : ℕ} {pending : Option ℕ}

/-- Among the positions below `n`, those from `s` up to `e` make a maximal run without separators. -/
structure IsRun (sep : ℕ → Bool) (n s e : ℕ) : Prop where
  lt : s < e
  le : e ≤ n
  inside : ∀ k, s ≤ k → k < e → sep k = false
  left : s = 0 ∨ sep (s - 1) = true
  right : e = n ∨ sep e = true

/-- Each run ends in front of the start of the next. -/
def Apart (runs : List (ℕ × ℕ)) : Prop := runs.Pairwise fun r r' => r.2 < r'.1

/-- The runs that a separator ends, over the positions from `i` on; a pending run started at the position in
`pending`. -/
def scan (sep : ℕ → Bool) : (turns i : ℕ) → (pending : Option ℕ) → List (ℕ × ℕ)
  | 0, _, _ => []
  | turns + 1, i, none => if sep i then scan sep turns (i + 1) none else scan sep turns (i + 1) (some i)
  | turns + 1, i, some s => if sep i then (s, i) :: scan sep turns (i + 1) none else scan sep turns (i + 1) (some s)

/-- The run that no separator has ended. -/
def scanPending (sep : ℕ → Bool) : (turns i : ℕ) → (pending : Option ℕ) → Option ℕ
  | 0, _, pending => pending
  | turns + 1, i, pending =>
    scanPending sep turns (i + 1) (if sep i then none else some (pending.getD i))

/-- What a pending run says about the positions in front of `i`. -/
def Pends (sep : ℕ → Bool) (i : ℕ) : (pending : Option ℕ) → Prop
  | none => i = 0 ∨ sep (i - 1) = true
  | some s => s < i ∧ (s = 0 ∨ sep (s - 1) = true) ∧ ∀ k, s ≤ k → k < i → sep k = false

theorem pends_start : Pends sep 0 none := Or.inl rfl

theorem pends_sep (hsep : sep i = true) : Pends sep (i + 1) none := Or.inr hsep

theorem pends_open (h : Pends sep i none) (hsep : sep i = false) : Pends sep (i + 1) (some i) :=
  ⟨Nat.lt_succ_self i, h, fun k hk hk' => by rwa [show k = i by omega]⟩

theorem pends_more (h : Pends sep i (some s)) (hsep : sep i = false) : Pends sep (i + 1) (some s) := by
  refine ⟨Nat.lt_succ_of_lt h.1, h.2.1, fun k hk hk' => ?_⟩
  by_cases hlast : k = i
  · rwa [hlast]
  · exact h.2.2 k hk (by omega)

/-- A pending run is the start of every run that begins in it. -/
theorem IsRun.start_eq {a b : ℕ} (hrun : IsRun sep n a b) (h : Pends sep i (some s)) (hsa : s ≤ a) (hai : a < i) :
    a = s := by
  by_contra hne
  rcases hrun.left with hzero | hsep
  · omega
  · rw [h.2.2 (a - 1) (by omega) (by omega)] at hsep
    cases hsep

/-- The scan finds the maximal runs that end in front of the last position. -/
theorem mem_scan (h : Pends sep i pending) : (s, e) ∈ scan sep turns i pending ↔
    IsRun sep (i + turns) s e ∧ e < i + turns ∧ pending.getD i ≤ s := by
  induction turns generalizing i pending with
  | zero =>
    rw [scan]
    constructor
    · intro hmem
      cases hmem
    · rintro ⟨hrun, hlt, hle⟩
      cases pending with
      | none => exact absurd (Nat.lt_trans hrun.lt hlt) (by rw [Option.getD_none] at hle; omega)
      | some start =>
        rw [Option.getD_some] at hle
        have hlt' := hrun.lt
        obtain rfl := hrun.start_eq h hle (by omega)
        rcases hrun.right with hend | hsep
        · omega
        · rw [h.2.2 e (by omega) (by omega)] at hsep
          cases hsep
  | succ turns ih =>
    rw [show i + (turns + 1) = i + 1 + turns by omega]
    cases pending with
    | none =>
      rw [scan]
      by_cases hsep : sep i = true
      · rw [if_pos hsep, ih (pends_sep hsep), Option.getD_none, Option.getD_none]
        refine and_congr_right fun hrun => and_congr_right fun _ => ⟨by omega, fun hle => ?_⟩
        by_contra hlt
        rw [show s = i by omega] at hrun
        have hin := hrun.inside i le_rfl hrun.lt
        rw [hsep] at hin
        cases hin
      · rw [if_neg hsep, ih (pends_open h (by simpa using hsep)), Option.getD_some, Option.getD_none]
    | some start =>
      rw [scan]
      by_cases hsep : sep i = true
      · rw [if_pos hsep, List.mem_cons, ih (pends_sep hsep), Option.getD_none, Option.getD_some, Prod.mk.injEq]
        constructor
        · rintro (⟨rfl, rfl⟩ | ⟨hrun, hlt, hle⟩)
          · exact ⟨⟨h.1, by omega, h.2.2, h.2.1, Or.inr hsep⟩, by omega, le_rfl⟩
          · exact ⟨hrun, hlt, by have := h.1; omega⟩
        · rintro ⟨hrun, hlt, hle⟩
          by_cases hai : s < i
          · obtain rfl := hrun.start_eq h hle hai
            left
            refine ⟨rfl, ?_⟩
            by_contra hne
            have hlt' := hrun.lt
            by_cases hei : e < i
            · rcases hrun.right with hend | hsep'
              · omega
              · rw [h.2.2 e (by omega) hei] at hsep'
                cases hsep'
            · have hin := hrun.inside i (by omega) (by omega)
              rw [hsep] at hin
              cases hin
          · right
            refine ⟨hrun, hlt, ?_⟩
            by_contra hlt'
            have hin := hrun.inside i (by omega) (by have := hrun.lt; omega)
            rw [hsep] at hin
            cases hin
      · rw [if_neg hsep, ih (pends_more h (by simpa using hsep)), Option.getD_some, Option.getD_some]

theorem scan_apart (h : Pends sep i pending) : Apart (scan sep turns i pending) := by
  induction turns generalizing i pending with
  | zero => exact List.Pairwise.nil
  | succ turns ih =>
    cases pending with
    | none =>
      rw [scan]
      split_ifs with hsep
      · exact ih (pends_sep hsep)
      · exact ih (pends_open h (by simpa using hsep))
    | some start =>
      rw [scan]
      split_ifs with hsep
      · refine List.pairwise_cons.mpr ⟨fun r hr => ?_, ih (pends_sep hsep)⟩
        have hmem := (mem_scan (pends_sep hsep)).mp (show (r.1, r.2) ∈ _ from hr)
        rw [Option.getD_none] at hmem
        exact hmem.2.2
      · exact ih (pends_more h (by simpa using hsep))

/-- A separator at the end ends every run. -/
theorem isRun_succ (hsep : sep n = true) : IsRun sep (n + 1) s e ∧ e < n + 1 ↔ IsRun sep n s e := by
  constructor
  · rintro ⟨hrun, hlt⟩
    refine ⟨hrun.lt, by omega, hrun.inside, hrun.left, ?_⟩
    rcases hrun.right with hend | hend
    · omega
    · exact Or.inr hend
  · intro hrun
    have hle := hrun.le
    refine ⟨⟨hrun.lt, by omega, hrun.inside, hrun.left, ?_⟩, by omega⟩
    rcases hrun.right with rfl | hend
    · exact Or.inr hsep
    · exact Or.inr hend

theorem pends_scanPending (h : Pends sep i pending) : Pends sep (i + turns) (scanPending sep turns i pending) := by
  induction turns generalizing i pending with
  | zero => exact h
  | succ turns ih =>
    rw [scanPending, show i + (turns + 1) = i + 1 + turns by omega]
    apply ih
    by_cases hsep : sep i = true
    · rw [if_pos hsep]
      exact pends_sep hsep
    · rw [if_neg hsep]
      cases pending with
      | none => exact pends_open h (by simpa using hsep)
      | some start => exact pends_more h (by simpa using hsep)

/-- All maximal runs among the positions below `n`, in order. -/
def runsOf (sep : ℕ → Bool) (n : ℕ) : List (ℕ × ℕ) :=
  scan sep n 0 none ++ (scanPending sep n 0 none).toList.map fun s => (s, n)

theorem mem_runsOf : (s, e) ∈ runsOf sep n ↔ IsRun sep n s e := by
  have hpends := @pends_scanPending sep 0 n none pends_start
  have hscan := @mem_scan sep 0 n s e none pends_start
  rw [Nat.zero_add] at hpends hscan
  rw [runsOf, List.mem_append, hscan, Option.getD_none]
  cases hpending : scanPending sep n 0 none with
  | none =>
    rw [hpending] at hpends
    rw [Option.toList_none, List.map_nil]
    constructor
    · rintro (hrun | hnone)
      · exact hrun.1
      · cases hnone
    · intro hrun
      refine Or.inl ⟨hrun, lt_of_le_of_ne hrun.le fun hend => ?_, Nat.zero_le s⟩
      have hlt := hrun.lt
      rcases hpends with hzero | hsep
      · omega
      · rw [hrun.inside (n - 1) (by omega) (by omega)] at hsep
        cases hsep
  | some start =>
    rw [hpending] at hpends
    rw [Option.toList_some, List.map_singleton, List.mem_singleton, Prod.mk.injEq]
    constructor
    · rintro (hrun | ⟨rfl, rfl⟩)
      · exact hrun.1
      · exact ⟨hpends.1, le_rfl, hpends.2.2, hpends.2.1, Or.inl rfl⟩
    · intro hrun
      by_cases hend : e = n
      · subst hend
        refine Or.inr ⟨?_, rfl⟩
        by_cases hle : start ≤ s
        · exact hrun.start_eq hpends hle hrun.lt
        · rcases hpends.2.1 with hzero | hsep
          · omega
          · have hlt := hpends.1
            rw [hrun.inside (start - 1) (by omega) (by omega)] at hsep
            cases hsep
      · exact Or.inl ⟨hrun, lt_of_le_of_ne hrun.le hend, Nat.zero_le s⟩

theorem runsOf_apart (sep : ℕ → Bool) (n : ℕ) : Apart (runsOf sep n) := by
  refine List.pairwise_append.mpr ⟨scan_apart pends_start, ?_, fun r hr r' hr' => ?_⟩
  · cases scanPending sep n 0 none with
    | none => exact List.Pairwise.nil
    | some start => exact List.pairwise_singleton _ _
  · obtain ⟨start, hstart, rfl⟩ := List.mem_map.mp hr'
    have hpends := @pends_scanPending sep 0 n none pends_start
    rw [Option.mem_toList.mp hstart, Nat.zero_add] at hpends
    have hrun := (@mem_scan sep 0 n r.1 r.2 none pends_start).mp hr
    rw [Nat.zero_add] at hrun
    change r.2 < start
    rcases hrun.1.right with hend | hsep
    · omega
    · by_contra hle
      rw [hpends.2.2 r.2 (by omega) hrun.2.1] at hsep
      cases hsep

/-- Every run is ended by a separator exactly when the last position is one. -/
theorem scanPending_eq_none : scanPending sep n 0 none = none ↔ n = 0 ∨ sep (n - 1) = true := by
  have hpends := @pends_scanPending sep 0 n none pends_start
  rw [Nat.zero_add] at hpends
  cases hpending : scanPending sep n 0 none with
  | none =>
    rw [hpending] at hpends
    exact ⟨fun _ => hpends, fun _ => rfl⟩
  | some start =>
    rw [hpending] at hpends
    have hlt := hpends.1
    constructor
    · intro h
      cases h
    rintro (hzero | hsep)
    · omega
    · rw [hpends.2.2 (n - 1) (by omega) (by omega)] at hsep
      cases hsep

end Eedox.Library.MaximalRuns
