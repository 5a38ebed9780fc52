import Mathlib.Algebra.BigOperators.Group.Finset.Basic
import Mathlib.Algebra.Order.BigOperators.Group.Finset

namespace Eedox.Library.Tally

variable {ι α : Type*} [Fintype ι]

/-- The weights of the values of a finite family, added up. -/
def tally (w : α → ℕ) (f : ι → α) : ℕ := ∑ i, w (f i)

theorem tally_update [DecidableEq ι] (w : α → ℕ) (f : ι → α) (i : ι) (x : α) :
    tally w (Function.update f i x) + w (f i) = tally w f + w x := by
  have hrest : ∑ j ∈ Finset.univ.erase i, w (Function.update f i x j) =
      ∑ j ∈ Finset.univ.erase i, w (f j) := by
    apply Finset.sum_congr rfl
    intro j hj
    rw [Function.update_of_ne (Finset.ne_of_mem_erase hj)]
  have hnew := Finset.add_sum_erase Finset.univ (fun j => w (Function.update f i x j))
    (Finset.mem_univ i)
  have hold := Finset.add_sum_erase Finset.univ (fun j => w (f j)) (Finset.mem_univ i)
  simp only [Function.update_self, hrest] at hnew
  simp only [tally]
  omega

theorem tally_eq_zero {w : α → ℕ} {f : ι → α} (h : ∀ i, w (f i) = 0) : tally w f = 0 :=
  Finset.sum_eq_zero fun i _ => h i

end Eedox.Library.Tally
