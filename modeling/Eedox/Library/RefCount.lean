import Mathlib.Data.List.Count
import Mathlib.Logic.Function.Basic

namespace Eedox.Library.RefCount

variable {ι : Type*} [DecidableEq ι]

/-- The counter of each live object is the number of the references that are held to it. -/
structure Balanced (live : ι → Prop) (count : ι → ℕ) (refs : List ι) : Prop where
  refsLive : ∀ i ∈ refs, live i
  counted : ∀ i, live i → count i = refs.count i

variable {live live' : ι → Prop} {count count' : ι → ℕ} {refs refs' : List ι} {i : ι}

theorem Balanced.congr (h : Balanced live count refs) (hc : ∀ i, live i → count' i = count i) :
    Balanced live count' refs :=
  ⟨h.refsLive, fun i hi => (hc i hi).trans (h.counted i hi)⟩

theorem Balanced.perm (h : Balanced live count refs) (hp : refs.Perm refs') :
    Balanced live count refs' :=
  ⟨fun i hi => h.refsLive i (hp.mem_iff.mpr hi), fun i hi => (h.counted i hi).trans (hp.count_eq i)⟩

theorem Balanced.pos (h : Balanced live count refs) (hi : i ∈ refs) : 0 < count i := by
  rw [h.counted i (h.refsLive i hi)]
  exact List.count_pos_iff.mpr hi

theorem Balanced.eq_zero_iff (h : Balanced live count refs) (hi : live i) :
    count i = 0 ↔ i ∉ refs := by
  rw [h.counted i hi, List.count_eq_zero]

theorem Balanced.acquire (h : Balanced live count refs) (hi : live i) :
    Balanced live (Function.update count i (count i + 1)) (i :: refs) where
  refsLive := by
    intro j hj
    rcases List.mem_cons.mp hj with rfl | hj
    · exact hi
    · exact h.refsLive j hj
  counted := by
    intro j hj
    by_cases hji : j = i
    · subst hji
      rw [Function.update_self, List.count_cons_self, h.counted j hj]
    · rw [Function.update_of_ne hji, List.count_cons_of_ne (Ne.symm hji), h.counted j hj]

theorem Balanced.release (h : Balanced live count (i :: refs)) :
    Balanced live (Function.update count i (count i - 1)) refs where
  refsLive := fun j hj => h.refsLive j (List.mem_cons_of_mem i hj)
  counted := by
    intro j hj
    by_cases hji : j = i
    · subst hji
      rw [Function.update_self, h.counted j hj, List.count_cons_self, Nat.add_sub_cancel]
    · rw [Function.update_of_ne hji, h.counted j hj, List.count_cons_of_ne (Ne.symm hji)]

theorem Balanced.create (h : Balanced live count refs) (hi : ¬live i) (n : ℕ)
    (hl : ∀ j, live' j ↔ j = i ∨ live j) (hn : count' i = n) (hc : ∀ j, live j → count' j = count j) :
    Balanced live' count' (List.replicate n i ++ refs) where
  refsLive := by
    intro j hj
    rw [hl]
    rcases List.mem_append.mp hj with hj | hj
    · exact Or.inl (List.eq_of_mem_replicate hj)
    · exact Or.inr (h.refsLive j hj)
  counted := by
    intro j hj
    rw [List.count_append, List.count_replicate]
    by_cases hji : j = i
    · subst hji
      have h0 : refs.count j = 0 := List.count_eq_zero.mpr fun hm => hi (h.refsLive j hm)
      simp [hn, h0]
    · have hlj := ((hl j).mp hj).resolve_left hji
      rw [hc j hlj, h.counted j hlj]
      simp [Ne.symm hji]

theorem Balanced.destroy (h : Balanced live count refs) (hi : i ∉ refs)
    (hl : ∀ j, live' j → live j) (hd : ∀ j, live j → j ≠ i → live' j) :
    Balanced live' count refs :=
  ⟨fun j hj => hd j (h.refsLive j hj) fun he => hi (he ▸ hj), fun j hj => h.counted j (hl j hj)⟩

end Eedox.Library.RefCount
