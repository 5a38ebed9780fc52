import Mathlib.Data.List.Basic
import Mathlib.Logic.Function.Basic

namespace Eedox.Library.ArrayHeap

variable {α : Type*}

/-- Memory as blocks of cells of one type; only what is in a live block can be read or written. -/
structure Heap (α : Type*) where
  cell : ℕ → ℕ → α
  room : ℕ → ℕ
  live : List ℕ

def empty (cell : ℕ → ℕ → α) : Heap α := ⟨cell, fun _ => 0, []⟩

/-- A new block of `n` cells at an address that no live block has. -/
def alloc (h : Heap α) (p n : ℕ) (junk : ℕ → α) : Option (Heap α) :=
  if p ∈ h.live then none
  else some ⟨Function.update h.cell p junk, Function.update h.room p n, p :: h.live⟩

def free (h : Heap α) (p : ℕ) : Heap α := { h with live := h.live.filter fun q => q ≠ p }

def load (h : Heap α) (p i : ℕ) : Option α := if p ∈ h.live ∧ i < h.room p then some (h.cell p i) else none

def store (h : Heap α) (p i : ℕ) (a : α) : Option (Heap α) :=
  if p ∈ h.live ∧ i < h.room p then
    some { h with cell := Function.update h.cell p (Function.update (h.cell p) i a) }
  else none

def copy (h : Heap α) (dest src n : ℕ) : Option (Heap α) :=
  if (dest ∈ h.live ∧ n ≤ h.room dest) ∧ src ∈ h.live ∧ n ≤ h.room src then
    some { h with
      cell := Function.update h.cell dest fun i => if i < n then h.cell src i else h.cell dest i }
  else none

/-- All blocks but the one at `p` are left as they are. -/
def Frame (h t : Heap α) (p : ℕ) : Prop :=
  ∀ q ∈ h.live, q ≠ p → q ∈ t.live ∧ t.cell q = h.cell q ∧ t.room q = h.room q

variable {h t u : Heap α} {p q i n : ℕ} {a : α} {junk : ℕ → α}

theorem Frame.refl (h : Heap α) (p : ℕ) : Frame h h p := fun _ hq _ => ⟨hq, rfl, rfl⟩

theorem Frame.trans (ht : Frame h t p) (hu : Frame t u p) : Frame h u p := by
  intro q hq hne
  obtain ⟨hlive, hcell, hroom⟩ := ht q hq hne
  obtain ⟨hlive', hcell', hroom'⟩ := hu q hlive hne
  exact ⟨hlive', hcell'.trans hcell, hroom'.trans hroom⟩

/-- A frame for a block that is not there holds for any block. -/
theorem Frame.absent (ht : Frame h t q) (hq : q ∉ h.live) (p : ℕ) : Frame h t p := by
  intro r hr _
  exact ht r hr fun he => hq (he ▸ hr)

theorem alloc_fresh (hp : p ∉ h.live) (n : ℕ) (junk : ℕ → α) : ∃ t, alloc h p n junk = some t ∧
    Frame h t p ∧ p ∈ t.live ∧ t.room p = n ∧ t.cell p = junk := by
  refine ⟨_, if_neg hp, ?_, List.mem_cons_self, Function.update_self .., Function.update_self ..⟩
  intro q hq hne
  exact ⟨List.mem_cons_of_mem p hq, Function.update_of_ne hne .., Function.update_of_ne hne ..⟩

theorem load_live (hp : p ∈ h.live) (hi : i < h.room p) : load h p i = some (h.cell p i) :=
  if_pos ⟨hp, hi⟩

theorem store_live (hp : p ∈ h.live) (hi : i < h.room p) (a : α) : ∃ t, store h p i a = some t ∧
    Frame h t p ∧ p ∈ t.live ∧ t.room p = h.room p ∧ t.cell p = Function.update (h.cell p) i a := by
  refine ⟨_, if_pos ⟨hp, hi⟩, ?_, hp, rfl, Function.update_self ..⟩
  intro q hq hne
  exact ⟨hq, Function.update_of_ne hne .., rfl⟩

theorem copy_live (hq : q ∈ h.live) (hn : n ≤ h.room q) (hp : p ∈ h.live) (hn' : n ≤ h.room p) :
    ∃ t, copy h q p n = some t ∧ Frame h t q ∧ t.live = h.live ∧ t.room = h.room ∧
      t.cell q = fun i => if i < n then h.cell p i else h.cell q i := by
  refine ⟨_, if_pos ⟨⟨hq, hn⟩, hp, hn'⟩, ?_, rfl, rfl, Function.update_self ..⟩
  intro r hr hne
  exact ⟨hr, Function.update_of_ne hne .., rfl⟩

theorem free_frame (h : Heap α) (p : ℕ) : Frame h (free h p) p := by
  intro q hq hne
  exact ⟨List.mem_filter.mpr ⟨hq, decide_eq_true hne⟩, rfl, rfl⟩

end Eedox.Library.ArrayHeap
