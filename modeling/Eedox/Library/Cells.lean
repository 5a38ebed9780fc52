import Eedox.Library.Assoc

namespace Eedox.Library.Cells

open Assoc

variable {ν : Type*}

structure Cell (ν : Type*) where
  next : ℕ
  value : ν

/-- The cells in use, and the addresses that have been given out and taken back. -/
structure Heap (ν : Type*) where
  cells : List (ℕ × Cell ν)
  given : List ℕ
  freed : List ℕ

def Heap.load (h : Heap ν) (p : ℕ) : Option (Cell ν) := entries h.cells p

def Heap.store (h : Heap ν) (p : ℕ) (c : Cell ν) : Option (Heap ν) :=
  if p ∈ keys h.cells then some { h with cells := assign h.cells p c } else none

def Heap.alloc (h : Heap ν) (p : ℕ) (c : Cell ν) : Heap ν :=
  { h with cells := h.cells ++ [(p, c)], given := p :: h.given }

def Heap.free (h : Heap ν) (p : ℕ) : Option (Heap ν) :=
  if p ∈ keys h.cells then some { h with cells := without h.cells p, freed := p :: h.freed } else none

/-- Each address given out is in use once or has been taken back once. -/
structure Heap.Balanced (h : Heap ν) : Prop where
  nodup : (keys h.cells).Nodup
  settled : h.given.Perm (h.freed ++ keys h.cells)

section heap

variable {h h' : Heap ν} {p a : ℕ} {c : Cell ν}

theorem Heap.mem_keys : p ∈ keys h.cells ↔ ∃ c, h.load p = some c := by
  rw [← Option.ne_none_iff_exists', Ne, Heap.load, entries_eq_none, not_not]

theorem Heap.load_alloc (hp : p ∉ keys h.cells) : (h.alloc p c).load = Function.update h.load p (some c) :=
  entries_add hp

theorem Heap.keys_alloc (h : Heap ν) (p : ℕ) (c : Cell ν) : keys (h.alloc p c).cells = keys h.cells ++ [p] :=
  keys_append h.cells [(p, c)]

theorem Heap.Balanced.alloc (hb : h.Balanced) (hp : p ∉ keys h.cells) : (h.alloc p c).Balanced := by
  refine ⟨nodup_add hb.nodup hp, ?_⟩
  rw [Heap.keys_alloc]
  have hsnoc := (List.perm_append_singleton p (h.freed ++ keys h.cells)).symm
  rw [List.append_assoc] at hsnoc
  exact (hb.settled.cons p).trans hsnoc

theorem Heap.Balanced.store (hb : h.Balanced) (hs : h.store p c = some h') : h'.Balanced := by
  unfold Heap.store at hs
  split_ifs at hs with hp
  obtain rfl := Option.some.inj hs
  exact ⟨by rw [keys_assign]; exact hb.nodup, by rw [keys_assign]; exact hb.settled⟩

theorem Heap.Balanced.free (hb : h.Balanced) (hf : h.free p = some h') : h'.Balanced := by
  unfold Heap.free at hf
  split_ifs at hf with hp
  obtain rfl := Option.some.inj hf
  obtain ⟨qs, c, ts, hsplit, -⟩ := split_key hp
  have hnodup := hb.nodup
  rw [hsplit] at hnodup
  have hperm : (keys h.cells).Perm (p :: keys (without h.cells p)) := by
    rw [hsplit, without_split hnodup, keys_append, keys_append, keys_cons]
    exact List.perm_middle
  refine ⟨nodup_without hb.nodup p, hb.settled.trans ((hperm.append_left h.freed).trans ?_)⟩
  exact List.perm_middle

theorem Heap.store_eq (hp : p ∈ keys h.cells) : ∃ h', h.store p c = some h' ∧
    h'.load = Function.update h.load p (some c) ∧ keys h'.cells = keys h.cells ∧ (h.Balanced → h'.Balanced) := by
  have hstore : h.store p c = some { h with cells := assign h.cells p c } := if_pos hp
  refine ⟨_, hstore, ?_, keys_assign h.cells p c, fun hb => hb.store hstore⟩
  funext a
  obtain ⟨d, hd⟩ := Heap.mem_keys.mp hp
  rw [Heap.load, entries_assign]
  by_cases ha : a = p
  · subst ha
    rw [if_pos rfl, Function.update_self, ← Heap.load, hd, Option.map_some]
  · rw [if_neg ha, Function.update_of_ne ha, Heap.load]

theorem Heap.free_eq (hp : p ∈ keys h.cells) : ∃ h', h.free p = some h' ∧
    h'.load = Function.update h.load p none ∧ (∀ a, a ∈ keys h'.cells ↔ a ∈ keys h.cells ∧ a ≠ p) ∧
    (h.Balanced → h'.Balanced) := by
  have hfree : h.free p = some { h with cells := without h.cells p, freed := p :: h.freed } := if_pos hp
  exact ⟨_, hfree, entries_without h.cells p, fun _ => mem_keys_without, fun hb => hb.free hfree⟩

theorem Heap.free_none (hp : p ∉ keys h.cells) : h.free p = none := if_neg hp

theorem Heap.length_free (hf : h.free p = some h') : h'.cells.length < h.cells.length := by
  unfold Heap.free at hf
  split_ifs at hf with hp
  obtain rfl := Option.some.inj hf
  obtain ⟨x, hx, hxp⟩ := List.mem_map.mp hp
  exact List.length_filter_lt_length_iff_exists.mpr ⟨x, hx, by simpa using hxp⟩

end heap

/-- The cells from the address `p` on, up to a null pointer. -/
def Linked (load : ℕ → Option (Cell ν)) : ℕ → List (ℕ × ν) → Prop
  | p, [] => p = 0
  | p, x :: l => p = x.1 ∧ p ≠ 0 ∧ ∃ next, load p = some ⟨next, x.2⟩ ∧ Linked load next l

section linked

variable {load load' : ℕ → Option (Cell ν)} {p t a : ℕ} {v w : ν} {l : List (ℕ × ν)}

theorem Linked.congr (h : Linked load p l) (hload : ∀ b ∈ keys l, load' b = load b) : Linked load' p l := by
  induction l generalizing p with
  | nil => exact h
  | cons x l ih =>
    obtain ⟨rfl, hne, next, hx, hrest⟩ := h
    refine ⟨rfl, hne, next, ?_, ih hrest fun b hb => hload b (List.mem_cons_of_mem _ hb)⟩
    rw [hload x.1 List.mem_cons_self, hx]

theorem Linked.ne_zero (h : Linked load p l) {b : ℕ} (hb : b ∈ keys l) : b ≠ 0 := by
  induction l generalizing p with
  | nil => cases hb
  | cons x l ih =>
    obtain ⟨rfl, hne, next, -, hrest⟩ := h
    rcases List.mem_cons.mp hb with rfl | hb
    · exact hne
    · exact ih hrest hb

theorem Linked.load_last (h : Linked load p (l ++ [(t, v)])) : load t = some ⟨0, v⟩ := by
  induction l generalizing p with
  | nil =>
    obtain ⟨rfl, -, next, hx, rfl⟩ := h
    exact hx
  | cons x l ih =>
    obtain ⟨-, -, next, -, hrest⟩ := h
    exact ih hrest

theorem Linked.snoc (h : Linked load p (l ++ [(t, v)])) (ht : t ∉ keys l) (ha : a ≠ 0)
    (hfresh : a ∉ keys (l ++ [(t, v)])) :
    Linked (Function.update (Function.update load a (some ⟨0, w⟩)) t (some ⟨a, v⟩)) p
      (l ++ [(t, v)] ++ [(a, w)]) := by
  induction l generalizing p with
  | nil =>
    obtain ⟨rfl, hne, next, -, -⟩ := h
    have hat : a ≠ p := fun h => hfresh (by rw [h]; exact List.mem_cons_self)
    refine ⟨rfl, hne, a, Function.update_self _ _ _, rfl, ha, 0, ?_, rfl⟩
    rw [Function.update_of_ne hat, Function.update_self]
  | cons x l ih =>
    obtain ⟨rfl, hne, next, hx, hrest⟩ := h
    rw [keys_cons, List.mem_cons, not_or] at ht
    rw [List.cons_append, keys_cons, List.mem_cons, not_or] at hfresh
    refine ⟨rfl, hne, next, ?_, ih hrest ht.2 hfresh.2⟩
    rw [Function.update_of_ne (Ne.symm ht.1), Function.update_of_ne (Ne.symm hfresh.1), hx]

end linked

end Eedox.Library.Cells
