import Eedox.Library.Assoc
import Mathlib.Data.List.Basic
import Mathlib.Data.Int.Notation

namespace Eedox.Llist

open Library.Assoc

structure LlistEle where
  value : ℤ
  next : ℕ
  prev : ℕ
  deriving DecidableEq

structure LlistT where
  size : ℤ
  head : ℕ
  tail : ℕ
  deriving DecidableEq

/-- The live elements by their addresses. -/
abbrev Elements := List (ℕ × LlistEle)

def llistCreate : LlistT := ⟨0, 0, 0⟩

def llistSize (list : LlistT) : ℤ := list.size

/-- `malloc` tells where the next element lies beside the live ones. No value when the access leaves the live
elements. -/
def llistBpush (malloc : List ℕ → ℕ) (eles : Elements) (list : LlistT) (value : ℤ) : Option (Elements × LlistT) :=
  let ele := malloc (keys eles)
  let pushed := eles ++ [(ele, ⟨value, list.tail, 0⟩)]
  if list.tail ≠ 0 then
    (entries pushed list.tail).map fun next =>
      (assign pushed list.tail { next with prev := ele }, ⟨list.size + 1, list.head, ele⟩)
  else some (pushed, ⟨list.size + 1, ele, ele⟩)

def llistFpop (eles : Elements) (list : LlistT) : Option (Elements × LlistT × ℤ) :=
  (entries eles list.head).bind fun head =>
    if head.prev ≠ 0 then
      (entries eles head.prev).map fun first =>
        (without (assign eles head.prev { first with next := 0 }) list.head,
          ⟨list.size - 1, head.prev, list.tail⟩, head.value)
    else some (without eles list.head, ⟨list.size - 1, 0, 0⟩, head.value)

def headOf (items : List (ℕ × ℤ)) : ℕ := (items.head?.map Prod.fst).getD 0

def tailOf (items : List (ℕ × ℤ)) : ℕ := (items.getLast?.map Prod.fst).getD 0

/-- The list holds the values at these addresses, from its head to its tail: `prev` leads to the tail and `next`
to the head. -/
structure Holds (eles : Elements) (list : LlistT) (items : List (ℕ × ℤ)) : Prop where
  size : list.size = items.length
  head : list.head = headOf items
  tail : list.tail = tailOf items
  nodup : (keys items).Nodup
  nonnull : 0 ∉ keys items
  linked : ∀ before a v behind, items = before ++ (a, v) :: behind →
    entries eles a = some ⟨v, tailOf before, headOf behind⟩

/-- Each element is new and not the null pointer. -/
def Fresh (malloc : List ℕ → ℕ) : Prop := ∀ live, malloc live ∉ live ∧ malloc live ≠ 0

variable {malloc : List ℕ → ℕ} {eles eles' : Elements} {list list' : LlistT} {items : List (ℕ × ℤ)}
    {value v : ℤ} {a : ℕ}

@[simp] theorem headOf_cons (item : ℕ × ℤ) (items : List (ℕ × ℤ)) : headOf (item :: items) = item.1 := rfl

@[simp] theorem tailOf_snoc (items : List (ℕ × ℤ)) (item : ℕ × ℤ) : tailOf (items ++ [item]) = item.1 := by
  rw [tailOf, List.getLast?_concat]
  rfl

theorem tailOf_cons {item : ℕ × ℤ} (h : items ≠ []) : tailOf (item :: items) = tailOf items := by
  rw [tailOf, tailOf, List.getLast?_cons_of_ne_nil h]

theorem headOf_append {items' : List (ℕ × ℤ)} (h : items ≠ []) : headOf (items ++ items') = headOf items := by
  cases items with
  | nil => exact absurd rfl h
  | cons item items => rfl

theorem holds_create (eles : Elements) : Holds eles llistCreate [] where
  size := rfl
  head := rfl
  tail := rfl
  nodup := List.nodup_nil
  nonnull := List.not_mem_nil
  linked before a v behind h := by simp at h

theorem Holds.live (h : Holds eles list items) (ha : a ∈ keys items) : a ∈ keys eles := by
  obtain ⟨⟨x, v⟩, hmem, rfl⟩ := List.mem_map.mp ha
  obtain ⟨before, behind, hsplit⟩ := List.append_of_mem hmem
  by_contra hnone
  have hsome := h.linked _ _ _ _ hsplit
  rw [entries_eq_none.mpr hnone] at hsome
  cases hsome

theorem snoc_split {α : Type*} {items before behind : List α} {x y : α} (h : items ++ [x] = before ++ y :: behind) :
    (behind = [] ∧ before = items ∧ y = x) ∨ ∃ behind', behind = behind' ++ [x] ∧ items = before ++ y :: behind' := by
  rcases List.eq_nil_or_concat' behind with rfl | ⟨behind, z, rfl⟩
  · obtain ⟨rfl, hx⟩ := List.append_inj' h rfl
    exact Or.inl ⟨rfl, rfl, (List.singleton_inj.mp hx).symm⟩
  · rw [← List.cons_append, ← List.append_assoc] at h
    obtain ⟨rfl, hx⟩ := List.append_inj' h rfl
    rw [List.singleton_inj.mp hx]
    exact Or.inr ⟨behind, rfl, rfl⟩

/-- The value goes behind the last one; the other elements stay as they are. -/
theorem holds_bpush (hfresh : Fresh malloc) (h : Holds eles list items) : ∃ eles' list',
    llistBpush malloc eles list value = some (eles', list') ∧
      Holds eles' list' (items ++ [(malloc (keys eles), value)]) ∧
      ∀ k, k ∉ keys items → k ∈ keys eles → entries eles' k = entries eles k := by
  obtain ⟨hnew, hnonnull⟩ := hfresh (keys eles)
  generalize hele : malloc (keys eles) = ele at hnew hnonnull ⊢
  have hunused : ele ∉ keys items := fun hmem => hnew (h.live hmem)
  have hnodup := nodup_add (v := value) h.nodup hunused
  have hnull : 0 ∉ keys (items ++ [(ele, value)]) := by
    rw [keys_append, List.mem_append, not_or]
    exact ⟨h.nonnull, by simpa [keys] using hnonnull.symm⟩
  have hsize : list.size + 1 = ((items ++ [(ele, value)]).length : ℤ) := by
    rw [h.size, List.length_append]
    rfl
  have hadd := @entries_add _ _ eles ele ⟨value, list.tail, 0⟩ _ hnew
  rw [llistBpush, hele]
  rcases List.eq_nil_or_concat' items with rfl | ⟨front, ⟨last, w⟩, rfl⟩
  · have htail : list.tail = 0 := h.tail
    refine ⟨_, _, by rw [if_neg (not_not_intro htail)], ⟨hsize, rfl, rfl, hnodup, hnull, ?_⟩, fun k _ hk => ?_⟩
    · intro before a v behind hsplit
      rcases snoc_split hsplit with ⟨rfl, rfl, hpair⟩ | ⟨behind', -, hnil⟩
      · obtain ⟨rfl, rfl⟩ := Prod.mk.inj hpair
        rw [hadd, Function.update_self, htail]
        rfl
      · simp at hnil
    · rw [hadd, Function.update_of_ne (ne_of_mem_of_not_mem hk hnew)]
  · have htail : list.tail = last := by rw [h.tail, tailOf_snoc]
    have hmem : last ∈ keys (front ++ [(last, w)]) := by simp [keys]
    have hlast : last ≠ 0 := ne_of_mem_of_not_mem hmem h.nonnull
    have hne : last ≠ ele := ne_of_mem_of_not_mem hmem hunused
    have hold : entries eles last = some ⟨w, tailOf front, 0⟩ := h.linked front last w [] rfl
    have hthere : entries (eles ++ [(ele, (⟨value, list.tail, 0⟩ : LlistEle))]) last = some ⟨w, tailOf front, 0⟩ := by
      rw [hadd, Function.update_of_ne hne, hold]
    rw [htail, if_pos hlast]
    rw [htail] at hthere hadd
    rw [hthere]
    refine ⟨_, _, rfl, ⟨hsize, ?_, by rw [tailOf_snoc], hnodup, hnull, ?_⟩, fun k hk hk' => ?_⟩
    · rw [headOf_append (by simp), h.head]
    · intro before a v behind hsplit
      rw [entries_assign]
      rcases snoc_split hsplit with ⟨rfl, rfl, hpair⟩ | ⟨behind', rfl, hsplit'⟩
      · obtain ⟨rfl, rfl⟩ := Prod.mk.inj hpair
        rw [if_neg hne.symm, hadd, Function.update_self, tailOf_snoc]
        rfl
      rcases snoc_split hsplit' with ⟨rfl, rfl, hpair⟩ | ⟨behind, rfl, hfront⟩
      · obtain ⟨rfl, rfl⟩ := Prod.mk.inj hpair
        rw [if_pos rfl, hthere]
        rfl
      · have hn := h.nodup
        rw [hsplit'] at hn
        have hother := (absent_of_split hn).2
        have ha : a ≠ last := by
          rintro rfl
          exact hother (by simp [keys])
        have hmem' : a ∈ keys (front ++ [(last, w)]) := by rw [hsplit']; simp [keys]
        rw [if_neg ha, hadd, Function.update_of_ne (ne_of_mem_of_not_mem hmem' hunused), h.linked _ _ _ _ hsplit',
          @headOf_append (behind ++ [(last, w)]) [(ele, value)] (by simp)]
    · have hk0 : k ≠ last := fun heq => hk (heq ▸ hmem)
      rw [entries_assign, if_neg hk0, hadd, Function.update_of_ne (ne_of_mem_of_not_mem hk' hnew)]

/-- The first value comes out; the elements of other lists stay as they are. -/
theorem holds_fpop {items : List (ℕ × ℤ)} (h : Holds eles list ((a, value) :: items)) : ∃ eles' list',
    llistFpop eles list = some (eles', list', value) ∧ Holds eles' list' items ∧
      ∀ k, k ∉ keys ((a, value) :: items) → entries eles' k = entries eles k := by
  have hfirst : entries eles a = some ⟨value, 0, headOf items⟩ := h.linked [] a value items rfl
  have hhead : list.head = a := h.head
  have hsize : list.size - 1 = (items.length : ℤ) := by
    rw [h.size, List.length_cons]
    push_cast
    omega
  have hnodup := h.nodup
  have hnull := h.nonnull
  rw [keys_cons, List.nodup_cons] at hnodup
  rw [keys_cons, List.mem_cons, not_or] at hnull
  rw [llistFpop, hhead, hfirst, Option.bind_some]
  cases items with
  | nil =>
    refine ⟨_, _, rfl, ⟨hsize, rfl, rfl, List.nodup_nil, List.not_mem_nil, ?_⟩, ?_⟩
    · intro before x v behind hsplit
      simp at hsplit
    · intro k hk
      rw [keys_cons, List.mem_cons, not_or] at hk
      rw [entries_without, Function.update_of_ne hk.1]
  | cons second items =>
    obtain ⟨b, w⟩ := second
    have hb : b ≠ 0 := fun heq => hnull.2 (by rw [keys_cons, heq]; exact List.mem_cons_self)
    have hba : b ≠ a := fun heq => hnodup.1 (by rw [keys_cons, heq]; exact List.mem_cons_self)
    have hsecond : entries eles b = some ⟨w, a, headOf items⟩ := h.linked [(a, value)] b w items rfl
    rw [headOf_cons, if_pos hb, hsecond]
    refine ⟨_, _, rfl, ⟨hsize, rfl, ?_, hnodup.2, hnull.2, ?_⟩, fun k hk => ?_⟩
    · rw [h.tail, tailOf_cons (List.cons_ne_nil _ _)]
    · intro before x v behind hsplit
      have hx : x ≠ a := fun heq => hnodup.1 (by rw [hsplit, heq]; simp [keys])
      rw [entries_without, Function.update_of_ne hx, entries_assign]
      cases before with
      | nil =>
        obtain ⟨hpair, rfl⟩ := List.cons.inj hsplit
        obtain ⟨rfl, rfl⟩ := Prod.mk.inj hpair
        rw [if_pos rfl, hsecond]
        rfl
      | cons first before =>
        obtain ⟨rfl, hrest⟩ := List.cons.inj hsplit
        have hxb : x ≠ b := by
          rintro rfl
          rw [keys_cons, List.nodup_cons, hrest] at hnodup
          exact hnodup.2.1 (by simp [keys])
        rw [if_neg hxb, h.linked ((a, value) :: (b, w) :: before) x v behind (by rw [hsplit]; rfl),
          tailOf_cons (List.cons_ne_nil _ _)]
    · rw [keys_cons, keys_cons, List.mem_cons, List.mem_cons, not_or, not_or] at hk
      rw [entries_without, Function.update_of_ne hk.1, entries_assign, if_neg hk.2.1]

end Eedox.Llist
