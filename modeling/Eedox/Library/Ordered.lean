import Mathlib.Data.List.Basic
import Mathlib.Data.List.Nodup
import Mathlib.Data.List.TakeWhile
import Mathlib.Order.Nat

namespace Eedox.Library.Ordered

variable {α : Type*} {key key' : α → ℕ} {l : List α} {x y e : α}

def Ascending (key : α → ℕ) (l : List α) : Prop := l.Pairwise fun a b => key a ≤ key b

/-- The new entry goes in front of the entries at the end that have larger keys. -/
def insertKey (key : α → ℕ) (l : List α) (x : α) : List α :=
  (l.reverse.dropWhile fun e => key x < key e).reverse ++
    x :: (l.reverse.takeWhile fun e => key x < key e).reverse

theorem ascending_append {u v : List α} : Ascending key (u ++ v) ↔
    Ascending key u ∧ Ascending key v ∧ ∀ a ∈ u, ∀ b ∈ v, key a ≤ key b := List.pairwise_append

theorem ascending_congr (h : ∀ e ∈ l, key' e = key e) : Ascending key' l ↔ Ascending key l :=
  List.Pairwise.iff_of_mem fun {a b} ha hb => by rw [h a ha, h b hb]

theorem insertKey_split (key : α → ℕ) (l : List α) (x : α) :
    l = (l.reverse.dropWhile fun e => key x < key e).reverse ++
      (l.reverse.takeWhile fun e => key x < key e).reverse := by
  rw [← List.reverse_append, List.takeWhile_append_dropWhile, List.reverse_reverse]

theorem insertKey_congr (h : ∀ e ∈ l, key' e = key e) (hx : key' x = key x) :
    insertKey key' l x = insertKey key l x := by
  have hsame : ∀ e ∈ l.reverse, key' e = key e := fun e he => h e (List.mem_reverse.mp he)
  unfold insertKey
  rw [hx]
  generalize l.reverse = r at hsame
  induction r with
  | nil => rfl
  | cons a r ih =>
    obtain ⟨ha, hrest⟩ := List.forall_mem_cons.mp hsame
    simp only [List.takeWhile_cons, List.dropWhile_cons, ha]
    split
    · have hr := ih hrest
      simp only [List.reverse_cons, ← List.cons_append, ← List.append_assoc]
      exact congrArg (· ++ [a]) hr
    · rfl

theorem lt_of_mem_takeWhile (h : e ∈ (l.reverse.takeWhile fun e => key x < key e).reverse) :
    key x < key e := by
  rw [List.mem_reverse] at h
  simpa using List.mem_takeWhile_imp h

/-- In front of the new entry there are only entries with keys as small. -/
theorem le_of_mem_dropWhile (hl : Ascending key l)
    (h : e ∈ (l.reverse.dropWhile fun e => key x < key e).reverse) : key e ≤ key x := by
  have hrev : l.reverse.Pairwise fun a b => key b ≤ key a := List.pairwise_reverse.mpr hl
  rw [List.mem_reverse] at h
  generalize l.reverse = r at hrev h
  induction r with
  | nil => cases h
  | cons a r ih =>
    obtain ⟨ha, hrest⟩ := List.pairwise_cons.mp hrev
    rw [List.dropWhile_cons] at h
    split_ifs at h with hlt
    · exact ih hrest h
    · rw [decide_eq_true_eq, not_lt] at hlt
      rcases List.mem_cons.mp h with rfl | h
      · exact hlt
      · exact (ha e h).trans hlt

theorem insertKey_ascending (hl : Ascending key l) : Ascending key (insertKey key l x) := by
  have hsplit := insertKey_split key l x
  have hboth := hl
  rw [hsplit, ascending_append] at hboth
  obtain ⟨hu, hv, huv⟩ := hboth
  refine ascending_append.mpr ⟨hu, List.pairwise_cons.mpr ⟨fun b hb => ?_, hv⟩, fun a ha b hb => ?_⟩
  · exact (lt_of_mem_takeWhile hb).le
  · rcases List.mem_cons.mp hb with rfl | hb
    · exact le_of_mem_dropWhile hl ha
    · exact huv a ha b hb

theorem mem_insertKey : e ∈ insertKey key l x ↔ e = x ∨ e ∈ l := by
  conv_rhs => rw [insertKey_split key l x]
  rw [insertKey, List.mem_append, List.mem_append, List.mem_cons]
  tauto

variable [DecidableEq α]

/-- The entries behind `x`. -/
def behind (x : α) (l : List α) : List α := (l.dropWhile fun e => e ≠ x).tail

theorem behind_append {u v : List α} (hu : x ∉ u) : behind x (u ++ x :: v) = v := by
  induction u with
  | nil => simp [behind]
  | cons a u ih =>
    rw [List.mem_cons, not_or] at hu
    have hne : a ≠ x := fun h => hu.1 h.symm
    have hrest := ih hu.2
    unfold behind at hrest ⊢
    rw [List.cons_append, List.dropWhile_cons, if_pos (by simpa using hne)]
    exact hrest

omit [DecidableEq α] in
theorem split_nodup (hn : l.Nodup) (hx : x ∈ l) : ∃ u v, l = u ++ x :: v ∧ x ∉ u ∧ x ∉ v := by
  obtain ⟨u, v, rfl⟩ := List.append_of_mem hx
  have hcons := (List.nodup_append.mp hn).2.1
  refine ⟨u, v, rfl, fun hu => ?_, (List.nodup_cons.mp hcons).1⟩
  exact (List.nodup_append.mp hn).2.2 x hu x List.mem_cons_self rfl

theorem mem_of_behind (hn : l.Nodup) (h : e ∈ behind x l) : e ∈ l ∧ e ≠ x := by
  by_cases hx : x ∈ l
  · obtain ⟨u, v, rfl, hu, hv⟩ := split_nodup hn hx
    rw [behind_append hu] at h
    exact ⟨List.mem_append_right _ (List.mem_cons_of_mem _ h), fun hc => hv (hc ▸ h)⟩
  · have hall : ∀ e ∈ l, decide (e ≠ x) = true := fun e he => by
      rw [decide_eq_true_eq]
      exact fun hc => hx (hc ▸ he)
    rw [behind, List.dropWhile_eq_nil_iff.mpr hall, List.tail_nil] at h
    cases h

theorem mem_behind_erase (hn : l.Nodup) (hx : x ∈ l) (hxy : y ≠ x) :
    e ∈ behind x (l.erase y) ↔ e ∈ behind x l ∧ e ≠ y := by
  obtain ⟨u, v, rfl, hu, -⟩ := split_nodup hn hx
  have hv : v.Nodup := (List.nodup_cons.mp (List.nodup_append.mp hn).2.1).2
  rw [behind_append hu]
  by_cases hy : y ∈ u
  · have hyv : y ∉ v := fun hc =>
      (List.nodup_append.mp hn).2.2 y hy y (List.mem_cons_of_mem _ hc) rfl
    rw [List.erase_append_left _ hy, behind_append fun hc => hu (List.mem_of_mem_erase hc)]
    exact ⟨fun he => ⟨he, fun hc => hyv (hc ▸ he)⟩, And.left⟩
  · rw [List.erase_append_right _ hy, List.erase_cons_tail (by simpa using hxy.symm), behind_append hu,
      hv.mem_erase_iff, and_comm]

omit [DecidableEq α] in
theorem insertKey_nodup (hn : l.Nodup) (hx : x ∉ l) : (insertKey key l x).Nodup := by
  have hperm : (insertKey key l x).Perm (x :: l) := by
    conv_rhs => rw [insertKey_split key l x]
    exact List.perm_middle
  exact hperm.nodup_iff.mpr (List.nodup_cons.mpr ⟨hx, hn⟩)

/-- Taking the new entry away again gives the list back. -/
theorem insertKey_erase (hx : x ∉ l) : (insertKey key l x).erase x = l := by
  have hsplit := insertKey_split key l x
  have hu : x ∉ (l.reverse.dropWhile fun e => key x < key e).reverse := by
    intro hc
    apply hx
    rw [hsplit]
    exact List.mem_append_left _ hc
  rw [insertKey, List.erase_append_right _ hu, List.erase_cons_head]
  exact hsplit.symm

theorem mem_behind_insertKey (hl : Ascending key l) (hx : x ∉ l) :
    e ∈ behind x (insertKey key l x) ↔ e ∈ l ∧ key x < key e := by
  have hsplit := insertKey_split key l x
  have hu : x ∉ (l.reverse.dropWhile fun e => key x < key e).reverse := by
    intro hc
    apply hx
    rw [hsplit]
    exact List.mem_append_left _ hc
  rw [insertKey, behind_append hu]
  constructor
  · intro he
    refine ⟨?_, lt_of_mem_takeWhile he⟩
    rw [hsplit]
    exact List.mem_append_right _ he
  · rintro ⟨he, hlt⟩
    rw [hsplit, List.mem_append] at he
    rcases he with he | he
    · exact absurd (le_of_mem_dropWhile hl he) (not_le.mpr hlt)
    · exact he

/-- When one key grows, the list stays in order exactly if it grows no larger than those behind. -/
theorem ascending_raise (hl : Ascending key l) (hn : l.Nodup) (hx : x ∈ l)
    (hsame : ∀ e ∈ l, e ≠ x → key' e = key e) (hgrow : key x ≤ key' x) :
    Ascending key' l ↔ ∀ e ∈ behind x l, key' x ≤ key' e := by
  obtain ⟨u, v, rfl, hu, hv⟩ := split_nodup hn hx
  rw [behind_append hu]
  obtain ⟨hlu, hlv, huv⟩ := ascending_append.mp hl
  obtain ⟨hxv, hlv⟩ := List.pairwise_cons.mp hlv
  have hsu (a : α) (ha : a ∈ u) : key' a = key a :=
    hsame a (List.mem_append_left _ ha) fun hc => hu (hc ▸ ha)
  have hsv (a : α) (ha : a ∈ v) : key' a = key a :=
    hsame a (List.mem_append_right _ (List.mem_cons_of_mem _ ha)) fun hc => hv (hc ▸ ha)
  constructor
  · intro h
    exact (List.pairwise_cons.mp (ascending_append.mp h).2.1).1
  · intro h
    refine ascending_append.mpr ⟨?_, List.pairwise_cons.mpr ⟨h, ?_⟩, fun a ha b hb => ?_⟩
    · exact hlu.imp_of_mem fun {a b} ha hb hab => by rwa [hsu a ha, hsu b hb]
    · exact hlv.imp_of_mem fun {a b} ha hb hab => by rwa [hsv a ha, hsv b hb]
    · rw [hsu a ha]
      rcases List.mem_cons.mp hb with rfl | hb
      · exact (huv a ha b List.mem_cons_self).trans hgrow
      · rw [hsv b hb]
        exact huv a ha b (List.mem_cons_of_mem _ hb)

end Eedox.Library.Ordered
