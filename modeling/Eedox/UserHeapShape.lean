import Eedox.UserHeap
import Eedox.Library.Blocks
import Eedox.Library.DoublyLinked

namespace Eedox.UserHeapShape

open Library.Bytes Library.Words Library.Blocks Library.DoublyLinked UserHeap

/-- The two are one, or their headers do not overlap. -/
def Clear (a b : ℕ) : Prop := b = a ∨ b + 16 ≤ a ∨ a + 16 ≤ b

/-- Memory differs only in the headers at `hs`. -/
def Writes (hs : List ℕ) (m m' : Mem) : Prop := ∀ x, (∀ a ∈ hs, x < a ∨ a + 16 ≤ x) → m' x = m x

theorem Writes.trans {hs : List ℕ} {m m' m'' : Mem} (h : Writes hs m m') (h' : Writes hs m' m'') : Writes hs m m'' :=
  fun x hx => (h' x hx).trans (h x hx)

section Headers

variable {m : Mem} {a b v : ℕ} {hs : List ℕ}

theorem header_congr {m' : Mem} (h : ∀ x, a ≤ x → x < a + 16 → m' x = m x) : header m' a = header m a := by
  have h0 : wordAt m' a = wordAt m a := wordAt_congr fun x _ _ => h x (by omega) (by omega)
  have h8 : wordAt m' (a + 8) = wordAt m (a + 8) := wordAt_congr fun x _ _ => h x (by omega) (by omega)
  have h12 : wordAt m' (a + 12) = wordAt m (a + 12) := wordAt_congr fun x _ _ => h x (by omega) (by omega)
  rw [header, header, h0, h (a + 4) (by omega) (by omega), h8, h12]

theorem nextFree_lt (m : Mem) (a : ℕ) : (header m a).nextFree < 2 ^ 32 := wordAt_lt _ _

theorem prevFree_lt (m : Mem) (a : ℕ) : (header m a).prevFree < 2 ^ 32 := wordAt_lt _ _

theorem writes_setSize (ha : a ∈ hs) : Writes hs m (objectHeaderSetSize m a v) := fun x hx => by
  have hxa := hx a ha
  exact putWord_of_disjoint (by omega)

theorem writes_setUsed (flag : UInt8) (ha : a ∈ hs) : Writes hs m (objectHeaderSetUsed m a flag) := fun x hx => by
  have hxa := hx a ha
  exact Function.update_of_ne (by omega) _ _

theorem writes_setNextFree (ha : a ∈ hs) : Writes hs m (setNextFree m a v) := fun x hx => by
  have hxa := hx a ha
  exact putWord_of_disjoint (by omega)

theorem writes_setPrevFree (ha : a ∈ hs) : Writes hs m (setPrevFree m a v) := fun x hx => by
  have hxa := hx a ha
  exact putWord_of_disjoint (by omega)

/-- A header that does not overlap the written one is as before. -/
theorem header_of_writes {m' : Mem} (h : Writes [a] m m') (hc : b + 16 ≤ a ∨ a + 16 ≤ b) :
    header m' b = header m b :=
  header_congr fun x _ _ => h x fun y hy => by
    rw [List.mem_singleton.mp hy]
    omega

theorem header_setSize (hc : Clear a b) : header (objectHeaderSetSize m a v) b =
    { header m b with size := if b = a then v % 2 ^ 32 else (header m b).size } := by
  rcases hc with rfl | hc
  · rw [if_pos rfl, header, objectHeaderSetSize, wordAt_putWord, putWord_of_disjoint (by omega),
      wordAt_putWord_of_disjoint (by omega), wordAt_putWord_of_disjoint (by omega)]
    rfl
  · rw [header_of_writes (writes_setSize List.mem_cons_self) hc, if_neg (by omega)]

theorem header_setUsed (flag : UInt8) (hc : Clear a b) : header (objectHeaderSetUsed m a flag) b =
    { header m b with used := if b = a then flag.toNat else (header m b).used } := by
  rcases hc with rfl | hc
  · have hother (k : ℕ) (hk : k + 4 ≤ b + 4 ∨ b + 5 ≤ k) :
        wordAt (objectHeaderSetUsed m b flag) k = wordAt m k :=
      wordAt_congr fun x _ _ => Function.update_of_ne (by omega) _ _
    rw [if_pos rfl, header, hother _ (by omega), hother _ (by omega), hother _ (by omega), objectHeaderSetUsed,
      Function.update_self]
    rfl
  · rw [header_of_writes (writes_setUsed flag List.mem_cons_self) hc, if_neg (by omega)]

theorem header_setNextFree (hc : Clear a b) : header (setNextFree m a v) b =
    { header m b with nextFree := if b = a then v % 2 ^ 32 else (header m b).nextFree } := by
  rcases hc with rfl | hc
  · rw [if_pos rfl, header, setNextFree, wordAt_putWord, putWord_of_disjoint (by omega),
      wordAt_putWord_of_disjoint (by omega), wordAt_putWord_of_disjoint (by omega)]
    rfl
  · rw [header_of_writes (writes_setNextFree List.mem_cons_self) hc, if_neg (by omega)]

theorem header_setPrevFree (hc : Clear a b) : header (setPrevFree m a v) b =
    { header m b with prevFree := if b = a then v % 2 ^ 32 else (header m b).prevFree } := by
  rcases hc with rfl | hc
  · rw [if_pos rfl, header, setPrevFree, wordAt_putWord, putWord_of_disjoint (by omega),
      wordAt_putWord_of_disjoint (by omega), wordAt_putWord_of_disjoint (by omega)]
    rfl
  · rw [header_of_writes (writes_setPrevFree List.mem_cons_self) hc, if_neg (by omega)]

theorem writes_putHeaderNew (ha : a ∈ hs) : Writes hs m (putHeaderNew m a v) :=
  (((writes_setSize ha).trans (writes_setUsed 1 ha)).trans (writes_setNextFree ha)).trans (writes_setPrevFree ha)

theorem header_putHeaderNew (hc : Clear a b) : header (putHeaderNew m a v) b =
    if b = a then ⟨v % 2 ^ 32, 1, 0, 0⟩ else header m b := by
  unfold putHeaderNew
  rw [header_setPrevFree hc, header_setNextFree hc, header_setUsed 1 hc, header_setSize hc]
  by_cases hba : b = a
  · simp [hba]
  · simp [hba]

end Headers

section Links

variable {h : Heap} {a b : ℕ} {hs : List ℕ}

theorem writes_removeFree (ha : a ∈ hs) (hnext : (header h.mem a).nextFree ≠ 0 → (header h.mem a).nextFree ∈ hs)
    (hprev : (header h.mem a).prevFree ≠ 0 → (header h.mem a).prevFree ∈ hs) :
    Writes hs h.mem (heapRemoveFree h a).mem := by
  have hfirst : Writes hs h.mem (if (header h.mem a).nextFree ≠ 0 then
      setPrevFree h.mem (header h.mem a).nextFree (header h.mem a).prevFree else h.mem) := by
    split_ifs with hn
    · exact writes_setPrevFree (hnext hn)
    · exact fun _ _ => rfl
  have hsecond (m : Mem) : Writes hs m (if (header h.mem a).prevFree ≠ 0 then
      setNextFree m (header h.mem a).prevFree (header h.mem a).nextFree else m) := by
    split_ifs with hp
    · exact writes_setNextFree (hprev hp)
    · exact fun _ _ => rfl
  exact ((hfirst.trans (hsecond _)).trans (writes_setPrevFree ha)).trans (writes_setNextFree ha)

theorem header_removeFree (hclear : ∀ x ∈ hs, ∀ y ∈ hs, Clear x y) (h0 : 0 ∉ hs) (ha : a ∈ hs) (hb : b ∈ hs)
    (hnext : (header h.mem a).nextFree ≠ 0 → (header h.mem a).nextFree ∈ hs)
    (hprev : (header h.mem a).prevFree ≠ 0 → (header h.mem a).prevFree ∈ hs) :
    header (heapRemoveFree h a).mem b = { header h.mem b with
      nextFree := if b = a then 0 else if b = (header h.mem a).prevFree then (header h.mem a).nextFree
        else (header h.mem b).nextFree
      prevFree := if b = a then 0 else if b = (header h.mem a).nextFree then (header h.mem a).prevFree
        else (header h.mem b).prevFree } := by
  have hnl := nextFree_lt h.mem a
  have hpl := prevFree_lt h.mem a
  have hb0 : b ≠ 0 := fun heq => h0 (heq ▸ hb)
  unfold heapRemoveFree
  simp only
  rw [header_setNextFree (hclear a ha b hb), header_setPrevFree (hclear a ha b hb)]
  generalize (header h.mem a).nextFree = next at *
  generalize (header h.mem a).prevFree = prev at *
  have hfirst : header (if next ≠ 0 then setPrevFree h.mem next prev else h.mem) b =
      { header h.mem b with prevFree := if b = next then prev else (header h.mem b).prevFree } := by
    by_cases hn : next = 0
    · rw [if_neg (not_not.mpr hn), if_neg (by omega)]
    · rw [if_pos hn, header_setPrevFree (hclear next (hnext hn) b hb), Nat.mod_eq_of_lt hpl]
  have hsecond : header (if prev ≠ 0 then
      setNextFree (if next ≠ 0 then setPrevFree h.mem next prev else h.mem) prev next
      else if next ≠ 0 then setPrevFree h.mem next prev else h.mem) b =
      { header h.mem b with
        nextFree := if b = prev then next else (header h.mem b).nextFree
        prevFree := if b = next then prev else (header h.mem b).prevFree } := by
    by_cases hp : prev = 0
    · rw [if_neg (not_not.mpr hp), hfirst, if_neg (by omega : b ≠ prev)]
    · rw [if_pos hp, header_setNextFree (hclear prev (hprev hp) b hb), hfirst, Nat.mod_eq_of_lt hnl]
  rw [hsecond, Nat.zero_mod]

theorem writes_addFree (ha : a ∈ hs) (hfree : h.free ≠ 0 → h.free ∈ hs) :
    Writes hs h.mem (heapAddFree h a).mem := by
  unfold heapAddFree
  refine Writes.trans ((writes_setNextFree (v := h.free) ha).trans (writes_setPrevFree (v := 0) ha)) ?_
  split_ifs with hf
  · exact writes_setPrevFree (hfree hf)
  · exact fun _ _ => rfl

theorem header_addFree (hclear : ∀ x ∈ hs, ∀ y ∈ hs, Clear x y) (h0 : 0 ∉ hs) (ha : a ∈ hs) (hb : b ∈ hs)
    (hword : ∀ x ∈ hs, x < 2 ^ 32) (hfree : h.free ≠ 0 → h.free ∈ hs) :
    header (heapAddFree h a).mem b = { header h.mem b with
      nextFree := if b = a then h.free else (header h.mem b).nextFree
      prevFree := if b = h.free then a else if b = a then 0 else (header h.mem b).prevFree } := by
  have hb0 : b ≠ 0 := fun heq => h0 (heq ▸ hb)
  have hfl : h.free < 2 ^ 32 := by
    by_cases hf : h.free = 0
    · omega
    · exact hword _ (hfree hf)
  have hlinks : header (setPrevFree (setNextFree h.mem a h.free) a 0) b = { header h.mem b with
      nextFree := if b = a then h.free else (header h.mem b).nextFree
      prevFree := if b = a then 0 else (header h.mem b).prevFree } := by
    rw [header_setPrevFree (hclear a ha b hb), header_setNextFree (hclear a ha b hb), Nat.mod_eq_of_lt hfl,
      Nat.zero_mod]
  unfold heapAddFree
  simp only
  by_cases hf : h.free = 0
  · rw [if_neg (not_not.mpr hf), hlinks, if_neg (by omega : b ≠ h.free)]
  · rw [if_pos hf, header_setPrevFree (hclear h.free (hfree hf) b hb), hlinks, Nat.mod_eq_of_lt (hword a ha)]

end Links

end Eedox.UserHeapShape
