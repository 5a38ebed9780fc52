import Mathlib.Algebra.Group.Int.Defs
import Mathlib.Algebra.Group.Nat.Defs
import Mathlib.Data.List.Basic
import Mathlib.Order.Nat

namespace Eedox.Library.Bytes

def byteOf (w i : ℕ) : UInt8 := UInt8.ofNat (w / 2 ^ (8 * i))

def wordBytes (w : ℕ) : List UInt8 := [byteOf w 0, byteOf w 1, byteOf w 2, byteOf w 3]

def wordAt (b : ℕ → UInt8) (k : ℕ) : ℕ :=
  (b k).toNat + 2 ^ 8 * (b (k + 1)).toNat + 2 ^ 16 * (b (k + 2)).toNat + 2 ^ 24 * (b (k + 3)).toNat

def putWord (b : ℕ → UInt8) (k w : ℕ) : ℕ → UInt8 := fun j =>
  if k ≤ j ∧ j < k + 4 then byteOf w (j - k) else b j

def blit (b : ℕ → UInt8) (k : ℕ) (src : ℕ → UInt8) (n : ℕ) : ℕ → UInt8 := fun j =>
  if k ≤ j ∧ j < k + n then src (j - k) else b j

def bytesOf (data : List UInt8) : ℕ → UInt8 := fun i => data.getD i 0

def slice (b : ℕ → UInt8) (k n : ℕ) : List UInt8 := (List.range n).map fun i => b (k + i)

theorem wordAt_lt (b : ℕ → UInt8) (k : ℕ) : wordAt b k < 2 ^ 32 := by
  have h0 := (b k).toNat_lt
  have h1 := (b (k + 1)).toNat_lt
  have h2 := (b (k + 2)).toNat_lt
  have h3 := (b (k + 3)).toNat_lt
  unfold wordAt
  omega

theorem wordAt_congr {b c : ℕ → UInt8} {k : ℕ} (h : ∀ j, k ≤ j → j < k + 4 → b j = c j) :
    wordAt b k = wordAt c k := by
  unfold wordAt
  rw [h k (by omega) (by omega), h (k + 1) (by omega) (by omega), h (k + 2) (by omega) (by omega),
    h (k + 3) (by omega) (by omega)]

theorem toNat_byteOf (w i : ℕ) : (byteOf w i).toNat = w / 2 ^ (8 * i) % 2 ^ 8 := by
  simp [byteOf]

theorem word_of_bytes (w : ℕ) : (byteOf w 0).toNat + 2 ^ 8 * (byteOf w 1).toNat +
    2 ^ 16 * (byteOf w 2).toNat + 2 ^ 24 * (byteOf w 3).toNat = w % 2 ^ 32 := by
  simp only [toNat_byteOf]
  omega

theorem wordAt_putWord (b : ℕ → UInt8) (k w : ℕ) : wordAt (putWord b k w) k = w % 2 ^ 32 := by
  rw [← word_of_bytes]
  simp [wordAt, putWord]

theorem putWord_of_disjoint {b : ℕ → UInt8} {k w j : ℕ} (h : j < k ∨ k + 4 ≤ j) :
    putWord b k w j = b j := if_neg (by omega)

theorem wordAt_putWord_of_disjoint {b : ℕ → UInt8} {k w j : ℕ} (h : j + 4 ≤ k ∨ k + 4 ≤ j) :
    wordAt (putWord b k w) j = wordAt b j :=
  wordAt_congr fun _ _ _ => putWord_of_disjoint (by omega)

theorem blit_inside {b src : ℕ → UInt8} {k n j : ℕ} (h : k ≤ j) (h' : j < k + n) :
    blit b k src n j = src (j - k) := if_pos ⟨h, h'⟩

theorem blit_outside {b src : ℕ → UInt8} {k n j : ℕ} (h : j < k ∨ k + n ≤ j) :
    blit b k src n j = b j := if_neg (by omega)

@[simp] theorem length_wordBytes (w : ℕ) : (wordBytes w).length = 4 := rfl

@[simp] theorem length_slice (b : ℕ → UInt8) (k n : ℕ) : (slice b k n).length = n := by
  simp [slice]

theorem getElem_slice {b : ℕ → UInt8} {k n i : ℕ} (h : i < (slice b k n).length) :
    (slice b k n)[i] = b (k + i) := by
  simp [slice]

theorem bytesOf_eq {data : List UInt8} {i : ℕ} (h : i < data.length) :
    bytesOf data i = data[i] := by
  simp [bytesOf, h]

theorem slice_bytesOf (data : List UInt8) : slice (bytesOf data) 0 data.length = data := by
  apply List.ext_getElem (by simp)
  intro i hi hi'
  rw [getElem_slice, Nat.zero_add, bytesOf_eq]

theorem slice_congr {b c : ℕ → UInt8} {k n : ℕ} (h : ∀ j, k ≤ j → j < k + n → b j = c j) :
    slice b k n = slice c k n := by
  apply List.ext_getElem (by simp)
  intro i hi hi'
  rw [length_slice] at hi
  rw [getElem_slice, getElem_slice, h (k + i) (by omega) (by omega)]

theorem take_drop_slice (b : ℕ → UInt8) (m k n : ℕ) :
    ((slice b 0 m).drop k).take n = slice b k (min n (m - k)) := by
  apply List.ext_getElem (by simp)
  intro i hi hi'
  simp [getElem_slice]

def overlay (old : List UInt8) (k : ℕ) (new : List UInt8) : List UInt8 :=
  old.take k ++ (new ++ old.drop (k + new.length))

theorem length_overlay {old new : List UInt8} {k : ℕ} (hk : k ≤ old.length) :
    (overlay old k new).length = max old.length (k + new.length) := by
  simp only [overlay, List.length_append, List.length_take, List.length_drop]
  omega

theorem overlay_slice {b : ℕ → UInt8} {m k : ℕ} {new : List UInt8} (hk : k ≤ m) :
    overlay (slice b 0 m) k new = slice (blit b k (bytesOf new) new.length) 0 (max m (k + new.length)) := by
  have hl := @length_overlay (slice b 0 m) new _ (by simpa using hk)
  unfold overlay at hl ⊢
  apply List.ext_getElem (by rw [hl]; simp)
  intro i hi hi'
  rw [length_slice] at hi'
  rw [getElem_slice, Nat.zero_add]
  by_cases h : i < k
  · rw [List.getElem_append_left (by simp; omega), blit_outside (Or.inl h)]
    simp [getElem_slice]
  · have hlen : ((slice b 0 m).take k).length = k := by simp [hk]
    rw [List.getElem_append_right (by omega)]
    by_cases h' : i < k + new.length
    · rw [List.getElem_append_left (by omega), blit_inside (by omega) h', bytesOf_eq (by omega)]
      simp only [hlen]
    · rw [List.getElem_append_right (by omega), blit_outside (by omega)]
      simp only [hlen, List.getElem_drop, getElem_slice]
      congr 1
      omega

theorem slice_eq {b : ℕ → UInt8} {k : ℕ} {data : List UInt8}
    (h : ∀ i (hi : i < data.length), b (k + i) = data[i]) : slice b k data.length = data := by
  apply List.ext_getElem (by simp)
  intro i hi hi'
  rw [getElem_slice, h i hi']

theorem wordAt_append (pre post : List UInt8) (w : ℕ) :
    wordAt (bytesOf (pre ++ (wordBytes w ++ post))) pre.length = w % 2 ^ 32 := by
  rw [← word_of_bytes]
  simp [wordAt, bytesOf, wordBytes]

theorem flatMap_split {words : List ℕ} {i w : ℕ} (h : words[i]? = some w) :
    ∃ a b, words.flatMap wordBytes = a ++ (wordBytes w ++ b) ∧ a.length = 4 * i := by
  obtain ⟨hi, hw⟩ := List.getElem?_eq_some_iff.mp h
  have hsplit : words = words.take i ++ w :: words.drop (i + 1) := by
    rw [← hw, ← List.drop_eq_getElem_cons hi, List.take_append_drop]
  refine ⟨(words.take i).flatMap wordBytes, (words.drop (i + 1)).flatMap wordBytes, ?_, ?_⟩
  · conv_lhs => rw [hsplit]
    rw [List.flatMap_append, List.flatMap_cons]
  · have hmin : min i words.length = i := min_eq_left hi.le
    rw [List.length_flatMap]
    simp [hmin, Nat.mul_comm]

theorem wordAt_flatMap {words : List ℕ} {i w : ℕ} (h : words[i]? = some w) (rest : List UInt8) :
    wordAt (bytesOf (words.flatMap wordBytes ++ rest)) (4 * i) = w % 2 ^ 32 := by
  obtain ⟨a, b, he, hl⟩ := flatMap_split h
  rw [he, List.append_assoc, List.append_assoc, ← hl, wordAt_append]

end Eedox.Library.Bytes
