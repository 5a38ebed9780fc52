import Mathlib.Logic.Function.Basic
import Mathlib.Order.Nat

namespace Eedox.Bitset

structure BitsetT where
  start : ℕ → UInt8
  len : ℕ

def bitsetInit (bs : BitsetT) (len : ℕ) : BitsetT :=
  { start := fun i => if i < len / 8 then 0 else bs.start i, len := len }

def mask (index : ℕ) : UInt8 := 0x80 >>> UInt8.ofNat (index % 8)

def bitsetGet (bs : BitsetT) (index : ℕ) : Bool := bs.start (index / 8) &&& mask index ≠ 0

/-- A bit is never cleared: the value 0 adds nothing to the byte. -/
def bitsetSet (bs : BitsetT) (index : ℕ) (val : Bool) : BitsetT :=
  { bs with
    start := Function.update bs.start (index / 8)
      (bs.start (index / 8) ||| (if val then mask index else 0)) }

/-- The first of the `n` bits from `idx` on that is not set. -/
def unsetBit (bs : BitsetT) (idx : ℕ) : (n : ℕ) → Option ℕ
  | 0 => none
  | n + 1 => if bitsetGet bs idx then unsetBit bs (idx + 1) n else some idx

def unsetByte (bs : BitsetT) (i : ℕ) : (n : ℕ) → Option ℕ
  | 0 => none
  | n + 1 =>
    if bs.start i = 0xff then unsetByte bs (i + 1) n
    else
      match unsetBit bs (i * 8) 8 with
      | some idx => some idx
      | none => unsetByte bs (i + 1) n

def bitsetFirstUnset (bs : BitsetT) : Option ℕ := unsetByte bs 0 (bs.len / 8)

theorem mask_inter : ∀ i < 8, ∀ j < 8, (0x80 >>> UInt8.ofNat i : UInt8) &&& 0x80 >>> UInt8.ofNat j =
    if i = j then 0x80 >>> UInt8.ofNat j else 0 := by
  decide

theorem mask_ne_zero : ∀ i < 8, (0x80 >>> UInt8.ofNat i : UInt8) ≠ 0 := by
  decide

theorem full_mask : ∀ i < 8, (0xff : UInt8) &&& 0x80 >>> UInt8.ofNat i ≠ 0 := by
  decide

theorem or_and_distrib (a m n : UInt8) : (a ||| m) &&& n = (a &&& n) ||| (m &&& n) := by
  apply UInt8.toBitVec_inj.mp
  rw [UInt8.toBitVec_and, UInt8.toBitVec_or, UInt8.toBitVec_or, UInt8.toBitVec_and,
    UInt8.toBitVec_and]
  ext i
  simp [Bool.and_or_distrib_right]

/-- Setting a bit sets that bit and no other. -/
@[simp] theorem bitsetGet_set (bs : BitsetT) (index j : ℕ) :
    bitsetGet (bitsetSet bs index true) j = (decide (j = index) || bitsetGet bs j) := by
  have hi : index % 8 < 8 := Nat.mod_lt _ (by omega)
  have hj : j % 8 < 8 := Nat.mod_lt _ (by omega)
  by_cases hbyte : j / 8 = index / 8
  · simp only [bitsetGet, bitsetSet, hbyte, Function.update_self, if_pos, mask, or_and_distrib,
      mask_inter _ hi _ hj]
    by_cases hbit : index % 8 = j % 8
    · have heq : j = index := by omega
      simp [hbit, heq, UInt8.or_eq_zero_iff, mask_ne_zero _ hj]
    · have hne : j ≠ index := fun h => hbit (by rw [h])
      simp [hbit, hne]
  · have hne : j ≠ index := fun h => hbyte (by rw [h])
    simp [bitsetGet, bitsetSet, Function.update_of_ne hbyte, hne]

@[simp] theorem bitsetSet_len (bs : BitsetT) (index : ℕ) (val : Bool) :
    (bitsetSet bs index val).len = bs.len := rfl

theorem unsetBit_succ (bs : BitsetT) (idx n : ℕ) :
    unsetBit bs idx (n + 1) = if bitsetGet bs idx then unsetBit bs (idx + 1) n else some idx := rfl

theorem unsetBit_some {bs : BitsetT} {idx n k : ℕ} (h : unsetBit bs idx n = some k) :
    idx ≤ k ∧ k < idx + n ∧ bitsetGet bs k = false ∧ ∀ j, idx ≤ j → j < k → bitsetGet bs j = true := by
  induction n generalizing idx with
  | zero => cases h
  | succ n ih =>
    rw [unsetBit_succ] at h
    split at h
    · next hset =>
      obtain ⟨h1, h2, h3, h4⟩ := ih h
      refine ⟨by omega, by omega, h3, fun j hj hk => ?_⟩
      rcases Nat.eq_or_lt_of_le hj with rfl | hlt
      · exact hset
      · exact h4 j hlt hk
    · next hset =>
      obtain rfl := Option.some.inj h
      exact ⟨le_rfl, by omega, by simpa using hset, fun j _ _ => by omega⟩

theorem unsetBit_none {bs : BitsetT} {idx n : ℕ} (h : unsetBit bs idx n = none) (j : ℕ)
    (hj : idx ≤ j) (hn : j < idx + n) : bitsetGet bs j = true := by
  induction n generalizing idx with
  | zero => omega
  | succ n ih =>
    rw [unsetBit_succ] at h
    split at h
    · next hset =>
      rcases Nat.eq_or_lt_of_le hj with rfl | hlt
      · exact hset
      · exact ih h hlt (by omega)
    · cases h

theorem bitsetGet_full {bs : BitsetT} {i j : ℕ} (h : bs.start i = 0xff) (hj : j / 8 = i) :
    bitsetGet bs j = true := by
  simpa [bitsetGet, hj, h, mask] using full_mask (j % 8) (Nat.mod_lt _ (by omega))

theorem unsetByte_spec {bs : BitsetT} {i n : ℕ} (hbelow : ∀ j < i * 8, bitsetGet bs j = true) :
    match unsetByte bs i n with
    | some k => k < (i + n) * 8 ∧ bitsetGet bs k = false ∧ ∀ j < k, bitsetGet bs j = true
    | none => ∀ j < (i + n) * 8, bitsetGet bs j = true := by
  induction n generalizing i with
  | zero => simpa [unsetByte] using hbelow
  | succ n ih =>
    have hstep (hbyte : ∀ j, i * 8 ≤ j → j < i * 8 + 8 → bitsetGet bs j = true) :
        ∀ j < (i + 1) * 8, bitsetGet bs j = true := by
      intro j hj
      by_cases hlt : j < i * 8
      · exact hbelow j hlt
      · exact hbyte j (by omega) (by omega)
    have hnext (hbyte : ∀ j, i * 8 ≤ j → j < i * 8 + 8 → bitsetGet bs j = true) :=
      ih (hstep hbyte)
    rw [show i + 1 + n = i + (n + 1) by omega] at hnext
    rw [unsetByte]
    by_cases hfull : bs.start i = 0xff
    · rw [if_pos hfull]
      exact hnext fun j h1 h2 => bitsetGet_full hfull (by omega)
    · rw [if_neg hfull]
      cases hbit : unsetBit bs (i * 8) 8 with
      | none => exact hnext fun j h1 h2 => unsetBit_none hbit j h1 (by omega)
      | some k =>
        obtain ⟨h1, h2, h3, h4⟩ := unsetBit_some hbit
        refine ⟨by omega, h3, fun j hj => ?_⟩
        by_cases hlt : j < i * 8
        · exact hbelow j hlt
        · exact h4 j (by omega) hj

/-- The scan finds the first bit that is not set. -/
theorem bitsetFirstUnset_some {bs : BitsetT} {k : ℕ} (h : bitsetFirstUnset bs = some k) :
    k < bs.len ∧ bitsetGet bs k = false ∧ ∀ j < k, bitsetGet bs j = true := by
  have hs := @unsetByte_spec bs 0 (bs.len / 8) (fun j hj => by omega)
  rw [bitsetFirstUnset] at h
  rw [h] at hs
  obtain ⟨h1, h2, h3⟩ := hs
  exact ⟨by omega, h2, h3⟩

theorem bitsetFirstUnset_none {bs : BitsetT} (h : bitsetFirstUnset bs = none) (j : ℕ)
    (hj : j < bs.len / 8 * 8) : bitsetGet bs j = true := by
  have hs := @unsetByte_spec bs 0 (bs.len / 8) (fun j hj => by omega)
  rw [bitsetFirstUnset] at h
  rw [h, Nat.zero_add] at hs
  exact hs j hj

theorem bitsetGet_init (bs : BitsetT) {len j : ℕ} (hj : j < len / 8 * 8) :
    bitsetGet (bitsetInit bs len) j = false := by
  simp [bitsetGet, bitsetInit, show j / 8 < len / 8 by omega]

end Eedox.Bitset
