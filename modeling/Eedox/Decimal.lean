import Mathlib.Data.List.Induction
import Mathlib.Data.Nat.Digits.Lemmas
import Eedox.Fs.TableBuffer
import Eedox.Printf

namespace Eedox.Decimal

open Util Library.Bytes
open Fs.TableBuffer (store store_append store_stale)

/-- The loop of `tostr_u` from the index `idx` on: the buffer and the index behind the last digit. -/
def digitsFrom (buffer : List UInt8) (idx i : ℕ) : Option (List UInt8 × ℕ) :=
  if i > 0 then
    (store buffer idx [48 + UInt8.ofNat (i % 10)]).bind fun buffer => digitsFrom buffer (idx + 1) (i / 10)
  else some (buffer, idx)
termination_by i

def strrevFrom (buffer : List UInt8) (len i : ℕ) : Option (List UInt8) :=
  if i < len / 2 then
    buffer[i]?.bind fun temp =>
      buffer[len - i - 1]?.bind fun c =>
        (store buffer i [c]).bind fun buffer =>
          (store buffer (len - i - 1) [temp]).bind fun buffer => strrevFrom buffer len (i + 1)
  else some buffer
termination_by len / 2 - i

def strrev (buffer : List UInt8) (len : ℕ) : Option (List UInt8) := strrevFrom buffer len 0

/-- The buffer is the block behind the pointer; nothing is written outside it. -/
def tostrU (buffer : List UInt8) (i : UInt32) : Option (List UInt8) :=
  if i = 0 then
    (store buffer 0 [48]).bind fun buffer => (store buffer 1 [0]).bind fun buffer => strrev buffer 1
  else
    (digitsFrom buffer 0 i.toNat).bind fun (buffer, idx) =>
      (store buffer idx [0]).bind fun buffer => strrev buffer idx

def digit (d : ℕ) : UInt8 := 48 + UInt8.ofNat d

/-- The digits in the order of the loop. -/
def lowFirst (i : ℕ) : List UInt8 := (Nat.digits 10 i).map digit

/-- The number that a decimal text stands for. -/
def value (cs : List UInt8) : ℕ := cs.foldl (fun v c => 10 * v + (c.toNat - 48)) 0

theorem lowFirst_zero : lowFirst 0 = [] := by simp [lowFirst]

theorem lowFirst_pos {i : ℕ} (hi : 0 < i) : lowFirst i = digit (i % 10) :: lowFirst (i / 10) := by
  rw [lowFirst, Nat.digits_def' (by omega) hi, List.map_cons, ← lowFirst]

theorem length_lowFirst_le {i : ℕ} (hi : i < 2 ^ 32) : (lowFirst i).length ≤ 10 := by
  rw [lowFirst, List.length_map, Nat.digits_length_le_iff (by omega)]
  omega

theorem digitsFrom_eq {i : ℕ} (pre : List UInt8) {stale : List UInt8} (hroom : (lowFirst i).length ≤ stale.length) :
    digitsFrom (pre ++ stale) pre.length i =
      some (pre ++ lowFirst i ++ stale.drop (lowFirst i).length, pre.length + (lowFirst i).length) := by
  induction i using Nat.strong_induction_on generalizing pre stale with
  | _ i ih =>
    rw [digitsFrom]
    rcases Nat.eq_zero_or_pos i with rfl | hi
    · rw [if_neg (lt_irrefl 0), lowFirst_zero]
      simp
    · rw [lowFirst_pos hi] at hroom ⊢
      rw [List.length_cons] at hroom
      have hstore := @store_stale pre stale [digit (i % 10)] (by rw [List.length_singleton]; omega)
      have hrest := @ih (i / 10) (by omega) (pre ++ [digit (i % 10)]) (stale.drop 1)
        (by rw [List.length_drop]; omega)
      rw [List.length_append, List.length_singleton] at hrest
      rw [if_pos hi, ← digit, hstore, Option.bind_some, List.length_singleton, hrest]
      simp [Nat.add_assoc, Nat.add_comm 1]

/-- The part that is not turned around yet lies between the two ends; the middle is one character or none. -/
theorem strrevFrom_eq (mid pre rest : List UInt8) :
    strrevFrom (pre ++ (mid ++ rest)) (2 * pre.length + mid.length) pre.length =
      some (pre ++ (mid.reverse ++ rest)) := by
  induction mid using List.bidirectionalRec generalizing pre rest with
  | nil =>
    rw [strrevFrom, if_neg (by rw [List.length_nil]; omega), List.reverse_nil]
  | singleton a =>
    rw [strrevFrom, if_neg (by rw [List.length_singleton]; omega), List.reverse_singleton]
  | cons_append a mid b ih =>
    have hlen : 2 * pre.length + (a :: (mid ++ [b])).length = 2 * pre.length + mid.length + 2 := by
      simp only [List.length_cons, List.length_append, List.length_nil]
      omega
    have hlast : 2 * pre.length + mid.length + 2 - pre.length - 1 = (pre ++ b :: mid).length := by
      rw [List.length_append, List.length_cons]
      omega
    have hfirst : (pre ++ (a :: (mid ++ [b]) ++ rest))[pre.length]? = some a := by simp
    have hend : (pre ++ (a :: (mid ++ [b]) ++ rest))[(pre ++ b :: mid).length]? = some b := by
      rw [List.length_append, List.length_cons, List.getElem?_append_right (by omega), Nat.add_sub_cancel_left]
      simp
    have hswap₁ := @store_append pre (mid ++ (b :: rest)) [a] [b] rfl
    have hswap₂ := @store_append (pre ++ b :: mid) rest [b] [a] rfl
    have hturn := ih (pre ++ [b]) (a :: rest)
    rw [List.length_append, List.length_singleton,
      (by omega : 2 * (pre.length + 1) + mid.length = 2 * pre.length + mid.length + 2)] at hturn
    rw [hlen, strrevFrom, if_pos (by omega), hlast, hfirst, Option.bind_some, hend, Option.bind_some]
    simp only [List.append_assoc, List.cons_append, List.nil_append] at hswap₁ hswap₂ hturn ⊢
    rw [hswap₁, Option.bind_some, hswap₂, Option.bind_some, hturn]
    simp

theorem strrev_eq (cs rest : List UInt8) : strrev (cs ++ rest) cs.length = some (cs.reverse ++ rest) := by
  have hturned := strrevFrom_eq cs [] rest
  rwa [List.length_nil, Nat.mul_zero, Nat.zero_add] at hturned

theorem decimals_eq {fuel i : ℕ} (hi : i < 10 ^ fuel) : Printf.decimals fuel i = lowFirst i := by
  induction fuel generalizing i with
  | zero =>
    obtain rfl : i = 0 := by omega
    rw [lowFirst_zero]
    rfl
  | succ fuel ih =>
    rw [Printf.decimals]
    rcases Nat.eq_zero_or_pos i with rfl | hpos
    · rw [if_neg (lt_irrefl 0), lowFirst_zero]
    · rw [if_pos hpos, lowFirst_pos hpos, ih (by rw [Nat.pow_succ] at hi; omega), digit]

theorem printf_tostrU {i : ℕ} (hi : i < 2 ^ 32) (hne : i ≠ 0) : Printf.tostrU i = (lowFirst i).reverse := by
  rw [Printf.tostrU, if_neg hne, decimals_eq (by omega)]

/-- The loops write the text of the printing functions, and its end. -/
theorem tostrU_eq (i : UInt32) {buffer : List UInt8} (hroom : (Printf.tostrU i.toNat).length < buffer.length) :
    tostrU buffer i =
      some (Printf.tostrU i.toNat ++ 0 :: buffer.drop ((Printf.tostrU i.toNat).length + 1)) := by
  unfold tostrU
  by_cases hi : i = 0
  · subst hi
    have htext : Printf.tostrU (0 : UInt32).toNat = [48] := rfl
    rw [htext, List.length_singleton] at hroom
    have hzero := @store_stale [] buffer [48] (by rw [List.length_singleton]; omega)
    have hend := @store_stale [48] (buffer.drop 1) [0] (by rw [List.length_drop, List.length_singleton]; omega)
    have hrev := strrev_eq [48] (0 :: buffer.drop 2)
    simp only [List.nil_append, List.length_nil, List.length_singleton] at hzero hend hrev
    rw [htext, if_pos rfl, hzero, Option.bind_some, hend, Option.bind_some]
    simpa using hrev
  · have hne : i.toNat ≠ 0 := fun h => hi (UInt32.toNat_inj.mp h)
    rw [printf_tostrU i.toNat_lt hne, List.length_reverse] at hroom ⊢
    have hdigits := @digitsFrom_eq i.toNat [] buffer hroom.le
    have hend := @store_stale (lowFirst i.toNat) (buffer.drop (lowFirst i.toNat).length) [0]
      (by rw [List.length_drop, List.length_singleton]; omega)
    have hrev := strrev_eq (lowFirst i.toNat) (0 :: buffer.drop ((lowFirst i.toNat).length + 1))
    simp only [List.nil_append, List.length_nil, Nat.zero_add] at hdigits
    rw [if_neg hi, hdigits, Option.bind_some]
    simp only
    rw [hend, Option.bind_some]
    simpa [List.drop_drop] using hrev

theorem toNat_digit {d : ℕ} (hd : d < 10) : (digit d).toNat = 48 + d := by
  have hmod : d % 256 = d := Nat.mod_eq_of_lt (by omega)
  simp only [digit, UInt8.toNat_add, UInt8.toNat_ofNat', Nat.reducePow, hmod]
  change (48 + d) % 256 = 48 + d
  omega

theorem lowFirst_digit {i : ℕ} {c : UInt8} (hc : c ∈ lowFirst i) : 48 ≤ c ∧ c ≤ 57 := by
  obtain ⟨d, hd, rfl⟩ := List.mem_map.mp hc
  have hlt : d < 10 := Nat.digits_lt_base (by omega) hd
  rw [UInt8.le_iff_toNat_le, UInt8.le_iff_toNat_le, toNat_digit hlt]
  change 48 ≤ 48 + d ∧ 48 + d ≤ 57
  omega

theorem value_lowFirst (i : ℕ) : value (lowFirst i).reverse = i := by
  rw [value, List.foldl_reverse]
  induction i using Nat.strong_induction_on with
  | _ i ih =>
    rcases Nat.eq_zero_or_pos i with rfl | hi
    · rw [lowFirst_zero]
      rfl
    · rw [lowFirst_pos hi, List.foldr_cons, ih (i / 10) (by omega), toNat_digit (Nat.mod_lt _ (by omega))]
      omega

/-- The digit that comes first in the text is the last of the loop. -/
theorem head_lowFirst {i : ℕ} (hi : i ≠ 0) : (lowFirst i).reverse.head? ≠ some 48 := by
  rw [List.head?_reverse, lowFirst, List.getLast?_map,
    List.getLast?_eq_some_getLast (Nat.digits_ne_nil_iff_ne_zero.mpr hi), Option.map_some]
  intro h
  have hlt : (Nat.digits 10 i).getLast (Nat.digits_ne_nil_iff_ne_zero.mpr hi) < 10 :=
    Nat.digits_lt_base (by omega) (List.getLast_mem _)
  have hzero := congrArg UInt8.toNat (Option.some.inj h)
  rw [toNat_digit hlt] at hzero
  change 48 + _ = 48 at hzero
  exact Nat.getLast_digit_ne_zero 10 hi (by omega)

/-- What a decimal text of a number is. -/
structure IsDecimal (cs : List UInt8) (i : ℕ) : Prop where
  nonempty : 1 ≤ cs.length
  short : cs.length ≤ 10
  digits : ∀ c ∈ cs, 48 ≤ c ∧ c ≤ 57
  leading : cs.head? = some 48 → cs = [48]
  value : value cs = i

theorem isDecimal_tostrU {i : ℕ} (hi : i < 2 ^ 32) : IsDecimal (Printf.tostrU i) i := by
  by_cases hne : i = 0
  · subst hne
    refine ⟨by decide, by decide, fun c hc => ?_, fun _ => rfl, rfl⟩
    obtain rfl := List.mem_singleton.mp hc
    exact ⟨UInt8.le_refl 48, by decide⟩
  · rw [printf_tostrU hi hne]
    refine ⟨?_, ?_, fun c hc => lowFirst_digit (List.mem_reverse.mp hc),
      fun h => absurd h (head_lowFirst hne), value_lowFirst i⟩
    · rw [List.length_reverse, lowFirst_pos (by omega), List.length_cons]
      omega
    · rw [List.length_reverse]
      exact length_lowFirst_le hi

theorem IsDecimal.nul {cs : List UInt8} {i : ℕ} (h : IsDecimal cs i) : 0 ∉ cs :=
  fun hm => absurd (h.digits 0 hm).1 (by decide)

theorem printing_invertible :
    (∀ (i : UInt32) (buffer : List UInt8), 11 ≤ buffer.length →
      ∃ cs, tostrU buffer i = some (cs ++ 0 :: buffer.drop (cs.length + 1)) ∧ IsDecimal cs i.toNat) ∧
    ∀ (i j : UInt32) (buffer buffer' : List UInt8), 11 ≤ buffer.length → 11 ≤ buffer'.length →
      i ≠ j → (tostrU buffer i).map text ≠ (tostrU buffer' j).map text := by
  have hprint (i : UInt32) (buffer : List UInt8) (hb : 11 ≤ buffer.length) : tostrU buffer i =
      some (Printf.tostrU i.toNat ++ 0 :: buffer.drop ((Printf.tostrU i.toNat).length + 1)) := by
    have hshort := (isDecimal_tostrU i.toNat_lt).short
    exact tostrU_eq i (by omega)
  refine ⟨fun i buffer hb => ⟨_, hprint i buffer hb, isDecimal_tostrU i.toNat_lt⟩, ?_⟩
  intro i j buffer buffer' hb hb' hne htext
  have hi := isDecimal_tostrU i.toNat_lt
  have hj := isDecimal_tostrU j.toNat_lt
  rw [hprint i buffer hb, hprint j buffer' hb', Option.map_some, Option.map_some, Option.some.injEq,
    text_terminated hi.nul, text_terminated hj.nul] at htext
  apply hne
  rw [← UInt32.toNat_inj, ← hi.value, ← hj.value, htext]

theorem printing_invertible_digits :
    (∃ cs, tostrU (List.replicate 11 1) 4294967295 =
        some (cs ++ 0 :: (List.replicate 11 1).drop (cs.length + 1)) ∧
      IsDecimal cs (4294967295 : UInt32).toNat) ∧
    (tostrU (List.replicate 11 1) 10).map text ≠ (tostrU (List.replicate 11 1) 100).map text :=
  ⟨printing_invertible.1 4294967295 (List.replicate 11 1) (by decide),
    printing_invertible.2 10 100 (List.replicate 11 1) (List.replicate 11 1) (by decide) (by decide) (by decide)⟩

end Eedox.Decimal
