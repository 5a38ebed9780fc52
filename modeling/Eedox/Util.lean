import Mathlib.Data.List.Basic
import Mathlib.Data.List.TakeWhile

namespace Eedox.Util

/-- A character pointer is given by the bytes from it to the end of its object. -/
def strlen : List UInt8 → ℕ
  | [] => 0
  | c :: cs => if c = 0 then 0 else strlen cs + 1

def text (str : List UInt8) : List UInt8 := str.take (strlen str)

/-- Characters compare as signed bytes. -/
def strcmp : List UInt8 → List UInt8 → ℤ
  | [], [] => 0
  | a :: _, [] => if a = 0 then 0 else 1
  | [], b :: _ => if b = 0 then 0 else -1
  | a :: as, b :: bs =>
    if a ≠ 0 ∧ b ≠ 0 then
      if a.toInt8 > b.toInt8 then 1 else if a.toInt8 < b.toInt8 then -1 else strcmp as bs
    else if a ≠ 0 then 1
    else if b ≠ 0 then -1
    else 0

/-- The characters of a C string. -/
@[ext] structure Str where
  chars : List UInt8
  nul : 0 ∉ chars
  deriving DecidableEq

theorem nul_nil : (0 : UInt8) ∉ [] := List.not_mem_nil

theorem nul_a : (0 : UInt8) ∉ [97] := by decide

theorem nul_b : (0 : UInt8) ∉ [98] := by decide

/-- `memcpy(dest, src, n)` where `dest` and `src` may lie in one object. -/
def memcpy (dest src : List UInt8) (n : ℕ) : List UInt8 := src.take n ++ dest.drop n

theorem strlen_nil : strlen [] = 0 := rfl

theorem strlen_cons (c : UInt8) (cs : List UInt8) : strlen (c :: cs) = if c = 0 then 0 else strlen cs + 1 := rfl

theorem strlen_le (str : List UInt8) : strlen str ≤ str.length := by
  induction str with
  | nil => simp [strlen_nil]
  | cons c cs ih =>
    by_cases hc : c = 0
    · simp [strlen_cons, hc]
    · simp [strlen_cons, hc, ih]

@[simp] theorem strlen_zero_cons (str : List UInt8) : strlen (0 :: str) = 0 := by simp [strlen_cons]

theorem strlen_append {str tail : List UInt8} (h : 0 ∉ str) :
    strlen (str ++ tail) = str.length + strlen tail := by
  induction str with
  | nil => simp
  | cons c cs ih =>
    simp only [List.mem_cons, not_or] at h
    simp only [List.cons_append, strlen_cons, Ne.symm h.1, ↓reduceIte, ih h.2, List.length_cons]
    omega

theorem strlen_terminated {str : List UInt8} (h : 0 ∉ str) (tail : List UInt8) :
    strlen (str ++ 0 :: tail) = str.length := by
  rw [strlen_append h, strlen_zero_cons, Nat.add_zero]

theorem text_terminated {str : List UInt8} (h : 0 ∉ str) (tail : List UInt8) :
    text (str ++ 0 :: tail) = str := by
  rw [text, strlen_terminated h, List.take_left]

theorem zero_notMem_text (str : List UInt8) : 0 ∉ text str := by
  induction str with
  | nil => simp [text]
  | cons c cs ih =>
    by_cases hc : c = 0
    · simp [text, strlen_cons, hc]
    · simpa [text, strlen_nil, strlen_cons, hc, eq_comm] using ih

theorem length_text (str : List UInt8) : (text str).length = strlen str := by
  simp [text, strlen_le]

theorem text_of_notMem {str : List UInt8} (h : 0 ∉ str) : text str = str := by
  have hs := @strlen_append _ [] h
  rw [List.append_nil] at hs
  rw [text, hs]
  simp [strlen_nil]

theorem strcmp_eq_zero (a b : List UInt8) : strcmp a b = 0 ↔ text a = text b := by
  induction a generalizing b with
  | nil =>
    cases b with
    | nil => simp [strcmp]
    | cons d ds => by_cases hd : d = 0 <;> simp [strcmp, text, strlen_nil, strlen_cons, hd]
  | cons c cs ih =>
    cases b with
    | nil => by_cases hc : c = 0 <;> simp [strcmp, text, strlen_nil, strlen_cons, hc]
    | cons d ds =>
      by_cases hc : c = 0
      · by_cases hd : d = 0 <;> simp [strcmp, text, strlen_cons, hc, hd]
      · by_cases hd : d = 0
        · simp [strcmp, text, strlen_cons, hc, hd]
        · by_cases hcd : c = d
          · subst hcd
            have := ih ds
            simpa [strcmp, text, strlen_nil, strlen_cons, hc] using this
          · have hlt : d.toInt8 < c.toInt8 ∨ c.toInt8 < d.toInt8 := by
              have hne : c.toInt8 ≠ d.toInt8 := fun h => hcd (by
                have hu := congrArg Int8.toUInt8 h
                simpa using hu)
              rw [Int8.lt_iff_toInt_lt, Int8.lt_iff_toInt_lt]
              have hi := mt Int8.toInt_inj.mp hne
              omega
            have hne : text (c :: cs) ≠ text (d :: ds) := by simp [text, strlen_cons, hc, hd, hcd]
            rcases hlt with hlt | hlt
            · simp [strcmp, hc, hd, hlt, hne]
            · by_cases hgt : d.toInt8 < c.toInt8 <;> simp [strcmp, hc, hd, hlt, hgt, hne]

theorem Str.strcmp_eq_zero (a b : Str) : strcmp a.chars b.chars = 0 ↔ a = b := by
  rw [Util.strcmp_eq_zero, text_of_notMem a.nul, text_of_notMem b.nul, Str.ext_iff]

theorem Str.strcmp_terminated (a b : Str) (tail : List UInt8) :
    strcmp (a.chars ++ 0 :: tail) b.chars = 0 ↔ a = b := by
  rw [Util.strcmp_eq_zero, text_terminated a.nul, text_of_notMem b.nul, Str.ext_iff]

end Eedox.Util
