import Eedox.Util
import Mathlib.Algebra.Group.Int.Defs
import Mathlib.Algebra.Group.Nat.Defs

namespace Eedox.Printf

open Util

def partialPrintBufferSize : ℕ := 512

/-- The size of `local` in `_kprintf`, `sprintf` and `_printf`. -/
def localSize : ℕ := partialPrintBufferSize + 16

/-- The words that a `va_list` points to, and the strings at the addresses among them. -/
structure VaList where
  words : ℕ → ℕ
  strings : ℕ → Str

/-- The digits from the last one on. A number of 32 bits has ten at most. -/
def decimals : (fuel i : ℕ) → List UInt8
  | 0, _ => []
  | fuel + 1, i => if i > 0 then (48 + UInt8.ofNat (i % 10)) :: decimals fuel (i / 10) else []

def tostrU (i : ℕ) : List UInt8 := if i = 0 then [48] else (decimals 10 i).reverse

def decToHex (d : ℕ) : UInt8 := if d < 10 then 48 + UInt8.ofNat d else 97 + UInt8.ofNat (d - 10)

/-- The last `n` hexadecimal digits. -/
def hexDigits : (n h : ℕ) → List UInt8
  | 0, _ => []
  | n + 1, h => hexDigits n (h / 16) ++ [decToHex (h % 16)]

def tostrX (h : ℕ) : List UInt8 := [48, 120] ++ hexDigits 8 h

def VaList.unsigned (args : VaList) (a : ℕ) : List UInt8 := tostrU (args.words a % 2 ^ 32)

def VaList.hex (args : VaList) (a : ℕ) : List UInt8 := tostrX (args.words a % 2 ^ 32)

/-- A null pointer prints nothing. -/
def VaList.string (args : VaList) (a : ℕ) : List UInt8 :=
  if args.words a % 2 ^ 32 ≠ 0 then (args.strings (args.words a % 2 ^ 32)).chars else []

/-- The loop of `partial_print` from the index `i` and the argument `a` on, behind the bytes in `out`: the
index returned, which is `none` for -1, and all bytes written. -/
def printFrom (args : VaList) : (message : List UInt8) → (i a : ℕ) → (out : List UInt8) → Option ℕ × List UInt8
  | [], i, _, out => (some i, out)
  | [c], i, _, out =>
    if out.length < partialPrintBufferSize then
      if c = 37 then (none, out) else (some (i + 1), out ++ [c])
    else (some i, out)
  | c :: ty :: message, i, a, out =>
    if out.length < partialPrintBufferSize then
      if c = 37 then
        if ty = 37 then printFrom args message (i + 2) a (out ++ [37])
        else if ty = 117 then printFrom args message (i + 2) (a + 1) (out ++ args.unsigned a)
        else if ty = 120 then printFrom args message (i + 2) (a + 1) (out ++ args.hex a)
        else if ty = 115 then printFrom args message (i + 2) (a + 1) (out ++ args.string a)
        else (none, out)
      else printFrom args (ty :: message) (i + 1) a (out ++ [c])
    else (some i, out)

/-- The arguments come by value: each call starts with the first one. -/
def partialPrint (args : VaList) (index : ℕ) (message : Str) : Option ℕ × List UInt8 :=
  printFrom args (message.chars.drop index) index 0 []

/-- The bytes and their end lie inside `local`. -/
def Fits (chunk : List UInt8) : Prop := chunk.length + 1 ≤ localSize

instance (chunk : List UInt8) : Decidable (Fits chunk) := inferInstanceAs (Decidable (_ ≤ _))

/-- The loop that `_kprintf`, `sprintf` and `_printf` share: the chunks in order, and whether the format has been
understood. A chunk that overruns `local` ends the model's knowledge. -/
def printChunks (args : VaList) (message : Str) : (fuel index : ℕ) → Option (List (List UInt8) × Bool)
  | 0, _ => none
  | fuel + 1, index =>
    if index < message.chars.length then
      match partialPrint args index message with
      | (none, chunk) => if Fits chunk then some ([], false) else none
      | (some next, chunk) =>
        if Fits chunk then
          (printChunks args message fuel next).map fun (chunks, ok) => (chunk :: chunks, ok)
        else none
    else some ([], true)

/-- What is printed, and the number returned. -/
def printing (args : VaList) (message : Str) : Option (List UInt8 × ℤ) :=
  (printChunks args message (message.chars.length + 1) 0).map fun (chunks, ok) =>
    (chunks.flatten, if ok then (chunks.flatten.length : ℤ) else -1)

/-- The text goes to the terminal. -/
def kprintf (message : Str) (args : VaList) : Option (List UInt8 × ℤ) := printing args message

/-- The text goes to the buffer. -/
def sprintf (message : Str) (args : VaList) : Option (List UInt8 × ℤ) := printing args message

/-- The text goes to the standard output. -/
def printf (message : Str) (args : VaList) : Option (List UInt8 × ℤ) := printing args message

end Eedox.Printf
