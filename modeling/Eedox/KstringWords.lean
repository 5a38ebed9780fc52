import Eedox.Kstring
import Eedox.OverlapCopy
import Eedox.Library.Refinement

/-!
The whole of `kstring.c` with its sums and products of 32 bits. `Kstring` has the part that the terminal and the
paths use, on strings that are far from 32 bits.
-/

namespace Eedox.KstringWords

open Library Library.Bytes Library.Words Library.Refinement Util
open Fs.TableBuffer (strlenIn strlenIn_terminated store store_append store_stale)
open Kstring (KstringT strcpy strcpy_stale store_end kstringClear)
open OverlapCopy (index memshiftIn memshiftIn_back memshiftIn_forth memshiftIn_some bmod_pos)

section model

-- What a new block of memory holds.
variable (junk : ℕ → UInt8)

def kstringAlloc (size : ℕ) : List UInt8 := slice junk 0 (add32 size 1)

def kstringNewSh (size : ℕ) : Option KstringT :=
  (store (kstringAlloc junk size) 0 [0]).map fun buffer => ⟨buffer, 0, size⟩

def kstringNewS (size : ℕ) : Option KstringT := kstringNewSh junk size

def kstringNew : Option KstringT := kstringNewSh junk 4

/-- The loops that double a capacity. After 32 turns it is 0 and stays so: a loop that has not ended by then never
ends. -/
def doubled : (turns newCap newSize : ℕ) → Option ℕ
  | 0, _, _ => none
  | turns + 1, newCap, newSize =>
    if newSize > newCap then doubled turns (newCap * 2 % 2 ^ 32) newSize else some newCap

def kstringFrom (str : List UInt8) : Option KstringT :=
  (strlenIn str).bind fun size =>
    (doubled 33 4 size).bind fun cap =>
      (kstringNewSh junk cap).bind fun kstr =>
        (strcpy kstr.buffer 0 str).bind fun buffer =>
          (store buffer size [0]).map fun buffer => ⟨buffer, size, cap⟩

def kstringResize (kstr : KstringT) (size : ℕ) : Option KstringT :=
  if size ≥ kstr.size ∧ size ≠ 0 then
    (strcpy (kstringAlloc junk size) 0 kstr.buffer).bind fun newbuffer =>
      (store newbuffer kstr.size [0]).map fun newbuffer => ⟨newbuffer, kstr.size, size⟩
  else some kstr

def kstringFit (kstr : KstringT) : Option KstringT := kstringResize junk kstr kstr.size

def kstringPush (kstr : KstringT) (c : UInt8) : Option KstringT :=
  (if kstr.size = kstr.cap then kstringResize junk kstr (kstr.cap * 2 % 2 ^ 32) else some kstr).bind fun kstr =>
    (store kstr.buffer kstr.size [c]).bind fun buffer =>
      (store buffer (add32 kstr.size 1) [0]).map fun buffer => ⟨buffer, add32 kstr.size 1, kstr.cap⟩

/-- What `kstring_append` and `kstring_insert` do when the new size is above the capacity. -/
def grow (kstr : KstringT) (newSize : ℕ) : Option KstringT :=
  if newSize > kstr.cap then (doubled 33 kstr.cap newSize).bind (kstringResize junk kstr) else some kstr

def kstringAppend (kstr : KstringT) (str : List UInt8) : Option KstringT :=
  (strlenIn str).bind fun strSize =>
    let newSize := add32 kstr.size strSize
    (grow junk kstr newSize).bind fun kstr =>
      (strcpy kstr.buffer kstr.size str).bind fun buffer =>
        (store buffer newSize [0]).map fun buffer => ⟨buffer, newSize, kstr.cap⟩

/-- The offset is `-len`, as an `int32_t`. -/
def kstringErase (kstr : KstringT) (pos len : ℕ) : Option KstringT :=
  if add32 pos len ≥ kstr.size then
    if pos < kstr.size then (store kstr.buffer pos [0]).map fun buffer => ⟨buffer, pos, kstr.cap⟩
    else some kstr
  else
    let size := sub32 kstr.size len
    (memshiftIn kstr.buffer (add32 pos len) (Int.bmod (sub32 0 len) (2 ^ 32)) (sub32 (sub32 kstr.size pos) len)).bind
      fun buffer => (store buffer size [0]).map fun buffer => ⟨buffer, size, kstr.cap⟩

def kstringInsert (kstr : KstringT) (pos : ℕ) (str : List UInt8) : Option KstringT :=
  if pos ≥ kstr.size then kstringAppend junk kstr str
  else
    (strlenIn str).bind fun strSize =>
      (grow junk kstr (add32 kstr.size strSize)).bind fun kstr =>
        (memshiftIn kstr.buffer pos (Int.bmod strSize (2 ^ 32)) (sub32 kstr.size pos)).bind fun buffer =>
          (strcpy buffer pos str).bind fun buffer =>
            let size := add32 kstr.size strSize
            (store buffer size [0]).map fun buffer => ⟨buffer, size, kstr.cap⟩

/-- The old block goes back to the heap first. -/
def kstringAssign (_kstr : KstringT) (str : List UInt8) : Option KstringT := kstringFrom junk str

def kstringCopy (kstr : KstringT) : KstringT := { kstr with buffer := kstringAlloc junk kstr.cap }

inductive New
  | new
  | newS (size : UInt32)
  | ofStr (str : Str)

inductive Op
  | push (c : UInt8)
  | append (str : Str)
  | insert (pos : UInt32) (str : Str)
  | erase (pos len : UInt32)
  | assign (str : Str)
  | resize (size : UInt32)
  | fit
  | clear

def cString (str : Str) : List UInt8 := str.chars ++ [0]

def run (kstr : KstringT) : Op → Option KstringT
  | .push c => kstringPush junk kstr c
  | .append str => kstringAppend junk kstr (cString str)
  | .insert pos str => kstringInsert junk kstr pos.toNat (cString str)
  | .erase pos len => kstringErase kstr pos.toNat len.toNat
  | .assign str => kstringAssign junk kstr (cString str)
  | .resize size => kstringResize junk kstr size.toNat
  | .fit => kstringFit junk kstr
  | .clear => kstringClear kstr

/-- The heap has a block for every string; no call returns anything. -/
def strings : Kind New Op Empty KstringT where
  make
    | .new => kstringNew junk
    | .newS size => kstringNewS junk size.toNat
    | .ofStr str => kstringFrom junk (cString str)
  act kstr op := (run junk kstr op).map fun kstr => (kstr, [])
  copy kstr := some (kstringCopy junk kstr)

end model

/-- What the calls do to a string of bytes. -/
def texts : Abstract New Op Empty (List UInt8) where
  make
    | .new => []
    | .newS _ => []
    | .ofStr str => str.chars
  act cs
    | .push c => (cs ++ [c], [])
    | .append str => (cs ++ str.chars, [])
    | .insert pos str => (cs.take pos.toNat ++ (str.chars ++ cs.drop pos.toNat), [])
    | .erase pos len => (cs.take pos.toNat ++ cs.drop (pos.toNat + len.toNat), [])
    | .assign str => (str.chars, [])
    | .resize _ => (cs, [])
    | .fit => (cs, [])
    | .clear => ([], [])

/-- The buffer holds the bytes and their end, in a block of `cap + 1` bytes. -/
structure Holds (kstr : KstringT) (cs : List UInt8) : Prop where
  size : kstr.size = cs.length
  nul : 0 ∉ cs
  fits : kstr.size ≤ kstr.cap
  room : kstr.buffer.length = kstr.cap + 1
  block : kstr.buffer.length < 2 ^ 32
  ended : cs ++ [0] <+: kstr.buffer

def Allowed (_kstr : KstringT) : Op → Prop
  | .push c => c ≠ 0
  | _ => True

instance (kstr : KstringT) : (op : Op) → Decidable (Allowed kstr op)
  | .push _ => inferInstanceAs (Decidable (_ ≠ _))
  | .append _ | .insert _ _ | .erase _ _ | .assign _ | .resize _ | .fit | .clear => inferInstanceAs (Decidable True)

/-- There is a block with room for the capacity and the end. -/
def Small : New → Prop
  | .new => True
  | .newS size => size.toNat < 2 ^ 32 - 1
  | .ofStr str => str.chars.length ≤ 2 ^ 31

/-- One of the doublings of the capacity has room, if there is none yet. -/
def Reaches (kstr : KstringT) (str : Str) : Prop :=
  kstr.size + str.chars.length < 2 ^ 32 ∧ (kstr.size + str.chars.length ≤ kstr.cap ∨
    ∃ j, kstr.size + str.chars.length ≤ kstr.cap * 2 ^ j % 2 ^ 32)

def Guarded (kstr : KstringT) : Op → Prop
  | .push _ => kstr.size = kstr.cap → 0 < kstr.cap ∧ kstr.cap < 2 ^ 31
  | .append str => Reaches kstr str
  | .insert _ str => Reaches kstr str
  | .erase pos len => pos.toNat + len.toNat < 2 ^ 32 ∨ kstr.size ≤ pos.toNat + len.toNat - 2 ^ 32
  | .assign str => str.chars.length ≤ 2 ^ 31
  | .resize size => size.toNat < 2 ^ 32 - 1
  | .fit => True
  | .clear => True

/-- The new block happens to hold the string already. -/
def Lucky (junk : ℕ → UInt8) (kstr : KstringT) : Prop :=
  kstr.buffer.take (kstr.size + 1) <+: kstringAlloc junk kstr.cap

section doubling

variable {newCap newSize turns : ℕ}

/-- What a loop that ends leaves: enough, and an even number if it has turned. -/
theorem doubled_some {c : ℕ} (h : doubled turns newCap newSize = some c) (hcap : newCap < 2 ^ 32) :
    newSize ≤ c ∧ (c = newCap ∨ c < 2 ^ 32 - 1) ∧ ∃ j, c = newCap * 2 ^ j % 2 ^ 32 := by
  induction turns generalizing newCap with
  | zero => cases h
  | succ turns ih =>
    rw [doubled] at h
    by_cases hlt : newSize > newCap
    · rw [if_pos hlt] at h
      obtain ⟨hle, heven, j, hj⟩ := ih h (Nat.mod_lt _ (by decide))
      refine ⟨hle, Or.inr (by omega), j + 1, ?_⟩
      rw [hj, Nat.mod_mul_mod, Nat.mul_assoc, ← Nat.pow_succ']
    · rw [if_neg hlt] at h
      obtain rfl := Option.some.inj h
      refine ⟨by omega, Or.inl rfl, 0, ?_⟩
      rw [Nat.pow_zero, Nat.mul_one, Nat.mod_eq_of_lt hcap]

theorem doubled_of_le {j : ℕ} (hcap : newCap < 2 ^ 32) (hj : newSize ≤ newCap * 2 ^ j % 2 ^ 32) (hturns : j < turns) :
    ∃ c, doubled turns newCap newSize = some c := by
  induction turns generalizing newCap j with
  | zero => omega
  | succ turns ih =>
    rw [doubled]
    by_cases hlt : newSize > newCap
    · rw [if_pos hlt]
      cases j with
      | zero =>
        rw [Nat.pow_zero, Nat.mul_one, Nat.mod_eq_of_lt hcap] at hj
        omega
      | succ j =>
        refine @ih (newCap * 2 % 2 ^ 32) j (Nat.mod_lt _ (by decide)) ?_ (by omega)
        rwa [Nat.mod_mul_mod, Nat.mul_assoc, ← Nat.pow_succ']
    · exact ⟨newCap, if_neg hlt⟩

theorem doubled_iff (hcap : newCap < 2 ^ 32) :
    (∃ c, doubled 33 newCap newSize = some c) ↔ ∃ j, newSize ≤ newCap * 2 ^ j % 2 ^ 32 := by
  constructor
  · rintro ⟨c, hc⟩
    obtain ⟨hle, -, j, rfl⟩ := doubled_some hc hcap
    exact ⟨j, hle⟩
  · rintro ⟨j, hj⟩
    by_cases hturns : j < 33
    · exact doubled_of_le hcap hj hturns
    · have hzero : newCap * 2 ^ j % 2 ^ 32 = 0 := by
        have hpow : 2 ^ j = 2 ^ 32 * 2 ^ (j - 32) := by rw [← Nat.pow_add, Nat.add_sub_of_le (by omega)]
        rw [hpow, Nat.mul_left_comm, Nat.mul_mod_right]
      exact ⟨newCap, by rw [doubled, if_neg (by omega)]⟩

theorem doubled_none (hcap : newCap < 2 ^ 32) (h : ¬∃ j, newSize ≤ newCap * 2 ^ j % 2 ^ 32) :
    doubled 33 newCap newSize = none := by
  rw [← doubled_iff hcap, ← Option.isSome_iff_exists] at h
  simpa using h

/-- From 4 on the doublings are the powers of 2. -/
theorem reaches_init : (∃ j, newSize ≤ 4 * 2 ^ j % 2 ^ 32) ↔ newSize ≤ 2 ^ 31 := by
  constructor
  · rintro ⟨j, hj⟩
    refine hj.trans ?_
    by_cases hlt : j < 30
    · have hpow : 2 ^ j ≤ 2 ^ 29 := Nat.pow_le_pow_right (by decide) (by omega)
      have hmod := Nat.mod_le (4 * 2 ^ j) (2 ^ 32)
      omega
    · have hpow : 2 ^ j = 2 ^ 30 * 2 ^ (j - 30) := by rw [← Nat.pow_add, Nat.add_sub_of_le (by omega)]
      omega
  · exact fun h => ⟨29, h⟩

end doubling

section steps

variable {junk : ℕ → UInt8} {kstr : KstringT} {cs : List UInt8} {n : ℕ}

theorem length_kstringAlloc (junk : ℕ → UInt8) (hn : n < 2 ^ 32 - 1) : (kstringAlloc junk n).length = n + 1 := by
  rw [kstringAlloc, length_slice, add32_of_lt (by omega)]

theorem store_some {buffer b bytes : List UInt8} {k : ℕ} (h : store buffer k bytes = some b) :
    k + bytes.length ≤ buffer.length ∧ b.length = buffer.length := by
  unfold store at h
  split_ifs at h with hfits
  obtain rfl := Option.some.inj h
  refine ⟨hfits, ?_⟩
  rw [length_overlay (by omega)]
  omega

theorem Holds.split (h : Holds kstr cs) : ∃ stale, kstr.buffer = cs ++ 0 :: stale ∧
    cs.length + stale.length = kstr.cap := by
  obtain ⟨stale, hstale⟩ := h.ended
  rw [List.append_assoc, List.singleton_append] at hstale
  have hroom := h.room
  rw [← hstale, List.length_append, List.length_cons] at hroom
  exact ⟨stale, hstale.symm, by omega⟩

theorem Holds.cap_lt (h : Holds kstr cs) : kstr.cap < 2 ^ 32 - 1 := by
  have hroom := h.room
  have hblock := h.block
  omega

theorem holds_ended {stale : List UInt8} (hnul : 0 ∉ cs) (hlen : cs.length + stale.length = n)
    (hn : n < 2 ^ 32 - 1) : Holds ⟨cs ++ 0 :: stale, cs.length, n⟩ cs := by
  have hroom : (cs ++ 0 :: stale).length = n + 1 := by
    rw [List.length_append, List.length_cons]
    omega
  refine ⟨rfl, hnul, by simp only; omega, hroom, by rw [hroom]; omega, stale, ?_⟩
  rw [List.append_assoc, List.singleton_append]

/-- Bytes and an end, stored one after the other. -/
theorem stores_spec {pre stale str : List UInt8} (hnul : 0 ∉ str) (tail : List UInt8)
    (hlen : str.length < stale.length) :
    ((strcpy (pre ++ stale) pre.length (str ++ 0 :: tail)).bind fun buffer =>
      store buffer (pre.length + str.length) [0]) = some (pre ++ str ++ 0 :: stale.drop (str.length + 1)) := by
  rw [strcpy_stale hnul tail hlen.le, Option.bind_some, ← List.length_append,
    store_end (by rw [List.length_drop]; omega), List.drop_drop]

theorem resize_spec (junk : ℕ → UInt8) (h : Holds kstr cs) (hsize : cs.length ≤ n) (hpos : n ≠ 0)
    (hn : n < 2 ^ 32 - 1) : ∃ k', kstringResize junk kstr n = some k' ∧ Holds k' cs ∧ k'.cap = n := by
  obtain ⟨stale, hstale, -⟩ := h.split
  have halloc := length_kstringAlloc junk hn
  have hstores := @stores_spec [] (kstringAlloc junk n) cs h.nul stale (by omega)
  rw [List.nil_append, List.length_nil, Nat.zero_add] at hstores
  obtain ⟨buffer, hcopy, hend⟩ := Option.bind_eq_some_iff.mp hstores
  refine ⟨⟨cs ++ 0 :: (kstringAlloc junk n).drop (cs.length + 1), cs.length, n⟩, ?_, ?_, rfl⟩
  · rw [kstringResize, h.size, if_pos (And.intro hsize hpos), hstale, hcopy, Option.bind_some, hend, Option.map_some,
      List.nil_append]
  · exact holds_ended h.nul (by rw [List.length_drop, halloc]; omega) hn

/-- One byte more than the largest count is none. -/
theorem resize_none (junk : ℕ → UInt8) (h : Holds kstr cs) : kstringResize junk kstr (2 ^ 32 - 1) = none := by
  have hcap := h.cap_lt
  have hfits := h.fits
  have halloc : (kstringAlloc junk (2 ^ 32 - 1)).length = 0 := length_slice _ _ _
  rw [kstringResize, if_pos (by omega), Option.bind_eq_none_iff]
  intro b hb
  rw [Option.map_eq_none_iff]
  obtain ⟨len, -, hb⟩ := Option.bind_eq_some_iff.mp hb
  have hlen := (store_some hb).2
  rw [store, if_neg (by rw [List.length_singleton]; omega)]

theorem resize_kept {k' : KstringT} (h : Holds kstr cs) (hresize : kstringResize junk kstr n = some k') :
    k'.size = kstr.size ∧ k'.buffer.length < 2 ^ 32 := by
  unfold kstringResize at hresize
  split_ifs at hresize with hn
  · obtain ⟨b, hb, hresize⟩ := Option.bind_eq_some_iff.mp hresize
    obtain ⟨b', hb', rfl⟩ := Option.map_eq_some_iff.mp hresize
    obtain ⟨len, -, hb⟩ := Option.bind_eq_some_iff.mp hb
    refine ⟨rfl, ?_⟩
    rw [(store_some hb').2, (store_some hb).2, kstringAlloc, length_slice]
    exact Nat.mod_lt _ (by decide)
  · obtain rfl := Option.some.inj hresize
    exact ⟨rfl, h.block⟩

theorem push_spec (junk : ℕ → UInt8) {c : UInt8} (h : Holds kstr cs) (hc : c ≠ 0)
    (hg : kstr.size = kstr.cap → 0 < kstr.cap ∧ kstr.cap < 2 ^ 31) :
    ∃ k', kstringPush junk kstr c = some k' ∧ Holds k' (cs ++ [c]) := by
  have hgrown : ∃ k', (if kstr.size = kstr.cap then kstringResize junk kstr (kstr.cap * 2 % 2 ^ 32) else some kstr) =
      some k' ∧ Holds k' cs ∧ cs.length < k'.cap := by
    have hsize := h.size
    have hfits := h.fits
    by_cases hfull : kstr.size = kstr.cap
    · obtain ⟨hpos, hlt⟩ := hg hfull
      have hdouble : kstr.cap * 2 % 2 ^ 32 = kstr.cap * 2 := by omega
      obtain ⟨k', hresize, hk', hcap⟩ := @resize_spec kstr cs (kstr.cap * 2) junk h (by omega) (by omega) (by omega)
      refine ⟨k', ?_, hk', by omega⟩
      rw [if_pos hfull, hdouble, hresize]
    · exact ⟨kstr, if_neg hfull, h, by omega⟩
  obtain ⟨k', hk', hh, hlt⟩ := hgrown
  obtain ⟨stale, hstale, hlen⟩ := hh.split
  have hcap := hh.cap_lt
  have hsize : add32 k'.size 1 = (cs ++ [c]).length := by
    rw [hh.size, List.length_append, List.length_singleton, add32_of_lt (by omega)]
  have hchar := @store_stale cs (0 :: stale) [c] (by simp)
  have hend := @store_end (cs ++ [c]) stale (by omega)
  refine ⟨⟨cs ++ [c] ++ 0 :: stale.drop 1, (cs ++ [c]).length, k'.cap⟩, ?_, ?_⟩
  · rw [kstringPush, hk', Option.bind_some, hh.size, hstale, hchar, Option.bind_some]
    rw [hh.size] at hsize
    rw [hsize]
    exact congrArg (Option.map fun buffer => (⟨buffer, (cs ++ [c]).length, k'.cap⟩ : KstringT)) hend
  · refine holds_ended ?_ ?_ hcap
    · rw [List.mem_append, List.mem_singleton, not_or]
      exact ⟨h.nul, Ne.symm hc⟩
    · rw [List.length_append, List.length_singleton, List.length_drop]
      omega

/-- No larger block is asked for, and the end is stored behind the one there is. -/
theorem push_none (junk : ℕ → UInt8) (c : UInt8) (h : Holds kstr cs)
    (hg : ¬(kstr.size = kstr.cap → 0 < kstr.cap ∧ kstr.cap < 2 ^ 31)) : kstringPush junk kstr c = none := by
  have hcap := h.cap_lt
  have hroom := h.room
  obtain ⟨hfull, hbad⟩ := Classical.not_imp.mp hg
  have hsame : kstringResize junk kstr (kstr.cap * 2 % 2 ^ 32) = some kstr := if_neg (by omega)
  rw [kstringPush, if_pos hfull, hsame, Option.bind_some, Option.bind_eq_none_iff]
  intro b hb
  have hlen := (store_some hb).2
  rw [Option.map_eq_none_iff, store, if_neg]
  rw [List.length_singleton, add32_of_lt (by omega)]
  omega

theorem grow_spec (junk : ℕ → UInt8) (h : Holds kstr cs) (hsize : cs.length ≤ n)
    (hreach : n ≤ kstr.cap ∨ ∃ j, n ≤ kstr.cap * 2 ^ j % 2 ^ 32) :
    ∃ k', grow junk kstr n = some k' ∧ Holds k' cs ∧ n ≤ k'.cap := by
  have hcap := h.cap_lt
  by_cases hlt : n > kstr.cap
  · obtain ⟨c, hc⟩ := (doubled_iff (by omega)).mpr (hreach.resolve_left (by omega))
    obtain ⟨hle, hsmall, -⟩ := doubled_some hc (by omega)
    obtain ⟨k', hresize, hk', rfl⟩ := @resize_spec kstr cs c junk h (by omega) (by omega) (by omega)
    exact ⟨k', by rw [grow, if_pos hlt, hc, Option.bind_some, hresize], hk', hle⟩
  · exact ⟨kstr, if_neg hlt, h, by omega⟩

theorem grow_none (junk : ℕ → UInt8) (h : Holds kstr cs)
    (hreach : ¬(n ≤ kstr.cap ∨ ∃ j, n ≤ kstr.cap * 2 ^ j % 2 ^ 32)) : grow junk kstr n = none := by
  have hcap := h.cap_lt
  obtain ⟨hlt, hj⟩ := not_or.mp hreach
  rw [grow, if_pos (by omega), doubled_none (by omega) hj, Option.bind_none]

theorem grow_kept {k' : KstringT} (h : Holds kstr cs) (hgrow : grow junk kstr n = some k') :
    k'.size = kstr.size ∧ k'.buffer.length < 2 ^ 32 := by
  unfold grow at hgrow
  split_ifs at hgrow
  · obtain ⟨c, -, hresize⟩ := Option.bind_eq_some_iff.mp hgrow
    exact resize_kept h hresize
  · obtain rfl := Option.some.inj hgrow
    exact ⟨rfl, h.block⟩

theorem strlen_cString (str : Str) : strlenIn (cString str) = some str.chars.length :=
  strlenIn_terminated str.nul []

theorem append_spec (junk : ℕ → UInt8) {str : Str} (h : Holds kstr cs) (hg : Reaches kstr str) :
    ∃ k', kstringAppend junk kstr (cString str) = some k' ∧ Holds k' (cs ++ str.chars) := by
  obtain ⟨hword, hreach⟩ := hg
  have hsize := h.size
  obtain ⟨k', hgrow, hh, hle⟩ := grow_spec junk h (by omega) hreach
  obtain ⟨stale, hstale, hlen⟩ := hh.split
  have hstores := @stores_spec cs (0 :: stale) str.chars str.nul [] (by rw [List.length_cons]; omega)
  obtain ⟨buffer, hcopy, hend⟩ := Option.bind_eq_some_iff.mp hstores
  refine ⟨⟨cs ++ str.chars ++ 0 :: (0 :: stale).drop (str.chars.length + 1), (cs ++ str.chars).length, k'.cap⟩, ?_, ?_⟩
  · rw [kstringAppend, strlen_cString, Option.bind_some]
    simp only
    rw [add32_of_lt hword, hgrow, Option.bind_some, hh.size, hstale, cString, hcopy, Option.bind_some, hsize, hend,
      Option.map_some, List.length_append]
  · refine holds_ended ?_ ?_ hh.cap_lt
    · rw [List.mem_append, not_or]
      exact ⟨h.nul, str.nul⟩
    · rw [List.length_append, List.drop_succ_cons, List.length_drop]
      omega

/-- Either the loop does not end, or the characters leave the block. -/
theorem append_none (junk : ℕ → UInt8) {str : Str} (h : Holds kstr cs) (hg : ¬Reaches kstr str) :
    kstringAppend junk kstr (cString str) = none := by
  rw [kstringAppend, strlen_cString, Option.bind_some]
  simp only
  by_cases hword : kstr.size + str.chars.length < 2 ^ 32
  · rw [add32_of_lt hword, grow_none junk h fun hreach => hg ⟨hword, hreach⟩, Option.bind_none]
  · rw [Option.bind_eq_none_iff]
    intro k' hgrow
    obtain ⟨hsize, hblock⟩ := grow_kept h hgrow
    rw [Option.bind_eq_none_iff]
    intro b hb
    rw [strcpy, strlen_cString, Option.bind_some] at hb
    have hfits := (store_some hb).1
    rw [cString, List.take_left] at hfits
    omega

theorem overlay_chars {stale : List UInt8} {k q : ℕ} (hk : k ≤ cs.length) :
    overlay (cs ++ stale) q (((cs ++ stale).drop k).take (cs.length - k)) =
      (cs ++ stale).take q ++ (cs.drop k ++ (cs ++ stale).drop (q + (cs.length - k))) := by
  have hlen : (cs.drop k).length = cs.length - k := List.length_drop
  rw [List.drop_append_of_le_length hk, ← hlen, List.take_left, overlay]

theorem erase_inner {pos len : ℕ} (h : Holds kstr cs) (hlt : pos + len < cs.length) : ∃ stale,
    ((memshiftIn kstr.buffer (pos + len) (Int.bmod (sub32 0 len) (2 ^ 32)) (cs.length - (pos + len))).bind
      fun buffer => store buffer (cs.length - len) [0]) =
        some (cs.take pos ++ cs.drop (pos + len) ++ 0 :: stale) ∧
      cs.length - len + stale.length = kstr.cap := by
  obtain ⟨stale, hstale, hlen⟩ := h.split
  have hcap := h.cap_lt
  have htotal : (cs ++ 0 :: stale).length = kstr.cap + 1 := hstale ▸ h.room
  have hmove := @memshiftIn_back (cs ++ 0 :: stale) pos len (cs.length - (pos + len)) (by omega) (by omega)
  rw [overlay_chars (by omega), List.take_append_of_le_length (by omega), ← List.append_assoc] at hmove
  have hcount : (cs.take pos ++ cs.drop (pos + len)).length = cs.length - len := by
    rw [List.length_append, List.length_take, List.length_drop]
    omega
  have hend := @store_end (cs.take pos ++ cs.drop (pos + len))
    ((cs ++ 0 :: stale).drop (pos + (cs.length - (pos + len)))) (by rw [List.length_drop]; omega)
  rw [hcount] at hend
  refine ⟨_, by rw [hstale, hmove, Option.bind_some, hend], ?_⟩
  rw [List.length_drop, List.length_drop]
  omega

theorem erase_spec {pos len : ℕ} (h : Holds kstr cs) (hpos : pos < 2 ^ 32) (hlen : len < 2 ^ 32)
    (hg : pos + len < 2 ^ 32 ∨ kstr.size ≤ pos + len - 2 ^ 32) :
    ∃ k', kstringErase kstr pos len = some k' ∧ Holds k' (cs.take pos ++ cs.drop (pos + len)) := by
  have hsize := h.size
  have hcap := h.cap_lt
  have hfits := h.fits
  have hnul : 0 ∉ cs.take pos ++ cs.drop (pos + len) := by
    rw [List.mem_append, not_or]
    exact ⟨fun hm => h.nul (List.mem_of_mem_take hm), fun hm => h.nul (List.mem_of_mem_drop hm)⟩
  by_cases hend : add32 pos len ≥ kstr.size
  · have hdrop : cs.drop (pos + len) = [] := by
      rw [List.drop_eq_nil_iff]
      unfold add32 at hend
      omega
    rw [hdrop, List.append_nil] at hnul ⊢
    by_cases hin : pos < kstr.size
    · obtain ⟨stale, hstale, hroom⟩ := h.split
      have htake : (cs.take pos).length = pos := List.length_take_of_le (by omega)
      have hstore := @store_end (cs.take pos) (cs.drop pos ++ 0 :: stale)
        (by rw [List.length_append, List.length_cons]; omega)
      rw [← List.append_assoc, List.take_append_drop, ← hstale, htake] at hstore
      have hdone := @holds_ended (cs.take pos) kstr.cap ((cs.drop pos ++ 0 :: stale).drop 1) hnul
        (by rw [htake, List.length_drop, List.length_append, List.length_drop, List.length_cons]; omega) hcap
      rw [htake] at hdone
      exact ⟨_, by rw [kstringErase, if_pos hend, if_pos hin, hstore, Option.map_some], hdone⟩
    · rw [List.take_of_length_le (by omega)]
      exact ⟨kstr, by rw [kstringErase, if_pos hend, if_neg hin], h⟩
  · have hlt : pos + len < cs.length := by
      unfold add32 at hend
      omega
    obtain ⟨stale, hmoved, hroom⟩ := erase_inner h hlt
    obtain ⟨buffer, hmove, hstore⟩ := Option.bind_eq_some_iff.mp hmoved
    have hcount : (cs.take pos ++ cs.drop (pos + len)).length = cs.length - len := by
      rw [List.length_append, List.length_take, List.length_drop]
      omega
    have hrest : sub32 (sub32 kstr.size pos) len = cs.length - (pos + len) := by
      unfold sub32
      omega
    have hleft : sub32 kstr.size len = cs.length - len := by
      rw [sub32_of_le (by omega) (by omega), hsize]
    have hdone := @holds_ended _ kstr.cap stale hnul (by rw [hcount, hroom]) hcap
    rw [hcount] at hdone
    refine ⟨_, ?_, hdone⟩
    rw [kstringErase, if_neg hend, add32_of_lt (by omega)]
    simp only
    rw [hrest, hleft, hmove, Option.bind_some, hstore, Option.map_some]

/-- Where the sum of the two wraps to below the size, the length that is left is wrong. -/
theorem erase_wraps {pos len : ℕ} {k' : KstringT} (h : Holds kstr cs) (hpos : pos < 2 ^ 32) (hlen : len < 2 ^ 32)
    (hwrap : 2 ^ 32 ≤ pos + len) (hlt : pos + len - 2 ^ 32 < kstr.size)
    (herase : kstringErase kstr pos len = some k') : ¬Holds k' (cs.take pos ++ cs.drop (pos + len)) := by
  have hsize := h.size
  have hcap := h.cap_lt
  have hfits := h.fits
  have hend : ¬add32 pos len ≥ kstr.size := by
    unfold add32
    omega
  rw [kstringErase, if_neg hend] at herase
  obtain ⟨buffer, -, herase⟩ := Option.bind_eq_some_iff.mp herase
  obtain ⟨buffer', -, rfl⟩ := Option.map_eq_some_iff.mp herase
  intro hh
  have hcount := hh.size
  rw [List.length_append, List.length_take, List.length_drop] at hcount
  simp only [sub32] at hcount
  omega

/-- The gap is made, filled and the end stored behind. -/
theorem insert_inner {pos : ℕ} {str : Str} (h : Holds kstr cs) (hpos : pos < cs.length)
    (hfits : cs.length + str.chars.length ≤ kstr.cap) : ∃ stale,
    ((memshiftIn kstr.buffer pos (Int.bmod str.chars.length (2 ^ 32)) (cs.length - pos)).bind fun buffer =>
      (strcpy buffer pos (cString str)).bind fun buffer =>
        store buffer (cs.length + str.chars.length) [0]) =
          some (cs.take pos ++ (str.chars ++ cs.drop pos) ++ 0 :: stale) ∧
      cs.length + str.chars.length + stale.length = kstr.cap := by
  obtain ⟨stale, hstale, hlen⟩ := h.split
  have hcap := h.cap_lt
  have htotal : (cs ++ 0 :: stale).length = kstr.cap + 1 := hstale ▸ h.room
  have hmove := @memshiftIn_forth (cs ++ 0 :: stale) pos str.chars.length (cs.length - pos) (by omega) (by omega)
  have hgap : (cs ++ 0 :: stale).take (pos + str.chars.length) =
      cs.take pos ++ ((cs ++ 0 :: stale).drop pos).take str.chars.length := by
    rw [List.take_add, List.take_append_of_le_length (by omega)]
  have htake : (cs.take pos).length = pos := List.length_take_of_le (by omega)
  rw [overlay_chars (by omega), hgap, List.append_assoc] at hmove
  have hcopy := @store_append (cs.take pos)
    (cs.drop pos ++ (cs ++ 0 :: stale).drop (pos + str.chars.length + (cs.length - pos)))
    (((cs ++ 0 :: stale).drop pos).take str.chars.length) str.chars
    (by rw [List.length_take, List.length_drop]; omega)
  have hbytes (rest : List UInt8) : cs.take pos ++ (str.chars ++ (cs.drop pos ++ rest)) =
      cs.take pos ++ (str.chars ++ cs.drop pos) ++ rest := by simp only [List.append_assoc]
  have hcount : (cs.take pos ++ (str.chars ++ cs.drop pos)).length = cs.length + str.chars.length := by
    rw [List.length_append, List.length_append, htake, List.length_drop]
    omega
  have hend := @store_end (cs.take pos ++ (str.chars ++ cs.drop pos))
    ((cs ++ 0 :: stale).drop (pos + str.chars.length + (cs.length - pos))) (by rw [List.length_drop]; omega)
  rw [htake, hbytes] at hcopy
  rw [hcount] at hend
  refine ⟨((cs ++ 0 :: stale).drop (pos + str.chars.length + (cs.length - pos))).drop 1, ?_, ?_⟩
  · rw [hstale, hmove, Option.bind_some, strcpy, strlen_cString, Option.bind_some, cString, List.take_left, hcopy,
      Option.bind_some, hend]
  · rw [List.length_drop, List.length_drop]
    omega

theorem insert_spec (junk : ℕ → UInt8) {pos : ℕ} {str : Str} (h : Holds kstr cs) (hg : Reaches kstr str) :
    ∃ k', kstringInsert junk kstr pos (cString str) = some k' ∧
      Holds k' (cs.take pos ++ (str.chars ++ cs.drop pos)) := by
  have hsize := h.size
  by_cases hend : pos ≥ kstr.size
  · rw [kstringInsert, if_pos hend, List.take_of_length_le (by omega), List.drop_eq_nil_iff.mpr (by omega),
      List.append_nil]
    exact append_spec junk h hg
  · obtain ⟨hword, hreach⟩ := hg
    obtain ⟨k', hgrow, hh, hle⟩ := grow_spec junk h (by omega) hreach
    have hcap := hh.cap_lt
    obtain ⟨stale, hmoved, hroom⟩ := @insert_inner k' cs pos str hh (by omega) (by omega)
    obtain ⟨b, hmove, hstores⟩ := Option.bind_eq_some_iff.mp hmoved
    obtain ⟨b', hcopy, hstore⟩ := Option.bind_eq_some_iff.mp hstores
    have hrest : sub32 k'.size pos = cs.length - pos := by
      rw [sub32_of_le (by rw [hh.size]; omega) (by rw [hh.size]; omega), hh.size]
    have htotal : add32 k'.size str.chars.length = cs.length + str.chars.length := by
      rw [hh.size, add32_of_lt (by omega)]
    have hnul : 0 ∉ cs.take pos ++ (str.chars ++ cs.drop pos) := by
      rw [List.mem_append, List.mem_append, not_or, not_or]
      exact ⟨fun hm => h.nul (List.mem_of_mem_take hm), str.nul, fun hm => h.nul (List.mem_of_mem_drop hm)⟩
    have hcount : (cs.take pos ++ (str.chars ++ cs.drop pos)).length = cs.length + str.chars.length := by
      rw [List.length_append, List.length_append, List.length_take, List.length_drop]
      omega
    have hdone := @holds_ended _ k'.cap stale hnul (by rw [hcount, hroom]) hcap
    rw [hcount] at hdone
    refine ⟨_, ?_, hdone⟩
    rw [kstringInsert, if_neg hend, strlen_cString, Option.bind_some, add32_of_lt hword, hgrow, Option.bind_some,
      hrest, hmove, Option.bind_some, hcopy, Option.bind_some]
    simp only
    rw [htotal, hstore, Option.map_some]

theorem insert_none (junk : ℕ → UInt8) {pos : ℕ} {str : Str} (h : Holds kstr cs) (hg : ¬Reaches kstr str) :
    kstringInsert junk kstr pos (cString str) = none := by
  by_cases hend : pos ≥ kstr.size
  · rw [kstringInsert, if_pos hend, append_none junk h hg]
  · rw [kstringInsert, if_neg hend, strlen_cString, Option.bind_some]
    by_cases hword : kstr.size + str.chars.length < 2 ^ 32
    · rw [add32_of_lt hword, grow_none junk h fun hreach => hg ⟨hword, hreach⟩, Option.bind_none]
    · rw [Option.bind_eq_none_iff]
      intro k' hgrow
      obtain ⟨hsize, hblock⟩ := grow_kept h hgrow
      rw [Option.bind_eq_none_iff]
      intro b hb
      obtain ⟨hlen, hmoved⟩ := memshiftIn_some hb
      rw [Option.bind_eq_none_iff]
      intro b' hb'
      rw [strcpy, strlen_cString, Option.bind_some] at hb'
      have hfits := (store_some hb').1
      rw [cString, List.take_left] at hfits
      have hcap := h.cap_lt
      have hle := h.fits
      have hrest : sub32 k'.size pos = kstr.size - pos := by
        rw [sub32_of_le (by omega) (by omega), hsize]
      rw [hrest, bmod_pos (by omega), index] at hmoved
      split_ifs at hmoved <;> omega

theorem newSh_spec (junk : ℕ → UInt8) (hn : n < 2 ^ 32 - 1) :
    ∃ stale, kstringNewSh junk n = some ⟨0 :: stale, 0, n⟩ ∧ stale.length = n := by
  have halloc := length_kstringAlloc junk hn
  have hend := @store_end [] (kstringAlloc junk n) (by omega)
  refine ⟨(kstringAlloc junk n).drop 1, congrArg (Option.map fun buffer => (⟨buffer, 0, n⟩ : KstringT)) hend, ?_⟩
  rw [List.length_drop, halloc, Nat.add_sub_cancel]

theorem newSh_iff (junk : ℕ → UInt8) : n < 2 ^ 32 - 1 ↔ ∃ k, kstringNewSh junk n = some k ∧ Holds k [] := by
  constructor
  · intro hn
    obtain ⟨stale, hnew, hlen⟩ := newSh_spec junk hn
    exact ⟨_, hnew, @holds_ended [] n stale List.not_mem_nil (by rw [List.length_nil]; omega) hn⟩
  · rintro ⟨k, hnew, hk⟩
    obtain ⟨b, -, rfl⟩ := Option.map_eq_some_iff.mp hnew
    exact hk.cap_lt

theorem from_iff (junk : ℕ → UInt8) (str : Str) : str.chars.length ≤ 2 ^ 31 ↔
    ∃ k, kstringFrom junk (cString str) = some k ∧ Holds k str.chars := by
  constructor
  · intro hle
    obtain ⟨cap, hcap⟩ := (doubled_iff (by decide)).mpr (reaches_init.mpr hle)
    obtain ⟨hroom, hsmall, -⟩ := doubled_some hcap (by decide)
    obtain ⟨stale, hnew, hlen⟩ := @newSh_spec cap junk (by omega)
    have hstores := @stores_spec [] (0 :: stale) str.chars str.nul [] (by rw [List.length_cons]; omega)
    rw [List.nil_append, List.length_nil, Nat.zero_add] at hstores
    obtain ⟨b, hcopy, hend⟩ := Option.bind_eq_some_iff.mp hstores
    refine ⟨⟨str.chars ++ 0 :: (0 :: stale).drop (str.chars.length + 1), str.chars.length, cap⟩, ?_, ?_⟩
    · rw [kstringFrom, strlen_cString, Option.bind_some, hcap, Option.bind_some, hnew, Option.bind_some, cString, hcopy,
        Option.bind_some, hend, Option.map_some, List.nil_append]
    · refine holds_ended str.nul ?_ (by omega)
      rw [List.drop_succ_cons, List.length_drop]
      omega
  · rintro ⟨k, hfrom, -⟩
    by_contra hlt
    rw [kstringFrom, strlen_cString, Option.bind_some, doubled_none (by decide) (mt reaches_init.mp hlt),
      Option.bind_none] at hfrom
    cases hfrom

/-- The copy has the size, but not the characters. -/
theorem copy_iff (junk : ℕ → UInt8) (h : Holds kstr cs) : Lucky junk kstr ↔ Holds (kstringCopy junk kstr) cs := by
  have hroom := length_kstringAlloc junk h.cap_lt
  have htake : kstr.buffer.take (kstr.size + 1) = cs ++ [0] := by
    obtain ⟨stale, hstale⟩ := h.ended
    have hlen : (cs ++ [0]).length = kstr.size + 1 := by rw [List.length_append, List.length_singleton, h.size]
    rw [← hstale, ← hlen, List.take_left]
  rw [Lucky, htake]
  refine ⟨fun hlucky => ⟨h.size, h.nul, h.fits, hroom, ?_, hlucky⟩, fun hcopy => hcopy.ended⟩
  change (kstringAlloc junk kstr.cap).length < 2 ^ 32
  have hcap := h.cap_lt
  omega

theorem clear_spec (h : Holds kstr cs) : ∃ k', kstringClear kstr = some k' ∧ Holds k' [] := by
  have hroom := h.room
  have hend := @store_end [] kstr.buffer (by omega)
  refine ⟨⟨0 :: kstr.buffer.drop 1, 0, kstr.cap⟩, ?_, ?_⟩
  · rw [kstringClear]
    exact congrArg (Option.map fun buffer => (⟨buffer, 0, kstr.cap⟩ : KstringT)) hend
  · refine @holds_ended [] kstr.cap (kstr.buffer.drop 1) List.not_mem_nil ?_ h.cap_lt
    rw [List.length_nil, List.length_drop]
    omega

theorem resize_iff (junk : ℕ → UInt8) (h : Holds kstr cs) (hn : n < 2 ^ 32) :
    n < 2 ^ 32 - 1 ↔ ∃ k', kstringResize junk kstr n = some k' ∧ Holds k' cs := by
  constructor
  · intro hlt
    by_cases hresize : n ≥ kstr.size ∧ n ≠ 0
    · obtain ⟨k', hk', hh, -⟩ := resize_spec junk h (h.size ▸ hresize.1) hresize.2 hlt
      exact ⟨k', hk', hh⟩
    · exact ⟨kstr, if_neg hresize, h⟩
  · rintro ⟨k', hk', -⟩
    by_contra hlast
    obtain rfl : n = 2 ^ 32 - 1 := by omega
    rw [resize_none junk h] at hk'
    cases hk'

end steps

/-! Below 32 bits these are the functions of `Kstring`. -/

section agreement

variable {junk : ℕ → UInt8} {kstr : KstringT} {n : ℕ}

theorem kstringAlloc_agrees (hn : n + 1 < 2 ^ 32) : kstringAlloc junk n = Kstring.kstringAlloc junk n := by
  rw [kstringAlloc, Kstring.kstringAlloc, add32_of_lt hn]

theorem resize_agrees (hn : n + 1 < 2 ^ 32) : kstringResize junk kstr n = Kstring.kstringResize junk kstr n := by
  rw [kstringResize, Kstring.kstringResize, kstringAlloc_agrees hn]

theorem new_agrees : kstringNew junk = Kstring.kstringNew junk := rfl

theorem push_agrees (c : UInt8) (hcap : kstr.cap * 2 + 1 < 2 ^ 32) (hsize : kstr.size ≤ kstr.cap) :
    kstringPush junk kstr c = Kstring.kstringPush junk kstr c := by
  have hdouble : kstr.cap * 2 % 2 ^ 32 = kstr.cap * 2 := Nat.mod_eq_of_lt (by omega)
  rw [kstringPush, Kstring.kstringPush, hdouble, resize_agrees hcap]
  refine Option.bind_congr fun k' hk' => ?_
  have hkept : k'.size = kstr.size := by
    split_ifs at hk' with hfull
    · unfold Kstring.kstringResize at hk'
      split_ifs at hk'
      · obtain ⟨b, -, hk'⟩ := Option.bind_eq_some_iff.mp hk'
        obtain ⟨b', -, rfl⟩ := Option.map_eq_some_iff.mp hk'
        rfl
      · obtain rfl := Option.some.inj hk'
        rfl
    · obtain rfl := Option.some.inj hk'
      rfl
  rw [add32_of_lt (by omega)]

theorem doubled_agrees {turns newCap newSize c : ℕ} (h : Kstring.doubled newCap newSize = some c)
    (hc : c < 2 ^ 32) (hturns : c < newCap * 2 ^ turns) : doubled turns newCap newSize = some c := by
  induction turns generalizing newCap with
  | zero =>
    obtain ⟨c', hc', -, hle⟩ := @Kstring.doubled_spec newCap newSize (by omega)
    obtain rfl := Option.some.inj (h.symm.trans hc')
    omega
  | succ turns ih =>
    have hpos : 0 < newCap := Nat.pos_of_ne_zero fun hzero => by
      rw [hzero, Nat.zero_mul] at hturns
      omega
    rw [Kstring.doubled] at h
    rw [doubled]
    by_cases hlt : newSize > newCap
    · rw [if_pos hlt, if_neg (by omega)] at h
      obtain ⟨c', hc', -, hle⟩ := @Kstring.doubled_spec (newCap * 2) newSize (by omega)
      obtain rfl := Option.some.inj (h.symm.trans hc')
      rw [if_pos hlt, Nat.mod_eq_of_lt (by omega)]
      exact ih h (by rwa [Nat.mul_assoc, ← Nat.pow_succ'])
    · rw [if_neg hlt] at h
      rw [if_neg hlt, h]

theorem append_agrees {str : List UInt8} {len c : ℕ} (hlen : strlenIn str = some len)
    (hsum : kstr.size + len < 2 ^ 32) (hdouble : Kstring.doubled kstr.cap (kstr.size + len) = some c)
    (hc : c + 1 < 2 ^ 32) : kstringAppend junk kstr str = Kstring.kstringAppend junk kstr str := by
  have hgrow : grow junk kstr (kstr.size + len) = if kstr.size + len > kstr.cap then
      (Kstring.doubled kstr.cap (kstr.size + len)).bind (Kstring.kstringResize junk kstr) else some kstr := by
    unfold grow
    by_cases hlt : kstr.size + len > kstr.cap
    · have hpos : 0 < kstr.cap := Nat.pos_of_ne_zero fun hzero => by
        rw [hzero, Kstring.doubled, if_pos (by omega), if_pos rfl] at hdouble
        cases hdouble
      have hloop := @doubled_agrees 33 _ _ _ hdouble (by omega) (by omega)
      rw [if_pos hlt, if_pos hlt, hloop, hdouble, Option.bind_some, Option.bind_some, resize_agrees hc]
    · rw [if_neg hlt, if_neg hlt]
  rw [kstringAppend, Kstring.kstringAppend, hlen, Option.bind_some, Option.bind_some]
  simp only
  rw [add32_of_lt hsum, hgrow]

end agreement

section exact_steps

variable {junk : ℕ → UInt8} {kstr : KstringT} {cs : List UInt8}

theorem run_iff (junk : ℕ → UInt8) {op : Op} (h : Holds kstr cs) (hallowed : Allowed kstr op) :
    Guarded kstr op ↔ Yields (run junk kstr op) fun k' => Holds k' (texts.act cs op).1 := by
  cases op with
  | push c => exact yields_of_none (push_spec junk h hallowed) (push_none junk c h)
  | append str => exact yields_of_none (append_spec junk h) (append_none junk h)
  | insert pos str => exact yields_of_none (insert_spec junk h) (insert_none junk h)
  | erase pos len =>
    refine yields_of_wrong (erase_spec h pos.toNat_lt len.toNat_lt) fun hg k' herase => ?_
    obtain ⟨hwrap, hlt⟩ := not_or.mp hg
    exact erase_wraps h pos.toNat_lt len.toNat_lt (by omega) (by omega) herase
  | assign str => exact from_iff junk str
  | resize size => exact resize_iff junk h size.toNat_lt
  | fit =>
    have hcap := h.cap_lt
    have hfits := h.fits
    exact ⟨fun _ => (resize_iff junk h (by omega)).mp (by omega), fun _ => trivial⟩
  | clear => exact ⟨fun _ => clear_spec h, fun _ => trivial⟩

/-- Each call does to its string what it is to do exactly under its condition. -/
theorem strings_exact (junk : ℕ → UInt8) :
    Exact (strings junk) texts Holds Allowed Small Guarded (Lucky junk) where
  make c := by
    cases c with
    | new => exact ⟨fun _ => (@newSh_iff 4 junk).mp (by decide), fun _ => trivial⟩
    | newS size => exact newSh_iff junk
    | ofStr str => exact from_iff junk str
  act kstr cs op h hallowed := by
    have hout : (texts.act cs op).2 = [] := List.eq_nil_iff_forall_not_mem.mpr fun x => x.elim
    rw [run_iff junk h hallowed, yields_silent, hout]
    exact Iff.rfl
  copy kstr cs h := by
    rw [copy_iff junk h]
    simp [strings]

end exact_steps

theorem refines_texts_iff (junk : ℕ → UInt8) (calls : List (Call New Op))
    (hp : Runs.Meets (strings junk).step (Permitted Allowed) ⟨[], []⟩ calls) :
    Runs.Meets (strings junk).step (Guard Small Guarded (Lucky junk)) ⟨[], []⟩ calls ↔
      Refines (strings junk).step texts.step (Represents Holds) ⟨[], []⟩ ⟨[], []⟩ calls :=
  (strings_exact junk).run_iff ⟨.nil, rfl⟩ hp

def sampleStr : Str := ⟨[97, 98], by decide⟩

theorem refines_texts_edited :
    Runs.Meets (strings fun _ => 0).step (Guard Small Guarded (Lucky fun _ => 0)) ⟨[], []⟩
      [.make (.ofStr sampleStr), .act 0 (.push 99), .act 0 .fit, .act 0 (.insert 1 sampleStr), .act 0 (.erase 0 2)] ↔
    Refines (strings fun _ => 0).step texts.step (Represents Holds) ⟨[], []⟩ ⟨[], []⟩
      [.make (.ofStr sampleStr), .act 0 (.push 99), .act 0 .fit, .act 0 (.insert 1 sampleStr), .act 0 (.erase 0 2)] :=
  refines_texts_iff _ _ (by decide)

/-- The copy of a string does not hold its characters, and a string made for no characters takes none. -/
theorem copy_without_text :
    (Runs.Meets (strings fun _ => 0).step (Permitted Allowed) ⟨[], []⟩
        [.make .new, .act 0 (.push 97), .copy 0] ∧
      ¬Refines (strings fun _ => 0).step texts.step (Represents Holds) ⟨[], []⟩ ⟨[], []⟩
        [.make .new, .act 0 (.push 97), .copy 0]) ∧
    Runs.Meets (strings fun _ => 0).step (Permitted Allowed) ⟨[], []⟩ [.make (.newS 0), .act 0 (.push 97)] ∧
      Runs.exec (strings fun _ => 0).step ⟨[], []⟩ [.make (.newS 0), .act 0 (.push 97)] = none := by
  refine ⟨⟨by decide, fun h => ?_⟩, by decide, rfl⟩
  obtain ⟨s, hexec, hs⟩ := h _ List.prefix_rfl
  have hrun : Runs.exec (strings fun _ => 0).step ⟨[], []⟩ [.make .new, .act 0 (.push 97), .copy 0] =
      some ⟨[⟨[97, 0, 0, 0, 0], 1, 4⟩, ⟨[0, 0, 0, 0, 0], 1, 4⟩], []⟩ := rfl
  obtain rfl := Option.some.inj (hrun.symm.trans hexec)
  obtain ⟨x, hx, hcopy⟩ := forall₂_getElem? (k := 1) hs.objects rfl
  obtain rfl : [97] = x := Option.some.inj hx
  exact absurd hcopy.ended (by decide)

end Eedox.KstringWords
