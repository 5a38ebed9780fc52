import Eedox.OverlapCopy
import Eedox.Library.Refinement

namespace Eedox.Vec

open Library Library.Bytes Library.Words Library.Refinement
open Fs.TableBuffer (store store_append store_stale loadWord)
open OverlapCopy (memshiftIn memshiftIn_back memshiftIn_forth)

/-- The buffer is the whole block from the heap, which has no bytes when the pointer is null. -/
structure VecT where
  buffer : List UInt8
  size : ℕ
  cap : ℕ
  deriving DecidableEq

def bytes32 (n : ℕ) : ℕ := 4 * n % 2 ^ 32

def memcpyIn (dest src : List UInt8) (n : ℕ) : Option (List UInt8) :=
  if n ≤ src.length then store dest 0 (src.take n) else none

section model

-- What a new block of memory holds.
variable (junk : ℕ → UInt8)

def vecAlloc (size : ℕ) : List UInt8 := slice junk 0 (bytes32 size)

def vecNewSh (size : ℕ) : VecT := ⟨vecAlloc junk (max 1 size), 0, max 1 size⟩

def vecNewS (size : ℕ) : VecT := vecNewSh junk size

def vecNew : VecT := vecNewSh junk 4

def vecResize (vec : VecT) (size : ℕ) : Option VecT :=
  if size ≥ vec.size then
    (memcpyIn (vecAlloc junk size) vec.buffer (bytes32 vec.size)).map fun newbuffer =>
      ⟨newbuffer, vec.size, size⟩
  else some vec

def vecFit (vec : VecT) : Option VecT := vecResize junk vec vec.size

def vecClear (vec : VecT) : VecT := { vec with size := 0 }

/-- The first lines of `vec_push` and of `vec_insert`. -/
def grow (vec : VecT) : Option VecT :=
  if vec.size = vec.cap then vecResize junk vec (vec.cap * 2 % 2 ^ 32) else some vec

def vecPush (vec : VecT) (val : UInt32) : Option VecT :=
  (grow junk vec).bind fun vec =>
    (store vec.buffer (bytes32 vec.size) (wordBytes val.toNat)).map fun buffer =>
      ⟨buffer, add32 vec.size 1, vec.cap⟩

def vecPop (vec : VecT) : Option (VecT × UInt32) :=
  let size := sub32 vec.size 1
  (loadWord vec.buffer (bytes32 size)).map fun val => ({ vec with size := size }, UInt32.ofNat val)

/-- The offset is `-len` words, as an `int32_t`. -/
def vecErase (vec : VecT) (pos len : ℕ) : Option VecT :=
  if add32 pos len ≥ vec.size then
    if pos < vec.size then some { vec with size := pos } else some vec
  else
    let rem := sub32 0 len
    (memshiftIn vec.buffer (bytes32 (pos + len)) (Int.bmod (bytes32 rem) (2 ^ 32))
      (bytes32 (sub32 (sub32 vec.size pos) len))).map fun buffer => ⟨buffer, sub32 vec.size len, vec.cap⟩

def vecInsert (vec : VecT) (pos : ℕ) (val : UInt32) : Option VecT :=
  if pos ≥ vec.size then vecPush junk vec val
  else
    (grow junk vec).bind fun vec =>
      (memshiftIn vec.buffer (bytes32 pos) 4 (bytes32 (sub32 vec.size pos))).bind fun buffer =>
        (store buffer (bytes32 pos) (wordBytes val.toNat)).map fun buffer => ⟨buffer, add32 vec.size 1, vec.cap⟩

def vecCopy (vec : VecT) : Option VecT :=
  (memcpyIn (vecAlloc junk vec.cap) vec.buffer (bytes32 vec.size)).map fun buffer => { vec with buffer := buffer }

inductive New
  | new
  | newS (size : UInt32)

inductive Op
  | push (val : UInt32)
  | pop
  | insert (pos val : UInt32)
  | erase (pos len : UInt32)
  | resize (size : UInt32)
  | fit
  | clear

def run (vec : VecT) : Op → Option (VecT × List UInt32)
  | .push val => (vecPush junk vec val).map fun vec => (vec, [])
  | .pop => (vecPop vec).map fun (vec, val) => (vec, [val])
  | .insert pos val => (vecInsert junk vec pos.toNat val).map fun vec => (vec, [])
  | .erase pos len => (vecErase vec pos.toNat len.toNat).map fun vec => (vec, [])
  | .resize size => (vecResize junk vec size.toNat).map fun vec => (vec, [])
  | .fit => (vecFit junk vec).map fun vec => (vec, [])
  | .clear => some (vecClear vec, [])

/-- The heap has a block for every vector. -/
def vectors : Kind New Op UInt32 VecT where
  make
    | .new => some (vecNew junk)
    | .newS size => some (vecNewS junk size.toNat)
  act := run junk
  copy := vecCopy junk

end model

/-- What the calls do to a list. -/
def lists : Abstract New Op UInt32 (List UInt32) where
  make _ := []
  act xs
    | .push val => (xs ++ [val], [])
    | .pop => (xs.dropLast, xs.getLast?.toList)
    | .insert pos val => (xs.take pos.toNat ++ val :: xs.drop pos.toNat, [])
    | .erase pos len => (xs.take pos.toNat ++ xs.drop (pos.toNat + len.toNat), [])
    | .resize _ => (xs, [])
    | .fit => (xs, [])
    | .clear => ([], [])

def words (xs : List UInt32) : List UInt8 := (xs.map UInt32.toNat).flatMap wordBytes

/-- The elements are the first words of the buffer, which has room for `cap` words. -/
structure Holds (vec : VecT) (xs : List UInt32) : Prop where
  size : vec.size = xs.length
  fits : vec.size ≤ vec.cap
  room : 4 * vec.cap ≤ vec.buffer.length
  block : vec.buffer.length < 2 ^ 32
  elements : words xs <+: vec.buffer

def Allowed (vec : VecT) : Op → Prop
  | .pop => vec.size ≠ 0
  | _ => True

instance (vec : VecT) : (op : Op) → Decidable (Allowed vec op)
  | .pop => inferInstanceAs (Decidable (_ ≠ _))
  | .push _ | .insert _ _ | .erase _ _ | .resize _ | .fit | .clear => inferInstanceAs (Decidable True)

/-- A full buffer can be doubled. -/
def Growable (vec : VecT) : Prop := vec.size = vec.cap → 0 < vec.cap ∧ vec.cap < 2 ^ 29

def Small : New → Prop
  | .new => True
  | .newS size => size.toNat < 2 ^ 30

def Guarded (vec : VecT) : Op → Prop
  | .push _ => Growable vec
  | .insert _ _ => Growable vec
  | .erase pos len => pos.toNat + len.toNat < 2 ^ 32 ∨ vec.size ≤ pos.toNat + len.toNat - 2 ^ 32
  | .resize size => vec.size ≤ size.toNat → size.toNat < 2 ^ 30
  | _ => True

section steps

variable {junk : ℕ → UInt8} {vec : VecT} {xs : List UInt32} {n : ℕ}

theorem words_append (xs ys : List UInt32) : words (xs ++ ys) = words xs ++ words ys := by
  rw [words, List.map_append, List.flatMap_append, words, words]

theorem words_cons (x : UInt32) (xs : List UInt32) : words (x :: xs) = wordBytes x.toNat ++ words xs := rfl

theorem length_words (xs : List UInt32) : (words xs).length = 4 * xs.length := by
  induction xs with
  | nil => rfl
  | cons x xs ih =>
    rw [words_cons, List.length_append, length_wordBytes, ih, List.length_cons]
    omega

theorem bytes32_of_lt (h : n < 2 ^ 30) : bytes32 n = 4 * n := by
  unfold bytes32
  omega

theorem Holds.cap_lt (h : Holds vec xs) : vec.cap < 2 ^ 30 := by
  have hroom := h.room
  have hblock := h.block
  omega

theorem length_vecAlloc (junk : ℕ → UInt8) (n : ℕ) : (vecAlloc junk n).length = bytes32 n := length_slice _ _ _

/-- The words at the start of a block are copied to the start of a new one with room for them. -/
theorem memcpyIn_words (junk : ℕ → UInt8) (stale : List UInt8) (hsize : xs.length ≤ n) (hn : n < 2 ^ 30) :
    memcpyIn (vecAlloc junk n) (words xs ++ stale) (bytes32 xs.length) =
      some (words xs ++ (vecAlloc junk n).drop (4 * xs.length)) := by
  have hwords := length_words xs
  have hroom : (words xs).length ≤ (vecAlloc junk n).length := by
    rw [length_vecAlloc, bytes32_of_lt hn]
    omega
  have hstore := store_stale [] hroom
  rw [memcpyIn, bytes32_of_lt (by omega), if_pos (by rw [List.length_append]; omega), ← hwords, List.take_left]
  exact hstore

theorem holds_copied (junk : ℕ → UInt8) (hsize : xs.length ≤ n) (hn : n < 2 ^ 30) :
    Holds ⟨words xs ++ (vecAlloc junk n).drop (4 * xs.length), xs.length, n⟩ xs := by
  have hlen : (words xs ++ (vecAlloc junk n).drop (4 * xs.length)).length = 4 * n := by
    rw [List.length_append, length_words, List.length_drop, length_vecAlloc, bytes32_of_lt hn]
    omega
  refine ⟨rfl, hsize, hlen.ge, ?_, List.prefix_append _ _⟩
  rw [hlen]
  omega

theorem resize_spec (junk : ℕ → UInt8) (h : Holds vec xs) (hsize : xs.length ≤ n) (hn : n < 2 ^ 30) :
    ∃ vec', vecResize junk vec n = some vec' ∧ Holds vec' xs ∧ vec'.cap = n := by
  obtain ⟨stale, hstale⟩ := h.elements
  refine ⟨_, ?_, holds_copied junk hsize hn, rfl⟩
  rw [vecResize, h.size, if_pos hsize, ← hstale, memcpyIn_words junk stale hsize hn, Option.map_some]

/-- A count whose words wrap gets a block that is too small. -/
theorem resize_wraps {vec' : VecT} (hsize : vec.size ≤ n) (hn : 2 ^ 30 ≤ n)
    (hresize : vecResize junk vec n = some vec') : ¬Holds vec' xs := by
  rw [vecResize, if_pos hsize] at hresize
  obtain ⟨buffer, -, rfl⟩ := Option.map_eq_some_iff.mp hresize
  intro h
  have hcap := h.cap_lt
  simp only at hcap
  omega

theorem grow_spec (junk : ℕ → UInt8) (h : Holds vec xs) (hg : Growable vec) :
    ∃ vec', grow junk vec = some vec' ∧ Holds vec' xs ∧ xs.length < vec'.cap := by
  have hsize := h.size
  have hfits := h.fits
  by_cases hfull : vec.size = vec.cap
  · obtain ⟨hpos, hlt⟩ := hg hfull
    have hcap : vec.cap * 2 % 2 ^ 32 = vec.cap * 2 := by omega
    obtain ⟨vec', hresize, hh, hcap'⟩ := @resize_spec vec xs (vec.cap * 2) junk h (by omega) (by omega)
    refine ⟨vec', ?_, hh, by omega⟩
    rw [grow, if_pos hfull, hcap, hresize]
  · refine ⟨vec, if_neg hfull, h, by omega⟩

/-- The elements do not fit into the block that is to be twice as large. -/
theorem grow_none (junk : ℕ → UInt8) (h : Holds vec xs) (hpos : 0 < vec.size) (hg : ¬Growable vec) :
    grow junk vec = none := by
  have hcap := h.cap_lt
  obtain ⟨hfull, hlarge⟩ := Classical.not_imp.mp hg
  have hwrap : vec.cap * 2 % 2 ^ 32 = vec.cap * 2 := by omega
  have hblock : bytes32 (vec.cap * 2) = 8 * vec.cap - 2 ^ 32 := by
    unfold bytes32
    omega
  have hroom := h.room
  have hcopy : memcpyIn (vecAlloc junk (vec.cap * 2)) vec.buffer (bytes32 vec.size) = none := by
    have htake : (vec.buffer.take (4 * vec.size)).length = 4 * vec.size := List.length_take_of_le (by omega)
    rw [memcpyIn, bytes32_of_lt (by omega), if_pos (by omega), store, if_neg]
    rw [htake, length_vecAlloc, hblock]
    omega
  rw [grow, if_pos hfull, hwrap, vecResize, if_pos (by omega), hcopy, Option.map_none]

theorem Holds.split (h : Holds vec xs) : ∃ stale, vec.buffer = words xs ++ stale ∧
    4 * vec.cap ≤ 4 * xs.length + stale.length ∧ 4 * xs.length + stale.length < 2 ^ 32 := by
  obtain ⟨stale, hstale⟩ := h.elements
  have hlen := congrArg List.length hstale
  rw [List.length_append, length_words] at hlen
  have hroom := h.room
  have hblock := h.block
  exact ⟨stale, hstale.symm, by omega, by omega⟩

theorem Holds.replace {ys : List UInt32} {stale : List UInt8} (h : Holds vec xs) (hfits : ys.length ≤ vec.cap)
    (hlen : (words ys ++ stale).length = vec.buffer.length) :
    Holds ⟨words ys ++ stale, ys.length, vec.cap⟩ ys := by
  refine ⟨rfl, hfits, ?_, ?_, List.prefix_append _ _⟩
  · rw [hlen]
    exact h.room
  · rw [hlen]
    exact h.block

theorem write_spec (h : Holds vec xs) (hlt : xs.length < vec.cap) (val : UInt32) : ∃ buffer,
    store vec.buffer (bytes32 vec.size) (wordBytes val.toNat) = some buffer ∧
      Holds ⟨buffer, add32 vec.size 1, vec.cap⟩ (xs ++ [val]) := by
  obtain ⟨stale, hstale, hroom, hblock⟩ := h.split
  have hstore := @store_stale (words xs) stale (wordBytes val.toNat) (by rw [length_wordBytes]; omega)
  have hbytes : words xs ++ wordBytes val.toNat = words (xs ++ [val]) := by
    rw [words_append, words_cons]
    simp [words]
  have hoffset : bytes32 vec.size = (words xs).length := by
    rw [length_words, h.size, bytes32_of_lt (by omega)]
  have hsize : add32 vec.size 1 = (xs ++ [val]).length := by
    rw [List.length_append, List.length_singleton, h.size, add32_of_lt (by omega)]
  rw [hbytes, length_wordBytes] at hstore
  refine ⟨_, by rw [hstale, hoffset, hstore], ?_⟩
  rw [hsize]
  refine h.replace (by rw [List.length_append, List.length_singleton]; omega) ?_
  rw [hstale, List.length_append, List.length_append, length_words, length_words, List.length_append,
    List.length_singleton, List.length_drop]
  omega

theorem push_spec (junk : ℕ → UInt8) (h : Holds vec xs) (hg : Growable vec) (val : UInt32) :
    ∃ vec', vecPush junk vec val = some vec' ∧ Holds vec' (xs ++ [val]) := by
  obtain ⟨v, hgrow, hh, hlt⟩ := grow_spec junk h hg
  obtain ⟨buffer, hstore, hdone⟩ := write_spec hh hlt val
  exact ⟨_, by rw [vecPush, hgrow, Option.bind_some, hstore, Option.map_some], hdone⟩

theorem push_none (junk : ℕ → UInt8) (h : Holds vec xs) (hg : ¬Growable vec) (val : UInt32) :
    vecPush junk vec val = none := by
  rcases Nat.eq_zero_or_pos vec.size with hzero | hpos
  · obtain ⟨hfull, -⟩ := Classical.not_imp.mp hg
    have hcap : vec.cap = 0 := by omega
    have hgrow : grow junk vec = some ⟨[], 0, 0⟩ := by
      rw [grow, if_pos hfull, hcap, vecResize, if_pos (by omega), hzero]
      rfl
    rw [vecPush, hgrow, Option.bind_some]
    rfl
  · rw [vecPush, grow_none junk h hpos hg, Option.bind_none]

theorem pop_spec (h : Holds vec xs) (hne : vec.size ≠ 0) : ∃ vec' val, vecPop vec = some (vec', val) ∧
    Holds vec' xs.dropLast ∧ xs.getLast? = some val := by
  have hsize := h.size
  have hcap := h.cap_lt
  have hfits := h.fits
  have hroom := h.room
  have hblock := h.block
  obtain ⟨ys, val, rfl⟩ := (List.eq_nil_or_concat' xs).resolve_left (by
    rintro rfl
    exact hne hsize)
  rw [List.length_append, List.length_singleton] at hsize
  obtain ⟨stale, hstale, -⟩ := h.split
  have hsub : sub32 vec.size 1 = ys.length := by
    rw [sub32_of_le (by omega) (by omega)]
    omega
  have hword := wordAt_append (words ys) stale val.toNat
  have hbytes : vec.buffer = words ys ++ (wordBytes val.toNat ++ stale) := by
    rw [hstale, words_append, words_cons, List.append_assoc]
    simp [words]
  have hload : loadWord vec.buffer (bytes32 ys.length) = some val.toNat := by
    rw [loadWord, bytes32_of_lt (by omega), if_pos (by omega), hbytes, ← length_words, hword,
      Nat.mod_eq_of_lt val.toNat_lt]
  refine ⟨⟨vec.buffer, ys.length, vec.cap⟩, val, ?_, ?_, by simp⟩
  · rw [vecPop, hsub, hload, Option.map_some, UInt32.ofNat_toNat]
  · rw [List.dropLast_concat]
    refine ⟨rfl, by simp only; omega, hroom, hblock, ?_⟩
    rw [hbytes]
    exact List.prefix_append _ _

theorem bytes32_neg {len : ℕ} (hlen : len < 2 ^ 30) : bytes32 (sub32 0 len) = sub32 0 (4 * len) := by
  unfold bytes32 sub32
  omega

theorem take_words {buffer : List UInt8} {k : ℕ} (h : words xs <+: buffer) (hk : k ≤ xs.length) :
    buffer.take (4 * k) = words (xs.take k) := by
  obtain ⟨stale, rfl⟩ := h
  have hlen : (words (xs.take k)).length = 4 * k := by
    rw [length_words, List.length_take_of_le hk]
  conv_lhs => rw [← List.take_append_drop k xs, words_append, List.append_assoc, ← hlen, List.take_left]

theorem drop_words {stale : List UInt8} {k : ℕ} (hk : k ≤ xs.length) :
    (words xs ++ stale).drop (4 * k) = words (xs.drop k) ++ stale := by
  have hlen : (words (xs.take k)).length = 4 * k := by
    rw [length_words, List.length_take_of_le hk]
  conv_lhs => rw [← List.take_append_drop k xs, words_append, List.append_assoc, ← hlen, List.drop_left]

theorem overlay_words {stale : List UInt8} {k q : ℕ} (hk : k ≤ xs.length) :
    overlay (words xs ++ stale) (4 * q) (((words xs ++ stale).drop (4 * k)).take (4 * (xs.length - k))) =
      (words xs ++ stale).take (4 * q) ++
        (words (xs.drop k) ++ (words xs ++ stale).drop (4 * (q + (xs.length - k)))) := by
  have hlen : (words (xs.drop k)).length = 4 * (xs.length - k) := by rw [length_words, List.length_drop]
  rw [overlay, drop_words hk, ← hlen, List.take_left, hlen, Nat.mul_add]

theorem erase_moved {pos len : ℕ} (h : Holds vec xs) (hlt : pos + len < xs.length) : ∃ buffer,
    memshiftIn vec.buffer (bytes32 (pos + len)) (Int.bmod (bytes32 (sub32 0 len)) (2 ^ 32))
      (bytes32 (sub32 (sub32 vec.size pos) len)) = some buffer ∧
    Holds ⟨buffer, (xs.take pos ++ xs.drop (pos + len)).length, vec.cap⟩ (xs.take pos ++ xs.drop (pos + len)) := by
  obtain ⟨stale, hstale, hroom, hblock⟩ := h.split
  have hsize := h.size
  have hfits := h.fits
  have hcap := h.cap_lt
  have hlen : (words xs ++ stale).length = 4 * xs.length + stale.length := by
    rw [List.length_append, length_words]
  have hrest : sub32 (sub32 vec.size pos) len = xs.length - (pos + len) := by
    unfold sub32
    omega
  have hmove := @memshiftIn_back (words xs ++ stale) (4 * pos) (4 * len) (4 * (xs.length - (pos + len)))
    (by omega) (by omega)
  rw [← Nat.mul_add, ← bytes32_neg (by omega)] at hmove
  rw [overlay_words (by omega), take_words (List.prefix_append _ _) (by omega), ← List.append_assoc,
    ← words_append] at hmove
  refine ⟨_, ?_, @Holds.replace vec xs _ ((words xs ++ stale).drop (4 * (pos + (xs.length - (pos + len))))) h ?_ ?_⟩
  · rw [hrest, bytes32_of_lt (by omega : pos + len < 2 ^ 30),
      bytes32_of_lt (by omega : xs.length - (pos + len) < 2 ^ 30), hstale]
    exact hmove
  · rw [List.length_append, List.length_take, List.length_drop]
    omega
  · rw [hstale, List.length_append, length_words, List.length_append, List.length_take, List.length_drop,
      List.length_drop, hlen]
    omega

theorem erase_spec {pos len : ℕ} (h : Holds vec xs) (hpos : pos < 2 ^ 32) (hlen : len < 2 ^ 32)
    (hg : pos + len < 2 ^ 32 ∨ vec.size ≤ pos + len - 2 ^ 32) :
    ∃ vec', vecErase vec pos len = some vec' ∧ Holds vec' (xs.take pos ++ xs.drop (pos + len)) := by
  have hsize := h.size
  have hcap := h.cap_lt
  have hfits := h.fits
  by_cases hend : add32 pos len ≥ vec.size
  · have hdrop : xs.drop (pos + len) = [] := by
      rw [List.drop_eq_nil_iff]
      unfold add32 at hend
      omega
    rw [hdrop, List.append_nil]
    by_cases hin : pos < vec.size
    · refine ⟨{ vec with size := pos }, by rw [vecErase, if_pos hend, if_pos hin], ?_⟩
      refine ⟨?_, by simp only; omega, h.room, h.block, ?_⟩
      · rw [List.length_take_of_le (by omega)]
      · rw [← take_words h.elements (by omega)]
        exact List.take_prefix _ _
    · rw [List.take_of_length_le (by omega)]
      exact ⟨vec, by rw [vecErase, if_pos hend, if_neg hin], h⟩
  · have hlt : pos + len < xs.length := by
      unfold add32 at hend
      omega
    obtain ⟨buffer, hmove, hh⟩ := erase_moved h hlt
    have hcount : (xs.take pos ++ xs.drop (pos + len)).length = sub32 vec.size len := by
      rw [List.length_append, List.length_take, List.length_drop, sub32_of_le (by omega) (by omega)]
      omega
    rw [hcount] at hh
    refine ⟨_, ?_, hh⟩
    rw [vecErase, if_neg hend]
    simp only
    rw [hmove, Option.map_some]

/-- Where the sum of the two wraps to below the size, the count that is left is wrong. -/
theorem erase_wraps {pos len : ℕ} {vec' : VecT} (h : Holds vec xs) (hpos : pos < 2 ^ 32) (hlen : len < 2 ^ 32)
    (hwrap : 2 ^ 32 ≤ pos + len) (hlt : pos + len - 2 ^ 32 < vec.size)
    (herase : vecErase vec pos len = some vec') : ¬Holds vec' (xs.take pos ++ xs.drop (pos + len)) := by
  have hsize := h.size
  have hcap := h.cap_lt
  have hfits := h.fits
  have hend : ¬add32 pos len ≥ vec.size := by
    unfold add32
    omega
  rw [vecErase, if_neg hend] at herase
  obtain ⟨buffer, -, rfl⟩ := Option.map_eq_some_iff.mp herase
  intro hh
  have hcount := hh.size
  rw [List.length_append, List.length_take, List.length_drop] at hcount
  simp only [sub32] at hcount
  omega

theorem insert_spec (junk : ℕ → UInt8) {pos : ℕ} (h : Holds vec xs) (hg : Growable vec) (val : UInt32) :
    ∃ vec', vecInsert junk vec pos val = some vec' ∧ Holds vec' (xs.take pos ++ val :: xs.drop pos) := by
  by_cases hend : pos ≥ vec.size
  · have hlen : xs.length ≤ pos := h.size ▸ hend
    rw [vecInsert, if_pos hend, List.take_of_length_le hlen, List.drop_eq_nil_iff.mpr hlen]
    exact push_spec junk h hg val
  · obtain ⟨v, hgrow, hh, hlt⟩ := grow_spec junk h hg
    obtain ⟨stale, hstale, hroom, hblock⟩ := hh.split
    have hpos : pos < xs.length := by
      rw [← h.size]
      omega
    have hsize := hh.size
    have hcap := hh.cap_lt
    have hlen : (words xs ++ stale).length = 4 * xs.length + stale.length := by
      rw [List.length_append, length_words]
    have hrest : sub32 v.size pos = xs.length - pos := by
      rw [sub32_of_le (by omega) (by omega), hsize]
    have hmove := @memshiftIn_forth (words xs ++ stale) (4 * pos) 4 (4 * (xs.length - pos)) (by omega) (by omega)
    rw [show Int.bmod ((4 : ℕ) : ℤ) (2 ^ 32) = 4 from rfl, (by omega : 4 * pos + 4 = 4 * (pos + 1))] at hmove
    have hgap : (words xs ++ stale).take (4 * (pos + 1)) =
        words (xs.take pos) ++ ((words xs ++ stale).drop (4 * pos)).take 4 := by
      rw [Nat.mul_add, List.take_add, take_words (List.prefix_append _ _) hpos.le]
    rw [overlay_words hpos.le, hgap, List.append_assoc] at hmove
    have hstore := @store_append (words (xs.take pos))
      (words (xs.drop pos) ++ (words xs ++ stale).drop (4 * (pos + 1 + (xs.length - pos))))
      (((words xs ++ stale).drop (4 * pos)).take 4) (wordBytes val.toNat)
      (by rw [length_wordBytes, List.length_take, List.length_drop]; omega)
    have hbytes : words (xs.take pos) ++ (wordBytes val.toNat ++ (words (xs.drop pos) ++
        (words xs ++ stale).drop (4 * (pos + 1 + (xs.length - pos))))) =
        words (xs.take pos ++ val :: xs.drop pos) ++ (words xs ++ stale).drop (4 * (pos + 1 + (xs.length - pos))) := by
      rw [words_append, words_cons, List.append_assoc, List.append_assoc]
    have hcount : (xs.take pos ++ val :: xs.drop pos).length = xs.length + 1 := by
      rw [List.length_append, List.length_cons, List.length_take, List.length_drop]
      omega
    rw [hbytes, length_words, List.length_take_of_le hpos.le] at hstore
    have hdone := @Holds.replace v xs (xs.take pos ++ val :: xs.drop pos)
      ((words xs ++ stale).drop (4 * (pos + 1 + (xs.length - pos)))) hh (by omega)
      (by rw [hstale, List.length_append, length_words, hcount, List.length_drop, hlen]; omega)
    refine ⟨_, ?_, hdone⟩
    rw [vecInsert, if_neg hend, hgrow, Option.bind_some, hrest, bytes32_of_lt (by omega), bytes32_of_lt (by omega),
      hstale, hmove, Option.bind_some, hstore, Option.map_some, hsize, hcount, add32_of_lt (by omega)]

theorem insert_none (junk : ℕ → UInt8) {pos : ℕ} (h : Holds vec xs) (hg : ¬Growable vec) (val : UInt32) :
    vecInsert junk vec pos val = none := by
  by_cases hend : pos ≥ vec.size
  · rw [vecInsert, if_pos hend, push_none junk h hg]
  · rw [vecInsert, if_neg hend, grow_none junk h (by omega) hg, Option.bind_none]

theorem copy_spec (junk : ℕ → UInt8) (h : Holds vec xs) :
    ∃ vec', vecCopy junk vec = some vec' ∧ Holds vec' xs := by
  obtain ⟨stale, hstale⟩ := h.elements
  have hfits := h.fits
  rw [h.size] at hfits
  refine ⟨_, ?_, holds_copied junk hfits h.cap_lt⟩
  rw [vecCopy, h.size, ← hstale, memcpyIn_words junk stale hfits h.cap_lt, Option.map_some]

theorem holds_newSh (junk : ℕ → UInt8) (size : ℕ) : Holds (vecNewSh junk size) [] ↔ size < 2 ^ 30 := by
  constructor
  · intro h
    have hcap := h.cap_lt
    simp only [vecNewSh] at hcap
    omega
  · intro hlt
    have hlen : (vecAlloc junk (max 1 size)).length = 4 * max 1 size := by
      rw [length_vecAlloc, bytes32_of_lt (by omega)]
    refine ⟨rfl, Nat.zero_le _, hlen.ge, ?_, List.nil_prefix⟩
    rw [vecNewSh, hlen]
    omega

end steps

section exact_steps

variable {junk : ℕ → UInt8} {vec : VecT} {xs : List UInt32}

theorem resize_iff (junk : ℕ → UInt8) (h : Holds vec xs) (size : ℕ) :
    (vec.size ≤ size → size < 2 ^ 30) ↔ Yields (vecResize junk vec size) fun vec' => Holds vec' xs := by
  refine yields_of_wrong (fun hg => ?_) fun hg vec' hresize => ?_
  · by_cases hsize : vec.size ≤ size
    · obtain ⟨vec', hresize, hh, -⟩ := resize_spec junk h (h.size ▸ hsize) (hg hsize)
      exact ⟨vec', hresize, hh⟩
    · exact ⟨vec, if_neg hsize, h⟩
  · obtain ⟨hsize, hlarge⟩ := Classical.not_imp.mp hg
    exact resize_wraps hsize (by omega) hresize

theorem erase_iff (h : Holds vec xs) (pos len : UInt32) :
    (pos.toNat + len.toNat < 2 ^ 32 ∨ vec.size ≤ pos.toNat + len.toNat - 2 ^ 32) ↔
      Yields (vecErase vec pos.toNat len.toNat) fun vec' =>
        Holds vec' (xs.take pos.toNat ++ xs.drop (pos.toNat + len.toNat)) := by
  refine yields_of_wrong (erase_spec h pos.toNat_lt len.toNat_lt) fun hg vec' herase => ?_
  obtain ⟨hwrap, hlt⟩ := not_or.mp hg
  exact erase_wraps h pos.toNat_lt len.toNat_lt (by omega) (by omega) herase

theorem fit_spec (junk : ℕ → UInt8) (h : Holds vec xs) : Yields (vecFit junk vec) fun vec' => Holds vec' xs := by
  have hcap := h.cap_lt
  have hfits := h.fits
  exact (resize_iff junk h vec.size).mp fun _ => by omega

theorem clear_spec (h : Holds vec xs) : Holds (vecClear vec) [] :=
  ⟨rfl, Nat.zero_le _, h.room, h.block, List.nil_prefix⟩

theorem run_iff (junk : ℕ → UInt8) {op : Op} (h : Holds vec xs) (hallowed : Allowed vec op) : Guarded vec op ↔
    ∃ vec', run junk vec op = some (vec', (lists.act xs op).2) ∧ Holds vec' (lists.act xs op).1 := by
  cases op with
  | push val =>
    exact (yields_of_none (fun hg => push_spec junk h hg val) fun hg => push_none junk h hg val).trans yields_silent
  | pop =>
    obtain ⟨vec', val, hpop, hh, hlast⟩ := pop_spec h hallowed
    have hout : (lists.act xs .pop).2 = [val] := by
      change xs.getLast?.toList = [val]
      rw [hlast, Option.toList_some]
    refine ⟨fun _ => ⟨vec', ?_, hh⟩, fun _ => trivial⟩
    rw [run, hpop, Option.map_some, hout]
  | insert pos val =>
    exact (yields_of_none (fun hg => insert_spec junk h hg val) fun hg => insert_none junk h hg val).trans yields_silent
  | erase pos len => exact (erase_iff h pos len).trans yields_silent
  | resize size => exact (resize_iff junk h size.toNat).trans yields_silent
  | fit => exact ⟨fun _ => yields_silent.mp (fit_spec junk h), fun _ => trivial⟩
  | clear => exact ⟨fun _ => ⟨vecClear vec, rfl, clear_spec h⟩, fun _ => trivial⟩

/-- Each call does to its vector what the list operation does to the list exactly when no count wraps and the
capacity is not 0 where it is to be doubled. -/
theorem vectors_exact (junk : ℕ → UInt8) : Exact (vectors junk) lists Holds Allowed Small Guarded fun _ => True where
  make c := by
    cases c with
    | new => exact ⟨fun _ => ⟨_, rfl, (holds_newSh junk 4).mpr (by decide)⟩, fun _ => trivial⟩
    | newS size =>
      refine ⟨fun h => ⟨_, rfl, (holds_newSh junk size.toNat).mpr h⟩, ?_⟩
      rintro ⟨vec, hmake, hh⟩
      obtain rfl := Option.some.inj hmake
      exact (holds_newSh junk size.toNat).mp hh
  act _ _ _ := run_iff junk
  copy _ _ h := ⟨fun _ => copy_spec junk h, fun _ => trivial⟩

end exact_steps

theorem refines_lists_iff (junk : ℕ → UInt8) (calls : List (Call New Op))
    (hp : Runs.Meets (vectors junk).step (Permitted Allowed) ⟨[], []⟩ calls) :
    Runs.Meets (vectors junk).step (Guard Small Guarded fun _ => True) ⟨[], []⟩ calls ↔
      Refines (vectors junk).step lists.step (Represents Holds) ⟨[], []⟩ ⟨[], []⟩ calls :=
  (vectors_exact junk).run_iff ⟨.nil, rfl⟩ hp

theorem refines_lists_edited : Runs.Meets (vectors fun _ => 0).step (Guard Small Guarded fun _ => True) ⟨[], []⟩
      [.make (.newS 0), .act 0 (.push 5), .copy 0, .act 1 (.insert 0 7), .act 1 (.erase 1 1), .act 0 .pop] ↔
    Refines (vectors fun _ => 0).step lists.step (Represents Holds) ⟨[], []⟩ ⟨[], []⟩
      [.make (.newS 0), .act 0 (.push 5), .copy 0, .act 1 (.insert 0 7), .act 1 (.erase 1 1), .act 0 .pop] :=
  refines_lists_iff _ _ (by decide)

/-- A push after the capacity has been given up writes behind the end of the new block, which has no bytes. -/
theorem push_after_fit :
    Runs.Meets (vectors fun _ => 0).step (Permitted Allowed) ⟨[], []⟩
      [.make .new, .act 0 .fit, .act 0 (.push 7)] ∧
    Runs.exec (vectors fun _ => 0).step ⟨[], []⟩ [.make .new, .act 0 .fit, .act 0 (.push 7)] = none := by
  constructor
  · decide
  · rfl

end Eedox.Vec
