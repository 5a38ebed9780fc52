import Eedox.Fs.TableBuffer
import Eedox.ProgSegments
import Eedox.UserHeap

namespace Eedox.OverlapCopy

open Library.Bytes Library.Words

abbrev Mem := ℕ → UInt8

/-- The address of `p[i]`. -/
def index (p : ℕ) (i : ℤ) : ℕ := ((p + i) % 2 ^ 32).toNat

/-- The loop of `memcpy` and `memshift` that goes up, from the counter `i` on. The counter has 64 bits, which hold
every length and -1. -/
def copyUp (dest src size : ℕ) (i : ℤ) (m : Mem) : Mem :=
  if i < size then copyUp dest src size (i + 1) (Function.update m (index dest i) (m (index src i))) else m
termination_by (size - i).toNat

def copyDown (dest src : ℕ) (i : ℤ) (m : Mem) : Mem :=
  if i ≥ 0 then copyDown dest src (i - 1) (Function.update m (index dest i) (m (index src i))) else m
termination_by (i + 1).toNat

def memcpy (m : Mem) (dest src size : ℕ) : Mem :=
  if size = 0 then m
  else if dest < src then copyUp dest src size 0 m
  else if dest > src then copyDown dest src (sub32 size 1) m
  else m

def memshift (m : Mem) (dest : ℕ) (offset : ℤ) (size : ℕ) : Mem :=
  if size = 0 then m
  else if offset > 0 then copyDown (index dest offset) dest (sub32 size 1) m
  else if offset < 0 then copyUp (index dest offset) dest size 0 m
  else m

section loops

variable {m : Mem} {dest src n : ℕ}

theorem index_of_lt {p i : ℕ} (h : p + i < 2 ^ 32) : index p i = p + i := by
  unfold index
  omega

/-- The bytes that the source holds before the copy. -/
def taken (m : Mem) (src : ℕ) : Mem := fun i => m (src + i)

/-- One turn on the way up: below the counter the bytes are copied, and what the source has from the counter on
is still there. -/
theorem copyUp_turn {i : ℕ} (hi : i < n) (hlt : dest < src ∨ src + n ≤ dest) :
    Function.update (blit m dest (taken m src) i) (dest + i) (blit m dest (taken m src) i (src + i)) =
      blit m dest (taken m src) (i + 1) := by
  funext a
  have hread : blit m dest (taken m src) i (src + i) = m (src + i) := blit_outside (by omega)
  rw [Function.update_apply, hread]
  by_cases ha : a = dest + i
  · rw [if_pos ha, blit_inside (by omega) (by omega), ha, Nat.add_sub_cancel_left, taken]
  · rw [if_neg ha]
    by_cases hin : dest ≤ a ∧ a < dest + i
    · rw [blit_inside hin.1 hin.2, blit_inside hin.1 (by omega)]
    · rw [blit_outside (by omega), blit_outside (by omega)]

theorem copyUp_from {i : ℕ} (hlt : dest < src ∨ src + n ≤ dest) (hd : dest + n ≤ 2 ^ 32) (hs : src + n ≤ 2 ^ 32)
    (hi : i ≤ n) :
    copyUp dest src n i (blit m dest (taken m src) i) = blit m dest (taken m src) n := by
  induction hk : n - i generalizing i with
  | zero =>
    obtain rfl : i = n := by omega
    rw [copyUp, if_neg (by omega)]
  | succ k ih =>
    have hcount : ((i : ℤ) + 1) = (i + 1 : ℕ) := by omega
    rw [copyUp, if_pos (by omega), hcount, index_of_lt (by omega : dest + i < 2 ^ 32),
      index_of_lt (by omega : src + i < 2 ^ 32), copyUp_turn (by omega) hlt]
    exact ih (by omega) (by omega)

/-- On the way down the bytes from the counter on are copied. -/
def upper (m : Mem) (dest src n i : ℕ) : Mem := blit m (dest + i) (taken m (src + i)) (n - i)

theorem copyDown_turn {i : ℕ} (hlt : src < dest ∨ dest + n ≤ src) (hi : i < n) :
    Function.update (upper m dest src n (i + 1)) (dest + i) (upper m dest src n (i + 1) (src + i)) =
      upper m dest src n i := by
  funext a
  have hread : upper m dest src n (i + 1) (src + i) = m (src + i) := blit_outside (by omega)
  rw [Function.update_apply, hread]
  unfold upper
  by_cases ha : a = dest + i
  · rw [if_pos ha, blit_inside (by omega) (by omega), ha, Nat.sub_self, taken, Nat.add_zero]
  · rw [if_neg ha]
    by_cases hin : dest + i < a ∧ a < dest + n
    · rw [blit_inside (by omega) (by omega), blit_inside (by omega) (by omega), taken, taken]
      congr 1
      omega
    · rw [blit_outside (by omega), blit_outside (by omega)]

theorem copyDown_from {i : ℕ} (hlt : src < dest ∨ dest + n ≤ src) (hd : dest + n ≤ 2 ^ 32) (hs : src + n ≤ 2 ^ 32)
    (hi : i ≤ n) :
    copyDown dest src ((i : ℤ) - 1) (upper m dest src n i) = upper m dest src n 0 := by
  induction i with
  | zero => rw [copyDown, if_neg (by omega)]
  | succ i ih =>
    have hcount : ((i + 1 : ℕ) : ℤ) - 1 = i := by omega
    rw [copyDown, hcount, if_pos (by omega), index_of_lt (by omega : dest + i < 2 ^ 32),
      index_of_lt (by omega : src + i < 2 ^ 32), copyDown_turn hlt (by omega)]
    exact ih (by omega)

theorem upper_all (m : Mem) (dest src n : ℕ) : upper m dest src n n = m := by
  funext a
  exact blit_outside (by omega)

theorem blit_none (m : Mem) (dest : ℕ) (s : ℕ → UInt8) : blit m dest s 0 = m := by
  funext a
  exact blit_outside (by omega)

theorem copyUp_eq (hlt : dest < src ∨ src + n ≤ dest) (hd : dest + n ≤ 2 ^ 32) (hs : src + n ≤ 2 ^ 32) :
    copyUp dest src n 0 m = blit m dest (taken m src) n := by
  have hall := @copyUp_from m dest src n 0 hlt hd hs (Nat.zero_le n)
  rwa [blit_none] at hall

theorem copyDown_eq (hpos : n ≠ 0) (hlt : src < dest ∨ dest + n ≤ src) (hd : dest + n ≤ 2 ^ 32)
    (hs : src + n ≤ 2 ^ 32) :
    copyDown dest src (sub32 n 1) m = blit m dest (taken m src) n := by
  have hall := @copyDown_from m dest src n n hlt hd hs le_rfl
  have hcount : ((sub32 n 1 : ℕ) : ℤ) = n - 1 := by
    rw [sub32_of_le (by omega) (by omega)]
    omega
  rw [hcount]
  rwa [upper_all] at hall

theorem blit_self (m : Mem) (p n : ℕ) : blit m p (taken m p) n = m := by
  funext a
  by_cases ha : p ≤ a ∧ a < p + n
  · rw [blit_inside ha.1 ha.2, taken, Nat.add_sub_of_le ha.1]
  · exact blit_outside (by omega)

theorem memcpy_eq (m : Mem) (hd : dest + n ≤ 2 ^ 32) (hs : src + n ≤ 2 ^ 32) :
    memcpy m dest src n = blit m dest (taken m src) n := by
  unfold memcpy
  by_cases hn : n = 0
  · rw [if_pos hn, hn, blit_none]
  · rw [if_neg hn]
    rcases Nat.lt_trichotomy dest src with hlt | rfl | hgt
    · rw [if_pos hlt, copyUp_eq (Or.inl hlt) hd hs]
    · rw [if_neg (lt_irrefl dest), if_neg (lt_irrefl dest), blit_self]
    · rw [if_neg (by omega), if_pos hgt, copyDown_eq hn (Or.inl hgt) hd hs]

/-- The offset may be one that wraps, where the ranges are apart. -/
theorem memshift_index (m : Mem) {p q : ℕ} {offset : ℤ} (hindex : index p offset = q)
    (hup : offset < 0 → q < p ∨ p + n ≤ q) (hdown : 0 < offset → p < q ∨ q + n ≤ p)
    (hp : p + n ≤ 2 ^ 32) (hq : q + n ≤ 2 ^ 32) : memshift m p offset n = blit m q (taken m p) n := by
  unfold memshift
  by_cases hn : n = 0
  · rw [if_pos hn, hn, blit_none]
  · rw [if_neg hn, hindex]
    rcases Int.lt_trichotomy offset 0 with hneg | rfl | hpos
    · rw [if_neg (by omega), if_pos hneg, copyUp_eq (hup hneg) hq hp]
    · have hsame : q = p := by
        unfold index at hindex
        omega
      rw [if_neg (Int.lt_irrefl 0), if_neg (Int.lt_irrefl 0), hsame, blit_self]
    · rw [if_pos hpos, copyDown_eq hn (hdown hpos) hq hp]

theorem memshift_eq (m : Mem) {p q : ℕ} {offset : ℤ} (hq : (q : ℤ) = p + offset) (hp : p + n ≤ 2 ^ 32)
    (hq' : q + n ≤ 2 ^ 32) : memshift m p offset n = blit m q (taken m p) n := by
  by_cases hn : n = 0
  · rw [memshift, if_pos hn, hn, blit_none]
  · have hindex : index p offset = q := by
      unfold index
      omega
    exact memshift_index m hindex (fun _ => by omega) (fun _ => by omega) hp hq'

end loops

theorem moves_exact (m : Mem) (n : ℕ) :
    (∀ dest src : ℕ, dest + n ≤ 2 ^ 32 → src + n ≤ 2 ^ 32 →
      (∀ i < n, memcpy m dest src n (dest + i) = m (src + i)) ∧
        ∀ a, a < dest ∨ dest + n ≤ a → memcpy m dest src n a = m a) ∧
    ∀ (p q : ℕ) (offset : ℤ), (q : ℤ) = p + offset → p + n ≤ 2 ^ 32 → q + n ≤ 2 ^ 32 →
      (∀ i < n, memshift m p offset n (q + i) = m (p + i)) ∧
        ∀ a, a < q ∨ q + n ≤ a → memshift m p offset n a = m a := by
  have hblit (dest src : ℕ) : (∀ i < n, blit m dest (taken m src) n (dest + i) = m (src + i)) ∧
      ∀ a, a < dest ∨ dest + n ≤ a → blit m dest (taken m src) n a = m a := by
    refine ⟨fun i hi => ?_, fun a ha => blit_outside ha⟩
    rw [blit_inside (by omega) (by omega), Nat.add_sub_cancel_left, taken]
  constructor
  · intro dest src hd hs
    rw [memcpy_eq m hd hs]
    exact hblit dest src
  · intro p q offset hq hp hq'
    rw [memshift_eq m hq hp hq']
    exact hblit q p

/-- Both directions, over ranges that share two bytes. -/
theorem moves_exact_overlapping :
    ((∀ i < 3, memcpy (fun a => UInt8.ofNat a) 7 6 3 (7 + i) = UInt8.ofNat (6 + i)) ∧
      ∀ a, a < 7 ∨ 7 + 3 ≤ a → memcpy (fun a => UInt8.ofNat a) 7 6 3 a = UInt8.ofNat a) ∧
    (∀ i < 3, memshift (fun a => UInt8.ofNat a) 7 (-1) 3 (6 + i) = UInt8.ofNat (7 + i)) ∧
      ∀ a, a < 6 ∨ 6 + 3 ≤ a → memshift (fun a => UInt8.ofNat a) 7 (-1) 3 a = UInt8.ofNat a :=
  ⟨(moves_exact (fun a => UInt8.ofNat a) 3).1 7 6 (by omega) (by omega),
    (moves_exact (fun a => UInt8.ofNat a) 3).2 7 6 (-1) (by omega) (by omega) (by omega)⟩

section uses

variable {dest src n : ℕ}

/-- The bytes of a block after a move inside it. -/
theorem slice_moved {buffer : List UInt8} (hd : dest + n ≤ buffer.length) (hs : src + n ≤ buffer.length) :
    slice (blit (bytesOf buffer) dest (taken (bytesOf buffer) src) n) 0 buffer.length =
      overlay buffer dest ((buffer.drop src).take n) := by
  have hlen : ((buffer.drop src).take n).length = n := by
    rw [List.length_take, List.length_drop]
    omega
  have hover := @overlay_slice (bytesOf buffer) buffer.length dest ((buffer.drop src).take n) (by omega)
  rw [slice_bytesOf, hlen, max_eq_left (by omega)] at hover
  rw [hover]
  refine slice_congr fun a _ _ => ?_
  by_cases ha : dest ≤ a ∧ a < dest + n
  · rw [blit_inside ha.1 ha.2, blit_inside ha.1 ha.2, bytesOf_eq (by omega), List.getElem_take,
      List.getElem_drop, taken, bytesOf_eq (by omega)]
  · rw [blit_outside (by omega), blit_outside (by omega)]

/-- The move that closes the gap of a record is a copy to below its source. -/
theorem childtable_memcpyUp {buffer : List UInt8} (hlt : dest < src) (hfits : src + n ≤ buffer.length)
    (haddr : buffer.length ≤ 2 ^ 32) : Fs.TableBuffer.memcpyUp buffer dest src n =
      some (slice (memcpy (bytesOf buffer) dest src n) 0 buffer.length) := by
  rw [Fs.TableBuffer.memcpyUp_eq hlt hfits, memcpy_eq _ (by omega) (by omega), slice_moved (by omega) hfits]

theorem userHeap_memcpy (m : Mem) (hd : dest + n ≤ 2 ^ 32) (hs : src + n ≤ 2 ^ 32) :
    UserHeap.memcpy m dest src n = memcpy m dest src n := (memcpy_eq m hd hs).symm

theorem prog_copyUp {i : ℕ} (s : Prog.Space) (hi : i ≤ n) :
    copyUp dest src n i (Prog.memcpyUp s dest src i).mem = (Prog.memcpyUp s dest src n).mem := by
  induction hk : n - i generalizing i with
  | zero =>
    obtain rfl : i = n := by omega
    rw [copyUp, if_neg (by omega)]
  | succ k ih =>
    have hturn := ih (by omega : i + 1 ≤ n) (by omega)
    rw [copyUp, if_pos (by omega)]
    exact hturn

theorem prog_copyDown (s : Prog.Space) (i : ℕ) :
    copyDown dest src ((i : ℤ) - 1) s.mem = (Prog.memcpyDown s dest src i).mem := by
  induction i generalizing s with
  | zero =>
    rw [copyDown, if_neg (by omega)]
    rfl
  | succ i ih =>
    have hcount : ((i + 1 : ℕ) : ℤ) - 1 = i := by omega
    rw [copyDown, hcount, if_pos (by omega), Prog.memcpyDown, ← ih]
    rfl

/-- The loader copies by the same loops, and sees which pages they touch. -/
theorem prog_memcpy (s : Prog.Space) (hn : n < 2 ^ 32) :
    (Prog.memcpy s dest src n).mem = memcpy s.mem dest src n := by
  unfold Prog.memcpy memcpy
  by_cases h0 : n = 0
  · rw [if_pos h0, if_pos h0]
  · rw [if_neg h0, if_neg h0]
    by_cases hlt : dest < src
    · rw [if_pos hlt, if_pos hlt]
      exact (prog_copyUp s (Nat.zero_le n)).symm
    · rw [if_neg hlt, if_neg hlt]
      by_cases hgt : src < dest
      · have hcount : ((sub32 n 1 : ℕ) : ℤ) = n - 1 := by
          rw [sub32_of_le (by omega) hn]
          omega
        rw [if_pos hgt, if_pos hgt, hcount, prog_copyDown]
      · rw [if_neg hgt, if_neg hgt]

end uses

/-- `memshift` inside one block of memory, given by its bytes; `none` where it leaves the block. -/
def memshiftIn (buffer : List UInt8) (dest : ℕ) (offset : ℤ) (size : ℕ) : Option (List UInt8) :=
  if size = 0 ∨ offset = 0 then some buffer
  else if dest + size ≤ buffer.length ∧ index dest offset + size ≤ buffer.length then
    some (slice (memshift (bytesOf buffer) dest offset size) 0 buffer.length)
  else none

theorem memshiftIn_some {buffer b : List UInt8} {dest size : ℕ} {offset : ℤ}
    (h : memshiftIn buffer dest offset size = some b) : b.length = buffer.length ∧
      (size = 0 ∨ offset = 0 ∨ index dest offset + size ≤ buffer.length) := by
  unfold memshiftIn at h
  split_ifs at h with hnone hfits
  · obtain rfl := Option.some.inj h
    exact ⟨rfl, hnone.imp_right Or.inl⟩
  · obtain rfl := Option.some.inj h
    exact ⟨length_slice _ _ _, Or.inr (Or.inr hfits.2)⟩

theorem memshiftIn_index {buffer : List UInt8} {p q n : ℕ} {offset : ℤ} (hindex : index p offset = q)
    (hup : offset < 0 → q < p ∨ p + n ≤ q) (hdown : 0 < offset → p < q ∨ q + n ≤ p)
    (hp : p + n ≤ buffer.length) (hq : q + n ≤ buffer.length) (haddr : buffer.length ≤ 2 ^ 32) :
    memshiftIn buffer p offset n = some (overlay buffer q ((buffer.drop p).take n)) := by
  have hmoved : slice (memshift (bytesOf buffer) p offset n) 0 buffer.length =
      overlay buffer q ((buffer.drop p).take n) := by
    rw [memshift_index _ hindex hup hdown (by omega) (by omega), slice_moved hq hp]
  unfold memshiftIn
  by_cases hnone : n = 0 ∨ offset = 0
  · have hsame : memshift (bytesOf buffer) p offset n = bytesOf buffer := by
      unfold memshift
      rcases hnone with rfl | rfl
      · exact if_pos rfl
      · simp
    rw [if_pos hnone, ← hmoved, hsame, slice_bytesOf]
  · rw [if_neg hnone, hindex, if_pos (And.intro hp hq), hmoved]

/-- `-len` as an `int32_t`: beyond `2 ^ 31` it wraps to a positive number. -/
theorem bmod_neg {len : ℕ} (hlen : len < 2 ^ 32) :
    Int.bmod (sub32 0 len) (2 ^ 32) = if len ≤ 2 ^ 31 then -(len : ℤ) else 2 ^ 32 - len := by
  have hrem : sub32 0 len = if len = 0 then 0 else 2 ^ 32 - len := by
    unfold sub32
    split_ifs <;> omega
  rw [hrem, Int.bmod]
  split_ifs <;> omega

theorem bmod_pos {len : ℕ} (hlen : len < 2 ^ 32) :
    Int.bmod len (2 ^ 32) = if len < 2 ^ 31 then (len : ℤ) else len - 2 ^ 32 := by
  rw [Int.bmod]
  split_ifs <;> omega

section shifts

variable {buffer : List UInt8} {p len n : ℕ}

/-- A move towards the start. Where the offset wraps, the ranges are apart. -/
theorem memshiftIn_back (hfits : p + len + n ≤ buffer.length) (haddr : buffer.length < 2 ^ 32) :
    memshiftIn buffer (p + len) (Int.bmod (sub32 0 len) (2 ^ 32)) n =
      some (overlay buffer p ((buffer.drop (p + len)).take n)) := by
  have hoffset := @bmod_neg len (by omega)
  apply memshiftIn_index
  · rw [hoffset, index]
    split_ifs <;> omega
  · intro hneg
    rw [hoffset] at hneg
    split_ifs at hneg <;> omega
  · intro hpos
    rw [hoffset] at hpos
    split_ifs at hpos <;> omega
  · exact hfits
  · omega
  · exact haddr.le

theorem memshiftIn_forth (hfits : p + len + n ≤ buffer.length) (haddr : buffer.length < 2 ^ 32) :
    memshiftIn buffer p (Int.bmod len (2 ^ 32)) n = some (overlay buffer (p + len) ((buffer.drop p).take n)) := by
  have hoffset := @bmod_pos len (by omega)
  apply memshiftIn_index
  · rw [hoffset, index]
    split_ifs <;> omega
  · intro hneg
    rw [hoffset] at hneg
    split_ifs at hneg <;> omega
  · intro hpos
    rw [hoffset] at hpos
    split_ifs at hpos <;> omega
  · omega
  · exact hfits
  · exact haddr.le

end shifts

end Eedox.OverlapCopy
