import Eedox.Fs.Childtable
import Eedox.Library.Assoc

namespace Eedox.Fs.TableBuffer

open Util Library.Bytes Library.Assoc Childtable

/-- The buffer is the whole block from `kmalloc`; beyond `size` its bytes are stale. -/
structure Table where
  buffer : List UInt8
  size : ℕ
  sectors : ℕ

/-- The string functions on the bytes from a pointer to the end of its block, `none` where they read
past it. -/
def strlenIn : List UInt8 → Option ℕ
  | [] => none
  | c :: cs => if c = 0 then some 0 else (strlenIn cs).map (· + 1)

def strcmpIn : List UInt8 → List UInt8 → Option ℤ
  | [], _ => none
  | a :: _, [] => if a ≠ 0 then some 1 else some 0
  | a :: as, b :: bs =>
    if a ≠ 0 then
      if a.toInt8 > b.toInt8 then some 1 else if a.toInt8 < b.toInt8 then some (-1) else strcmpIn as bs
    else some (-1)

def childtableFind (buffer : List UInt8) (size : ℕ) (name : Str) (ptr : ℕ) : Option (Option ℕ) :=
  if size ≤ ptr then some none
  else
    (strcmpIn (buffer.drop ptr) name.chars).bind fun order =>
      if order = 0 then some (some ptr)
      else (strlenIn (buffer.drop ptr)).bind fun len =>
        childtableFind buffer size name (ptr + (len + 1 + 4))
termination_by size - ptr

def store (buffer : List UInt8) (k : ℕ) (bytes : List UInt8) : Option (List UInt8) :=
  if k + bytes.length ≤ buffer.length then some (overlay buffer k bytes) else none

def loadWord (buffer : List UInt8) (k : ℕ) : Option ℕ :=
  if k + 4 ≤ buffer.length then some (wordAt (bytesOf buffer) k) else none

/-- The first `n` turns of the loop of `memcpy` for `dest < src`, inside one block. -/
def memcpyUp (buffer : List UInt8) (dest src : ℕ) : (n : ℕ) → Option (List UInt8)
  | 0 => some buffer
  | i + 1 =>
    (memcpyUp buffer dest src i).bind fun buffer =>
      buffer[src + i]?.bind fun c => store buffer (dest + i) [c]

/-- `junk` is what a new block of memory holds. -/
def childtableAdd (junk : ℕ → UInt8) (table : Table) (name : Str) (index : ℕ) : Option Table :=
  let nameLen := strlen name.chars
  let newSize := (table.size + 4 + nameLen + 1) % 2 ^ 32
  let grown :=
    if newSize > table.sectors * 512 % 2 ^ 32 then
      let sectors := (table.sectors + 1) % 2 ^ 32
      let buffer := slice junk 0 (sectors * 512 % 2 ^ 32)
      if table.size ≤ table.buffer.length then
        (store buffer 0 (table.buffer.take table.size)).map fun buffer => (buffer, sectors)
      else none
    else some (table.buffer, table.sectors)
  grown.bind fun (buffer, sectors) =>
    (store buffer table.size name.chars).bind fun buffer =>
      (store buffer (table.size + nameLen) [0]).bind fun buffer =>
        (store buffer (table.size + nameLen + 1) (wordBytes index)).map fun buffer =>
          ⟨buffer, newSize, sectors⟩

def childtableRemove (table : Table) (name : Str) : Option Table :=
  (childtableFind table.buffer table.size name 0).bind fun
    | none => some table
    | some rec =>
      let nameLen := strlen name.chars
      let nextRec := rec + nameLen + 1 + 4
      let newSize := (table.size + 2 ^ 32 - nameLen - 1 - 4) % 2 ^ 32
      let fewer := (table.sectors + 2 ^ 32 - 1) % 2 ^ 32
      (memcpyUp table.buffer rec nextRec ((table.size + 2 ^ 32 - nextRec) % 2 ^ 32)).map fun buffer =>
        ⟨buffer, newSize, if newSize ≤ fewer * 512 % 2 ^ 32 then fewer else table.sectors⟩

def childtableEditIndex (table : Table) (name : Str) (new : ℕ) : Option Table :=
  (childtableFind table.buffer table.size name 0).bind fun
    | none => some table
    | some rec => (store table.buffer (rec + strlen name.chars + 1) (wordBytes new)).map fun buffer =>
      { table with buffer := buffer }

def childtableGet (table : Table) (name : Str) : Option ℕ :=
  (childtableFind table.buffer table.size name 0).bind fun
    | none => some 0
    | some rec => loadWord table.buffer (rec + strlen name.chars + 1)

def childtableEditName (junk : ℕ → UInt8) (table : Table) (old new : Str) : Option Table :=
  (childtableGet table old).bind fun index =>
    if index = 0 then some table
    else (childtableRemove table old).bind fun table => childtableAdd junk table new index

/-- The table holds the encoding of the records. -/
structure Holds (table : Table) (rs : List (Str × ℕ)) : Prop where
  size : table.size = (encode rs).length
  bytes : encode rs <+: table.buffer
  fits : table.size ≤ 512 * table.sectors
  room : 512 * max table.sectors 1 ≤ table.buffer.length
  addressed : table.buffer.length < 2 ^ 32

theorem strlenIn_terminated {str : List UInt8} (h : 0 ∉ str) (tail : List UInt8) :
    strlenIn (str ++ 0 :: tail) = some str.length := by
  induction str with
  | nil => simp [strlenIn]
  | cons c cs ih =>
    rw [List.mem_cons, not_or] at h
    rw [List.cons_append, strlenIn, if_neg (Ne.symm h.1), ih h.2]
    rfl

/-- Up to the end of a string the comparison stays inside it. -/
theorem strcmpIn_terminated {str : List UInt8} (h : 0 ∉ str) (tail : List UInt8) {name : List UInt8}
    (hn : 0 ∉ name) : strcmpIn (str ++ 0 :: tail) name = some (strcmp (str ++ 0 :: tail) name) := by
  induction str generalizing name with
  | nil => cases name with
    | nil => simp [strcmpIn, strcmp]
    | cons b bs =>
      rw [List.mem_cons, not_or] at hn
      simp [strcmpIn, strcmp, Ne.symm hn.1]
  | cons a as ih =>
    rw [List.mem_cons, not_or] at h
    cases name with
    | nil => simp [strcmpIn, strcmp, Ne.symm h.1]
    | cons b bs =>
      rw [List.mem_cons, not_or] at hn
      have ha := Ne.symm h.1
      have hb := Ne.symm hn.1
      rw [List.cons_append, strcmpIn, strcmp, if_pos ha, if_pos (And.intro ha hb), ih h.2 hn.2]
      split_ifs <;> rfl

/-- On the encoding of records, whatever follows it in the buffer, the search is the one in the bytes of
the table. -/
theorem childtableFind_buffer (pre : List UInt8) (rs : List (Str × ℕ)) (stale : List UInt8) (name : Str) :
    childtableFind (pre ++ (encode rs ++ stale)) (pre.length + (encode rs).length) name pre.length =
      some (Childtable.childtableFind (pre ++ encode rs) name pre.length) := by
  induction rs generalizing pre with
  | nil =>
    rw [childtableFind, Childtable.childtableFind]
    simp
  | cons r rs ih =>
    have hend : ¬ pre.length + (encode (r :: rs)).length ≤ pre.length := by
      simp only [encode_cons, List.length_append, length_record]
      omega
    have hdrop : (pre ++ (encode (r :: rs) ++ stale)).drop pre.length =
        r.1.chars ++ 0 :: (wordBytes r.2 ++ (encode rs ++ stale)) := by
      rw [List.drop_left, encode_cons, record]
      simp only [List.append_assoc, List.cons_append]
    have hzero : strcmp (r.1.chars ++ 0 :: (wordBytes r.2 ++ (encode rs ++ stale))) name.chars = 0 ↔
        r.1 = name := Str.strcmp_terminated r.1 name _
    rw [childtableFind, if_neg hend, hdrop, strcmpIn_terminated r.1.nul _ name.nul,
      strlenIn_terminated r.1.nul, encode_cons, childtableFind_record]
    simp only [Option.bind_some, hzero]
    by_cases hr : r.1 = name
    · rw [if_pos hr, if_pos hr]
    · rw [if_neg hr, if_neg hr, ← ih (pre ++ record r)]
      simp only [List.append_assoc, List.length_append, length_record]
      congr 1
      omega

section find

variable {table : Table} {rs qs ts : List (Str × ℕ)} {name : Str} {i : ℕ}

theorem Holds.find (h : Holds table rs) (name : Str) :
    childtableFind table.buffer table.size name 0 = some (Childtable.childtableFind (encode rs) name 0) := by
  obtain ⟨stale, hstale⟩ := h.bytes
  have hfind := childtableFind_buffer [] rs stale name
  rw [List.nil_append, List.nil_append, List.length_nil, Nat.zero_add, hstale] at hfind
  rw [h.size, hfind]

/-- The search decides with the first `size` bytes alone. -/
theorem Holds.find_take (h : Holds table rs) (name : Str) :
    childtableFind (table.buffer.take table.size) table.size name 0 =
      childtableFind table.buffer table.size name 0 := by
  have hfind := childtableFind_buffer [] rs [] name
  rw [List.nil_append, List.nil_append, List.append_nil, List.length_nil, Nat.zero_add] at hfind
  rw [h.find, h.size, ← List.prefix_iff_eq_take.mp h.bytes, hfind]

theorem Holds.find_absent (h : Holds table rs) (hk : name ∉ keys rs) :
    childtableFind table.buffer table.size name 0 = some none := by
  rw [h.find]
  exact congrArg some (childtableFind_absent [] hk)

theorem Holds.find_record (h : Holds table (qs ++ (name, i) :: ts)) (hq : name ∉ keys qs) :
    childtableFind table.buffer table.size name 0 = some (some (encode qs).length) := by
  rw [h.find]
  have hfind := @childtableFind_encode [] qs ts name i hq
  rw [List.nil_append, List.length_nil, Nat.zero_add] at hfind
  rw [hfind]

/-- The bytes around the index of a record. -/
theorem Holds.around (h : Holds table (qs ++ (name, i) :: ts)) : ∃ stale,
    table.buffer = (encode qs ++ name.chars ++ [0]) ++ (wordBytes i ++ (encode ts ++ stale)) := by
  obtain ⟨stale, hstale⟩ := h.bytes
  refine ⟨stale, ?_⟩
  rw [← hstale]
  simp [record]

theorem length_around (qs : List (Str × ℕ)) (name : Str) :
    (encode qs ++ name.chars ++ [0]).length = (encode qs).length + strlen name.chars + 1 := by
  rw [strlen_str, List.length_append, List.length_append, List.length_singleton]

theorem store_append (pre post : List UInt8) {old new : List UInt8} (hlen : new.length = old.length) :
    store (pre ++ (old ++ post)) pre.length new = some (pre ++ (new ++ post)) := by
  have hfits : pre.length + new.length ≤ (pre ++ (old ++ post)).length := by
    simp only [List.length_append]
    omega
  have hdrop : (pre ++ (old ++ post)).drop (pre.length + new.length) = post := by
    rw [← List.append_assoc, hlen, ← List.length_append, List.drop_left]
  rw [store, if_pos hfits, overlay, List.take_left, hdrop]

theorem childtableGet_absent (h : Holds table rs) (hk : name ∉ keys rs) :
    childtableGet table name = some 0 := by
  rw [childtableGet, h.find_absent hk]
  rfl

theorem childtableGet_record (h : Holds table (qs ++ (name, i) :: ts)) (hq : name ∉ keys qs) :
    childtableGet table name = some (i % 2 ^ 32) := by
  obtain ⟨stale, hstale⟩ := h.around
  rw [childtableGet, h.find_record hq]
  simp only [Option.bind_some]
  rw [← length_around, hstale, loadWord, if_pos, wordAt_append]
  simp only [List.length_append, length_wordBytes]
  omega

theorem childtableEditIndex_record {new : ℕ} (h : Holds table (qs ++ (name, i) :: ts)) (hq : name ∉ keys qs) :
    ∃ t', childtableEditIndex table name new = some t' ∧ Holds t' (qs ++ (name, new) :: ts) := by
  obtain ⟨stale, hstale⟩ := h.around
  have hstore := store_append (encode qs ++ name.chars ++ [0]) (encode ts ++ stale)
    (show (wordBytes new).length = (wordBytes i).length from rfl)
  rw [← hstale, length_around] at hstore
  refine ⟨{ table with buffer := (encode qs ++ name.chars ++ [0]) ++ (wordBytes new ++ (encode ts ++ stale)) },
    ?_, ?_⟩
  · rw [childtableEditIndex, h.find_record hq]
    simp only [Option.bind_some]
    rw [hstore]
    rfl
  · have hsize : (encode (qs ++ (name, new) :: ts)).length = (encode (qs ++ (name, i) :: ts)).length := by
      simp
    have hlen : ((encode qs ++ name.chars ++ [0]) ++ (wordBytes new ++ (encode ts ++ stale))).length =
        table.buffer.length := by
      rw [hstale]
      simp
    exact ⟨h.size.trans hsize.symm, ⟨stale, by simp [record]⟩, h.fits, h.room.trans_eq hlen.symm,
      hlen.trans_lt h.addressed⟩

end find

section remove

theorem getElem?_overlay {old new : List UInt8} {k j : ℕ} (hk : k ≤ old.length) :
    (overlay old k new)[j]? =
      if j < k then old[j]? else if j < k + new.length then new[j - k]? else old[j]? := by
  have hlen : (old.take k).length = k := List.length_take_of_le hk
  unfold overlay
  by_cases h : j < k
  · rw [if_pos h, List.getElem?_append_left (by omega), List.getElem?_take_of_lt h]
  · rw [if_neg h, List.getElem?_append_right (by omega), hlen]
    by_cases h' : j < k + new.length
    · rw [if_pos h', List.getElem?_append_left (by omega)]
    · rw [if_neg h', List.getElem?_append_right (by omega), List.getElem?_drop]
      congr 1
      omega

/-- The copy goes down, so that each byte is read before it is overwritten. -/
theorem memcpyUp_eq {buffer : List UInt8} {dest src n : ℕ} (hlt : dest < src)
    (hfits : src + n ≤ buffer.length) :
    memcpyUp buffer dest src n = some (overlay buffer dest ((buffer.drop src).take n)) := by
  induction n with
  | zero => simp [memcpyUp, overlay]
  | succ i ih =>
    have hdest : dest ≤ buffer.length := by omega
    have hlen (m : ℕ) (hm : m ≤ i + 1) : ((buffer.drop src).take m).length = m := by
      rw [List.length_take, List.length_drop]
      omega
    have hread : (overlay buffer dest ((buffer.drop src).take i))[src + i]? = some buffer[src + i] := by
      rw [getElem?_overlay hdest, if_neg (by omega), if_neg (by rw [hlen i (by omega)]; omega)]
      exact List.getElem?_eq_getElem _
    have htotal : (overlay buffer dest ((buffer.drop src).take i)).length = buffer.length := by
      rw [length_overlay hdest, hlen i (by omega)]
      omega
    rw [memcpyUp, ih (by omega)]
    simp only [Option.bind_some]
    rw [hread, Option.bind_some, store, if_pos (by rw [htotal, List.length_singleton]; omega)]
    congr 1
    apply List.ext_getElem?
    intro j
    rw [getElem?_overlay (by omega), getElem?_overlay hdest, getElem?_overlay hdest, hlen i (by omega),
      hlen (i + 1) (by omega), List.length_singleton]
    rcases Nat.lt_trichotomy j (dest + i) with hj | hj | hj
    · rw [if_pos hj]
      by_cases hd : j < dest
      · rw [if_pos hd, if_pos hd]
      · rw [if_neg hd, if_neg hd, if_pos hj, if_pos (by omega), List.getElem?_take_of_lt (by omega),
          List.getElem?_take_of_lt (by omega)]
    · subst hj
      rw [if_neg (by omega), if_pos (by omega), if_neg (by omega), if_pos (by omega),
        List.getElem?_take_of_lt (by omega), List.getElem?_drop, Nat.sub_self,
        List.getElem?_eq_getElem (by omega : src + (dest + i - dest) < buffer.length)]
      simp
    · rw [if_neg (by omega), if_neg (by omega), if_neg (by omega), if_neg (by omega), if_neg (by omega),
        if_neg (by omega)]

theorem sub_sectors {size sectors : ℕ} (hpos : 0 < sectors) (hlt : 512 * sectors < 2 ^ 32)
    (hfits : size ≤ 512 * sectors) {fewer kept : ℕ} (hfewer : (sectors + 2 ^ 32 - 1) % 2 ^ 32 = fewer)
    (hkept : (if size ≤ fewer * 512 % 2 ^ 32 then fewer else sectors) = kept) :
    size ≤ 512 * kept ∧ kept ≤ sectors := by
  split_ifs at hkept
  · omega
  · omega

theorem childtableRemove_record {table : Table} {qs ts : List (Str × ℕ)} {name : Str} {i : ℕ}
    (h : Holds table (qs ++ (name, i) :: ts)) (hq : name ∉ keys qs) :
    ∃ t', childtableRemove table name = some t' ∧ Holds t' (qs ++ ts) ∧ t'.sectors ≤ table.sectors ∧
      t'.buffer.length = table.buffer.length := by
  obtain ⟨stale, hstale⟩ := h.around
  have hsize := h.size
  have hfits := h.fits
  have hroom := h.room
  have haddr := h.addressed
  have hlen : (encode (qs ++ (name, i) :: ts)).length =
      (encode qs).length + (name.chars.length + 1 + 4) + (encode ts).length := by
    simp only [encode_append, encode_cons, List.length_append, length_record]
    omega
  have hnext : table.buffer.drop ((encode qs).length + name.chars.length + 1 + 4) = encode ts ++ stale := by
    have hbuffer : table.buffer = (encode qs ++ name.chars ++ [0] ++ wordBytes i) ++ (encode ts ++ stale) := by
      rw [hstale, List.append_assoc _ (wordBytes i)]
    rw [hbuffer, List.drop_left']
    simp only [List.length_append, List.length_singleton, length_wordBytes]
  have hbuflen : table.buffer.length = table.size + stale.length := by
    rw [hstale, hsize, hlen]
    simp only [List.length_append, List.length_singleton, length_wordBytes]
    omega
  have hcount : (table.size + 2 ^ 32 - ((encode qs).length + name.chars.length + 1 + 4)) % 2 ^ 32 =
      (encode ts).length := by omega
  have hnew : (table.size + 2 ^ 32 - name.chars.length - 1 - 4) % 2 ^ 32 =
      (encode qs).length + (encode ts).length := by omega
  have hcopy : memcpyUp table.buffer (encode qs).length ((encode qs).length + name.chars.length + 1 + 4)
      (encode ts).length = some (overlay table.buffer (encode qs).length (encode ts)) := by
    rw [memcpyUp_eq (by omega) (by omega), hnext, List.take_left]
  have hover : (overlay table.buffer (encode qs).length (encode ts)).length = table.buffer.length := by
    rw [length_overlay (by omega)]
    omega
  obtain ⟨fewer, hfewer⟩ : ∃ fewer, (table.sectors + 2 ^ 32 - 1) % 2 ^ 32 = fewer := ⟨_, rfl⟩
  obtain ⟨kept, hkept⟩ : ∃ kept, (if (encode qs).length + (encode ts).length ≤ fewer * 512 % 2 ^ 32
      then fewer else table.sectors) = kept := ⟨_, rfl⟩
  obtain ⟨hshrunk, hle⟩ := sub_sectors (by omega) (by omega) (by omega) hfewer hkept
  refine ⟨⟨overlay table.buffer (encode qs).length (encode ts), (encode qs).length + (encode ts).length, kept⟩,
    ?_, ⟨?_, ?_, hshrunk, ?_, hover.trans_lt haddr⟩, hle, hover⟩
  · rw [childtableRemove, h.find_record hq]
    rw [Option.bind_some, strlen_str]
    dsimp only
    rw [hcount, hcopy, hnew, hfewer, hkept, Option.map_some]
  · rw [encode_append, List.length_append]
  · have htake : table.buffer.take (encode qs).length = encode qs := by
      rw [hstale]
      simp only [List.append_assoc, List.take_left]
    rw [overlay, htake, encode_append, ← List.append_assoc]
    exact List.prefix_append _ _
  · rw [hover]
    simp only
    omega

end remove

section add

theorem store_stale (pre : List UInt8) {stale new : List UInt8} (hlen : new.length ≤ stale.length) :
    store (pre ++ stale) pre.length new = some (pre ++ new ++ stale.drop new.length) := by
  have hstore := store_append pre (stale.drop new.length)
    (show new.length = (stale.take new.length).length by rw [List.length_take_of_le hlen])
  rw [List.take_append_drop] at hstore
  rw [hstore, List.append_assoc]

/-- The three stores behind the last record. -/
theorem stores_record {pre stale : List UInt8} {name : Str} (index : ℕ)
    (hlen : name.chars.length + 5 ≤ stale.length) :
    ((store (pre ++ stale) pre.length name.chars).bind fun buffer =>
      (store buffer (pre.length + name.chars.length) [0]).bind fun buffer =>
        store buffer (pre.length + name.chars.length + 1) (wordBytes index)) =
      some (pre ++ record (name, index) ++ stale.drop (name.chars.length + 5)) := by
  have h2 := @store_stale (pre ++ name.chars) (stale.drop name.chars.length) [0]
    (by rw [List.length_drop, List.length_singleton]; omega)
  have h3 := @store_stale (pre ++ name.chars ++ [0]) ((stale.drop name.chars.length).drop 1) (wordBytes index)
    (by simp only [List.length_drop, length_wordBytes]; omega)
  rw [List.length_append] at h2
  rw [List.length_append, List.length_append, List.length_singleton] at h3
  rw [store_stale pre (by omega), Option.bind_some, h2, Option.bind_some, List.length_singleton, h3]
  simp only [List.drop_drop, length_wordBytes, record, List.append_assoc, List.cons_append,
    List.nil_append]

/-- The old and the new block of a growing table are both in the address space. -/
def BothBlocks (table : Table) : Prop := table.buffer.length + 512 * (table.sectors + 1) ≤ 2 ^ 32

theorem BothBlocks.of_le {table t' : Table} (h : BothBlocks table)
    (hlen : t'.buffer.length = table.buffer.length) (hsectors : t'.sectors ≤ table.sectors) :
    BothBlocks t' := by
  unfold BothBlocks at h ⊢
  rw [hlen]
  exact (Nat.add_le_add_left (Nat.mul_le_mul_left 512 (Nat.succ_le_succ hsectors)) _).trans h

/-- The record does not fit behind the others. -/
def Grows (table : Table) (name : Str) : Prop := 512 * table.sectors < table.size + name.chars.length + 5

theorem childtableAdd_record {table : Table} {rs : List (Str × ℕ)} {name : Str} (junk : ℕ → UInt8)
    (index : ℕ) (h : Holds table rs) (hname : name.chars.length ≤ 256)
    (hblocks : Grows table name → BothBlocks table) :
    ∃ t', childtableAdd junk table name index = some t' ∧ Holds t' (rs ++ [(name, index)]) := by
  have hsize := h.size
  have hfits := h.fits
  have hroom := h.room
  have haddr := h.addressed
  unfold Grows BothBlocks at hblocks
  obtain ⟨stale, hstale⟩ := h.bytes
  have hnew : (table.size + 4 + name.chars.length + 1) % 2 ^ 32 = table.size + name.chars.length + 5 := by
    omega
  have hencode : encode (rs ++ [(name, index)]) = encode rs ++ record (name, index) := by
    rw [encode_append, encode_cons, encode_nil, List.append_nil]
  have hlast : table.size + name.chars.length + 5 = (encode (rs ++ [(name, index)])).length := by
    rw [hencode, List.length_append, length_record, hsize, Nat.add_assoc]
  -- the record after it has room in the old block or in the new one
  have of_room (tail : List UInt8) (sectors : ℕ) (htail : name.chars.length + 5 ≤ tail.length)
      (hlen : 512 * max sectors 1 ≤ (encode rs ++ tail).length) (haddr : (encode rs ++ tail).length < 2 ^ 32)
      (hs : table.size + name.chars.length + 5 ≤ 512 * sectors)
      (hgrown : childtableAdd junk table name index =
        (store (encode rs ++ tail) table.size name.chars).bind fun buffer =>
          (store buffer (table.size + name.chars.length) [0]).bind fun buffer =>
            (store buffer (table.size + name.chars.length + 1) (wordBytes index)).map fun buffer =>
              ⟨buffer, table.size + name.chars.length + 5, sectors⟩) :
      ∃ t', childtableAdd junk table name index = some t' ∧ Holds t' (rs ++ [(name, index)]) := by
    have hstores := @stores_record (encode rs) tail name index htail
    rw [← hsize] at hstores
    obtain ⟨b1, h1, hstores⟩ := Option.bind_eq_some_iff.mp hstores
    obtain ⟨b2, h2, h3⟩ := Option.bind_eq_some_iff.mp hstores
    have hlen' : (encode rs ++ record (name, index) ++ tail.drop (name.chars.length + 5)).length =
        (encode rs ++ tail).length := by
      simp only [List.length_append, length_record, List.length_drop]
      omega
    refine ⟨⟨encode rs ++ record (name, index) ++ tail.drop (name.chars.length + 5),
      table.size + name.chars.length + 5, sectors⟩, ?_, hlast, ?_, hs, hlen.trans_eq hlen'.symm,
      hlen'.trans_lt haddr⟩
    · rw [hgrown, h1, Option.bind_some, h2, Option.bind_some, h3]
      rfl
    · rw [hencode]
      exact List.prefix_append _ _
  have hlenstale : (encode rs ++ stale).length = table.size + stale.length := by
    rw [List.length_append, hsize]
  rw [hstale] at hlenstale
  by_cases hgrow : table.size + name.chars.length + 5 > table.sectors * 512 % 2 ^ 32
  · have hsectors : (table.sectors + 1) % 2 ^ 32 = table.sectors + 1 := by omega
    have hbytes : (table.sectors + 1) * 512 % 2 ^ 32 = 512 * (table.sectors + 1) := by omega
    have htake : table.buffer.take table.size = encode rs := by
      rw [hsize]
      exact (List.prefix_iff_eq_take.mp h.bytes).symm
    have hcopy : store (slice junk 0 (512 * (table.sectors + 1))) 0 (table.buffer.take table.size) =
        some (encode rs ++ (slice junk 0 (512 * (table.sectors + 1))).drop (encode rs).length) := by
      have hstore := @store_stale [] (slice junk 0 (512 * (table.sectors + 1))) (encode rs)
        (by rw [length_slice]; omega)
      rw [htake]
      simpa using hstore
    refine of_room ((slice junk 0 (512 * (table.sectors + 1))).drop (encode rs).length)
      (table.sectors + 1) ?_ ?_ ?_ (by omega) ?_
    · rw [List.length_drop, length_slice]
      omega
    · rw [List.length_append, List.length_drop, length_slice]
      omega
    · rw [List.length_append, List.length_drop, length_slice]
      omega
    · unfold childtableAdd
      simp only [strlen_str]
      rw [hnew, if_pos hgrow, hsectors, hbytes, if_pos (by omega), hcopy]
      rfl
  · refine of_room stale table.sectors (by omega) ?_ ?_ (by omega) ?_
    · rw [hstale]
      exact hroom
    · rw [hstale]
      exact h.addressed
    · unfold childtableAdd
      simp only [strlen_str]
      rw [hnew, if_neg hgrow, hstale]
      rfl

end add

inductive Operation
  | add (name : Str) (index : ℕ)
  | remove (name : Str)
  | editIndex (name : Str) (new : ℕ)
  | editName (old new : Str)

def Operation.run (junk : ℕ → UInt8) (table : Table) : Operation → Option Table
  | .add name index => childtableAdd junk table name index
  | .remove name => childtableRemove table name
  | .editIndex name new => childtableEditIndex table name new
  | .editName old new => childtableEditName junk table old new

/-- What an operation is on the finite map from names to indices. -/
def Operation.onMap (m : Str → Option ℕ) : Operation → Str → Option ℕ
  | .add name index => Function.update m name (some index)
  | .remove name => Function.update m name none
  | .editIndex name new => Function.update m name ((m name).map fun _ => new)
  | .editName old new =>
    match m old with
    | none => m
    | some index => Function.update (Function.update m old none) new (some index)

/-- The map operation on the list of records: a new record comes last and the others keep their order. -/
def Operation.onRecords (rs : List (Str × ℕ)) : Operation → List (Str × ℕ)
  | .add name index => rs ++ [(name, index)]
  | .remove name => without rs name
  | .editIndex name new => assign rs name new
  | .editName old new =>
    match entries rs old with
    | none => rs
    | some index => without rs old ++ [(new, index)]

/-- The name that an operation searches for. -/
def Operation.subject : Operation → Option Str
  | .add _ _ => none
  | .remove name => some name
  | .editIndex name _ => some name
  | .editName old _ => some old

def Named (name : Str) : Prop := 1 ≤ name.chars.length ∧ name.chars.length ≤ 256

def Indexed (index : ℕ) : Prop := 0 < index ∧ index < 2 ^ 32

structure Records (rs : List (Str × ℕ)) : Prop where
  distinct : (keys rs).Nodup
  named : ∀ r ∈ rs, Named r.1
  indexed : ∀ r ∈ rs, Indexed r.2

def Legal (table : Table) (rs : List (Str × ℕ)) : Operation → Prop
  | .add name index => name ∉ keys rs ∧ Named name ∧ Indexed index ∧ BothBlocks table
  | .remove _ => True
  | .editIndex _ new => Indexed new
  | .editName _ new => new ∉ keys rs ∧ Named new ∧ BothBlocks table

theorem Operation.entries_onRecords {rs : List (Str × ℕ)} {table : Table} {op : Operation}
    (hl : Legal table rs op) : entries (op.onRecords rs) = op.onMap (entries rs) := by
  cases op with
  | add name index => exact entries_add hl.1
  | remove name => exact entries_without rs name
  | editIndex name new =>
    funext k
    rw [onRecords, onMap, entries_assign]
    by_cases hk : k = name
    · subst hk
      rw [if_pos rfl, Function.update_self]
    · rw [if_neg hk, Function.update_of_ne hk]
  | editName old new =>
    simp only [onRecords, onMap]
    cases entries rs old with
    | none => rfl
    | some index =>
      have hfresh : new ∉ keys (without rs old) := fun hc => hl.1 (mem_keys_without.mp hc).1
      rw [entries_add hfresh, entries_without]

section records

variable {rs qs : List (Str × ℕ)} {name : Str} {index : ℕ}

theorem Records.add (h : Records rs) (hk : name ∉ keys rs) (hn : Named name) (hi : Indexed index) :
    Records (rs ++ [(name, index)]) := by
  refine ⟨nodup_add h.distinct hk, fun r hr => ?_, fun r hr => ?_⟩
  · rcases List.mem_append.mp hr with hr | hr
    · exact h.named r hr
    · rw [List.mem_singleton.mp hr]
      exact hn
  · rcases List.mem_append.mp hr with hr | hr
    · exact h.indexed r hr
    · rw [List.mem_singleton.mp hr]
      exact hi

theorem Records.without (h : Records rs) (name : Str) : Records (without rs name) :=
  ⟨nodup_without h.distinct name, fun r hr => h.named r (List.mem_filter.mp hr).1,
    fun r hr => h.indexed r (List.mem_filter.mp hr).1⟩

theorem Records.assign (h : Records rs) (name : Str) (hi : Indexed index) :
    Records (assign rs name index) := by
  refine ⟨(keys_assign rs name index).symm ▸ h.distinct, fun r hr => ?_, fun r hr => ?_⟩
  · obtain ⟨q, hq, rfl⟩ := List.mem_map.mp hr
    split_ifs
    · exact h.named q hq
    · exact h.named q hq
  · obtain ⟨q, hq, rfl⟩ := List.mem_map.mp hr
    split_ifs
    · exact hi
    · exact h.indexed q hq

/-- A name is in no record, or the record of it has its index. -/
theorem Records.cases (h : Records rs) (name : Str) : name ∉ keys rs ∧ entries rs name = none ∨
    ∃ qs index ts, rs = qs ++ (name, index) :: ts ∧ name ∉ keys qs ∧ Indexed index ∧
      entries rs name = some index := by
  by_cases hk : name ∈ keys rs
  · obtain ⟨qs, index, ts, rfl, hq⟩ := split_key hk
    refine Or.inr ⟨qs, index, ts, rfl, hq, h.indexed (name, index) (by simp), ?_⟩
    rw [entries_append_left hq, entries_cons, if_pos rfl]
  · exact Or.inl ⟨hk, entries_eq_none.mpr hk⟩

end records

section refinement

variable {table : Table} {rs : List (Str × ℕ)}

theorem childtableGet_entries (h : Holds table rs) (hr : Records rs) (name : Str) :
    childtableGet table name = some ((entries rs name).getD 0) := by
  rcases hr.cases name with ⟨hk, he⟩ | ⟨qs, index, ts, rfl, hq, hi, he⟩
  · rw [childtableGet_absent h hk, he]
    rfl
  · rw [childtableGet_record h hq, he, Nat.mod_eq_of_lt hi.2]
    rfl

theorem childtableRemove_spec (h : Holds table rs) (hr : Records rs) (name : Str) :
    ∃ t', childtableRemove table name = some t' ∧ Holds t' (without rs name) ∧
      (name ∉ keys rs → t' = table) ∧ (BothBlocks table → BothBlocks t') := by
  rcases hr.cases name with ⟨hk, -⟩ | ⟨qs, index, ts, rfl, hq, -, -⟩
  · refine ⟨table, ?_, (without_absent hk).symm ▸ h, fun _ => rfl, id⟩
    rw [childtableRemove, h.find_absent hk]
    rfl
  · obtain ⟨t', ht, hholds, hsectors, hlen⟩ := childtableRemove_record h hq
    rw [without_split hr.distinct]
    exact ⟨t', ht, hholds, fun hk => absurd (by simp) hk, fun hb => hb.of_le hlen hsectors⟩

theorem childtableEditIndex_spec (h : Holds table rs) (hr : Records rs) (name : Str) (new : ℕ) :
    ∃ t', childtableEditIndex table name new = some t' ∧ Holds t' (assign rs name new) ∧
      (name ∉ keys rs → t' = table) := by
  rcases hr.cases name with ⟨hk, -⟩ | ⟨qs, index, ts, rfl, hq, -, -⟩
  · refine ⟨table, ?_, (assign_absent (v := new) hk).symm ▸ h, fun _ => rfl⟩
    rw [childtableEditIndex, h.find_absent hk]
    rfl
  · obtain ⟨t', ht, hholds⟩ := @childtableEditIndex_record _ _ _ _ _ new h hq
    rw [assign_split hr.distinct]
    exact ⟨t', ht, hholds, fun hk => absurd (by simp) hk⟩

theorem childtableEditName_spec (junk : ℕ → UInt8) (h : Holds table rs) (hr : Records rs) (old : Str)
    {new : Str} (hn : Named new) (hb : BothBlocks table) :
    ∃ t', childtableEditName junk table old new = some t' ∧
      Holds t' ((Operation.editName old new).onRecords rs) ∧ (old ∉ keys rs → t' = table) := by
  have hget := childtableGet_entries h hr old
  rcases hr.cases old with ⟨hk, he⟩ | ⟨qs, index, ts, rfl, hq, hi, he⟩
  · refine ⟨table, ?_, by simpa only [Operation.onRecords, he] using h, fun _ => rfl⟩
    rw [childtableEditName, hget, he]
    rfl
  · obtain ⟨t1, ht1, hholds1, -, hblocks⟩ := childtableRemove_spec h hr old
    obtain ⟨t2, ht2, hholds2⟩ := childtableAdd_record junk index hholds1 hn.2 fun _ => hblocks hb
    refine ⟨t2, ?_, by simpa only [Operation.onRecords, he] using hholds2, fun hk => absurd (by simp) hk⟩
    rw [childtableEditName, hget, he, Option.getD_some, Option.bind_some, if_neg hi.1.ne', ht1,
      Option.bind_some, ht2]

theorem records_onRecords {op : Operation} (hr : Records rs) (hl : Legal table rs op) :
    Records (op.onRecords rs) := by
  cases op with
  | add name index => exact hr.add hl.1 hl.2.1 hl.2.2.1
  | remove name => exact hr.without name
  | editIndex name new => exact hr.assign name hl
  | editName old new =>
    rcases hr.cases old with ⟨-, he⟩ | ⟨qs, index, ts, rfl, -, hi, he⟩
    · simpa only [Operation.onRecords, he] using hr
    · simp only [Operation.onRecords, he]
      exact (hr.without old).add (fun hc => hl.1 (mem_keys_without.mp hc).1) hl.2.1 hi

end refinement

/-- The table refines the finite map from names to indices: the look-up is the map's, also with nothing
but the table's bytes to read, and each operation leads to the encoding of the records after the
operation on the map; an absent name changes nothing. -/
theorem refines_map (junk : ℕ → UInt8) (table : Table) (rs : List (Str × ℕ)) (op : Operation)
    (h : Holds table rs) (hr : Records rs) (hl : Legal table rs op) :
    (∀ name, childtableGet table name = some ((entries rs name).getD 0)) ∧
    (∀ name, ∃ rec, childtableFind table.buffer table.size name 0 = some rec ∧
      childtableFind (table.buffer.take table.size) table.size name 0 = some rec) ∧
    ∃ t', op.run junk table = some t' ∧ Holds t' (op.onRecords rs) ∧ Records (op.onRecords rs) ∧
      entries (op.onRecords rs) = op.onMap (entries rs) ∧
      ∀ name, op.subject = some name → name ∉ keys rs → t' = table := by
  refine ⟨childtableGet_entries h hr, fun name => ⟨_, h.find name, (h.find_take name).trans (h.find name)⟩, ?_⟩
  have hrecords := records_onRecords hr hl
  have hmap := Operation.entries_onRecords hl
  have of_spec {t' : Table} (name : Str) (hsubject : op.subject = some name)
      (hrun : op.run junk table = some t') (hholds : Holds t' (op.onRecords rs))
      (habsent : name ∉ keys rs → t' = table) :
      ∃ t', op.run junk table = some t' ∧ Holds t' (op.onRecords rs) ∧ Records (op.onRecords rs) ∧
        entries (op.onRecords rs) = op.onMap (entries rs) ∧
        ∀ name, op.subject = some name → name ∉ keys rs → t' = table := by
    refine ⟨t', hrun, hholds, hrecords, hmap, fun other ho => ?_⟩
    obtain rfl : name = other := Option.some.inj (hsubject.symm.trans ho)
    exact habsent
  cases op with
  | add name index =>
    obtain ⟨t', ht, hholds⟩ := childtableAdd_record junk index h hl.2.1.2 fun _ => hl.2.2.2
    exact ⟨t', ht, hholds, hrecords, hmap, fun other ho => absurd ho (by simp [Operation.subject])⟩
  | remove name =>
    obtain ⟨t', ht, hholds, habsent, -⟩ := childtableRemove_spec h hr name
    exact of_spec name rfl ht hholds habsent
  | editIndex name new =>
    obtain ⟨t', ht, hholds, habsent⟩ := childtableEditIndex_spec h hr name new
    exact of_spec name rfl ht hholds habsent
  | editName old new =>
    obtain ⟨t', ht, hholds, habsent⟩ := childtableEditName_spec junk h hr old hl.2.1 hl.2.2
    exact of_spec old rfl ht hholds habsent

def sampleName : Str := ⟨[97], nul_a⟩

def otherName : Str := ⟨[98], nul_b⟩

/-- One record in a block of a sector, with stale bytes behind it. -/
def sampleTable : Table := ⟨encode [(sampleName, 5)] ++ List.replicate 506 97, 6, 1⟩

theorem length_sampleTable : sampleTable.buffer.length = 512 := by
  rw [sampleTable, List.length_append, List.length_replicate]
  rfl

theorem sampleTable_holds : Holds sampleTable [(sampleName, 5)] :=
  ⟨rfl, List.prefix_append _ _, by decide, by rw [length_sampleTable]; decide,
    by rw [length_sampleTable]; decide⟩

theorem refines_map_rename : ∃ t', childtableEditName (fun _ => 0) sampleTable sampleName otherName = some t' ∧
    Holds t' [(otherName, 5)] := by
  have hr : Records [(sampleName, 5)] := ⟨by decide, by simp [Named, sampleName], by simp [Indexed]⟩
  have hb : BothBlocks sampleTable := by
    rw [BothBlocks, length_sampleTable]
    decide
  obtain ⟨-, -, t', ht, hholds, -⟩ := refines_map (fun _ => 0) sampleTable [(sampleName, 5)]
    (.editName sampleName otherName) sampleTable_holds hr ⟨by decide, ⟨by decide, by decide⟩, hb⟩
  exact ⟨t', ht, hholds⟩

end Eedox.Fs.TableBuffer
