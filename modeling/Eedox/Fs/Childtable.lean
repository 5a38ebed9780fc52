import Eedox.Util
import Eedox.Library.Bytes

namespace Eedox.Fs.Childtable

open Util Library.Bytes

/-- `data` is the first `size` bytes of the buffer. -/
structure ChildtableT where
  data : List UInt8
  sectors : ℕ

def childtableFind (data : List UInt8) (name : Str) (ptr : ℕ) : Option ℕ :=
  if data.length ≤ ptr then none
  else if strcmp (data.drop ptr) name.chars = 0 then some ptr
  else childtableFind data name (ptr + (strlen (data.drop ptr) + 1 + 4))
termination_by data.length - ptr

def childtableAdd (table : ChildtableT) (name : Str) (index : ℕ) : ChildtableT :=
  let newSize := (table.data.length + 4 + strlen name.chars + 1) % 2 ^ 32
  { data := (table.data ++ (name.chars ++ 0 :: wordBytes index)).take newSize
    sectors := if newSize > table.sectors * 512 % 2 ^ 32 then (table.sectors + 1) % 2 ^ 32
      else table.sectors }

def childtableRemove (table : ChildtableT) (name : Str) : ChildtableT :=
  match childtableFind table.data name 0 with
  | none => table
  | some rec =>
    let nextRec := rec + strlen name.chars + 1 + 4
    let newSize := (table.data.length + 2 ^ 32 - strlen name.chars - 1 - 4) % 2 ^ 32
    { data := (table.data.take rec ++ table.data.drop nextRec).take newSize
      sectors := if newSize ≤ (table.sectors + 2 ^ 32 - 1) % 2 ^ 32 * 512 % 2 ^ 32 then
          (table.sectors + 2 ^ 32 - 1) % 2 ^ 32
        else table.sectors }

def setWord (data : List UInt8) (k w : ℕ) : List UInt8 :=
  (((data.set k (byteOf w 0)).set (k + 1) (byteOf w 1)).set (k + 2) (byteOf w 2)).set (k + 3)
    (byteOf w 3)

def childtableEditIndex (table : ChildtableT) (name : Str) (new : ℕ) : ChildtableT :=
  match childtableFind table.data name 0 with
  | none => table
  | some rec => { table with data := setWord table.data (rec + strlen name.chars + 1) new }

def childtableGet (table : ChildtableT) (name : Str) : ℕ :=
  match childtableFind table.data name 0 with
  | none => 0
  | some rec => wordAt (bytesOf table.data) (rec + strlen name.chars + 1)

def childtableEditName (table : ChildtableT) (old new : Str) : ChildtableT :=
  let index := childtableGet table old
  if index = 0 then table
  else childtableAdd (childtableRemove table old) new index

@[simp] theorem length_setWord (data : List UInt8) (k w : ℕ) :
    (setWord data k w).length = data.length := by
  simp [setWord]

@[simp] theorem childtableEditIndex_length (table : ChildtableT) (name : Str) (new : ℕ) :
    (childtableEditIndex table name new).data.length = table.data.length := by
  unfold childtableEditIndex
  split <;> simp

theorem childtableRemove_length_le (table : ChildtableT) (name : Str) :
    (childtableRemove table name).data.length ≤ table.data.length := by
  unfold childtableRemove
  split
  · exact le_rfl
  · simp only [List.length_take, List.length_append, List.length_drop]
    omega

def record (r : Str × ℕ) : List UInt8 := r.1.chars ++ 0 :: wordBytes r.2

/-- The bytes of a table with the given records. -/
def encode (rs : List (Str × ℕ)) : List UInt8 := rs.flatMap record

@[simp] theorem encode_nil : encode [] = [] := rfl

@[simp] theorem encode_cons (r : Str × ℕ) (rs : List (Str × ℕ)) :
    encode (r :: rs) = record r ++ encode rs := rfl

@[simp] theorem encode_append (rs qs : List (Str × ℕ)) :
    encode (rs ++ qs) = encode rs ++ encode qs := by
  simp [encode]

@[simp] theorem length_record (r : Str × ℕ) : (record r).length = r.1.chars.length + 5 := by
  simp [record]

theorem strlen_str (name : Str) : strlen name.chars = name.chars.length := by
  have h := length_text name.chars
  rw [text_of_notMem name.nul] at h
  exact h.symm

theorem strlen_record (r : Str × ℕ) (rest : List UInt8) :
    strlen (record r ++ rest) = r.1.chars.length := by
  rw [record, List.append_assoc, List.cons_append]
  exact strlen_terminated r.1.nul _

theorem strcmp_record (r : Str × ℕ) (rest : List UInt8) (name : Str) :
    strcmp (record r ++ rest) name.chars = 0 ↔ r.1 = name := by
  rw [record, List.append_assoc, List.cons_append]
  exact Str.strcmp_terminated r.1 name _

theorem childtableFind_record (pre : List UInt8) (r : Str × ℕ) (rest : List UInt8) (name : Str) :
    childtableFind (pre ++ (record r ++ rest)) name pre.length =
      if r.1 = name then some pre.length
      else childtableFind ((pre ++ record r) ++ rest) name (pre ++ record r).length := by
  have hlen : ¬ (pre ++ (record r ++ rest)).length ≤ pre.length := by
    simp only [List.length_append, length_record]
    omega
  rw [childtableFind, if_neg hlen, List.drop_left]
  by_cases hr : r.1 = name
  · rw [if_pos ((strcmp_record r rest name).mpr hr), if_pos hr]
  · rw [if_neg (mt (strcmp_record r rest name).mp hr), if_neg hr, strlen_record, List.append_assoc,
      List.length_append, length_record]

/-- The search goes from record to record and stops at the first one with the name. -/
theorem childtableFind_encode (pre : List UInt8) {qs ts : List (Str × ℕ)} {name : Str} {i : ℕ}
    (hq : name ∉ qs.map Prod.fst) :
    childtableFind (pre ++ encode (qs ++ (name, i) :: ts)) name pre.length =
      some (pre.length + (encode qs).length) := by
  induction qs generalizing pre with
  | nil => simp [childtableFind_record]
  | cons r qs ih =>
    simp only [List.map_cons, List.mem_cons, not_or] at hq
    rw [List.cons_append, encode_cons, childtableFind_record, if_neg (Ne.symm hq.1), ih _ hq.2]
    simp [Nat.add_assoc]

theorem childtableFind_absent (pre : List UInt8) {rs : List (Str × ℕ)} {name : Str}
    (h : name ∉ rs.map Prod.fst) : childtableFind (pre ++ encode rs) name pre.length = none := by
  induction rs generalizing pre with
  | nil =>
    rw [childtableFind]
    simp
  | cons r rs ih =>
    simp only [List.map_cons, List.mem_cons, not_or] at h
    rw [encode_cons, childtableFind_record, if_neg (Ne.symm h.1), ih _ h.2]

theorem setWord_append (pre post : List UInt8) (v w : ℕ) :
    setWord (pre ++ (wordBytes v ++ post)) pre.length w = pre ++ (wordBytes w ++ post) := by
  simp [setWord, wordBytes]

theorem childtableEditIndex_encode {qs ts : List (Str × ℕ)} {name : Str} {i : ℕ} (new sectors : ℕ)
    (hq : name ∉ qs.map Prod.fst) :
    (childtableEditIndex ⟨encode (qs ++ (name, i) :: ts), sectors⟩ name new).data =
      encode (qs ++ (name, new) :: ts) := by
  have hf := @childtableFind_encode [] _ ts _ i hq
  simp only [List.nil_append, List.length_nil, Nat.zero_add] at hf
  have hsplit (w : ℕ) : encode (qs ++ (name, w) :: ts) =
      (encode qs ++ name.chars ++ [0]) ++ (wordBytes w ++ encode ts) := by
    simp [record]
  have hrec : (encode qs).length + strlen name.chars + 1 =
      (encode qs ++ name.chars ++ [0]).length := by
    simp [strlen_str, Nat.add_assoc]
  simp only [childtableEditIndex, hf]
  rw [hrec, hsplit i, setWord_append, hsplit new]

theorem childtableAdd_encode {rs : List (Str × ℕ)} {name : Str} {index sectors : ℕ}
    (h : (encode rs).length + name.chars.length + 5 < 2 ^ 32) :
    (childtableAdd ⟨encode rs, sectors⟩ name index).data = encode (rs ++ [(name, index)]) := by
  simp only [childtableAdd, strlen_str]
  rw [Nat.mod_eq_of_lt (by omega), List.take_of_length_le (by simp; omega)]
  simp [record]

theorem childtableGet_encode {qs ts : List (Str × ℕ)} {name : Str} {i : ℕ} (sectors : ℕ)
    (hq : name ∉ qs.map Prod.fst) :
    childtableGet ⟨encode (qs ++ (name, i) :: ts), sectors⟩ name = i % 2 ^ 32 := by
  have hf := @childtableFind_encode [] _ ts _ i hq
  simp only [List.nil_append, List.length_nil, Nat.zero_add] at hf
  have hsplit : encode (qs ++ (name, i) :: ts) =
      (encode qs ++ name.chars ++ [0]) ++ (wordBytes i ++ encode ts) := by
    simp [record]
  have hrec : (encode qs).length + strlen name.chars + 1 =
      (encode qs ++ name.chars ++ [0]).length := by
    simp [strlen_str, Nat.add_assoc]
  simp only [childtableGet, hf]
  rw [hrec, hsplit, wordAt_append]

theorem childtableGet_mem {rs : List (Str × ℕ)} {name : Str} {i : ℕ} (sectors : ℕ)
    (hnodup : (rs.map Prod.fst).Nodup) (hm : (name, i) ∈ rs) :
    childtableGet ⟨encode rs, sectors⟩ name = i % 2 ^ 32 := by
  obtain ⟨qs, ts, rfl⟩ := List.append_of_mem hm
  apply childtableGet_encode
  intro hq
  rw [List.map_append, List.map_cons] at hnodup
  exact (List.nodup_append.mp hnodup).2.2 name hq name List.mem_cons_self rfl

end Eedox.Fs.Childtable
