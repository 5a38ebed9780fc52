import Eedox.Image.Agreement

namespace Eedox.Image

open Util Library.Bytes Fs.Childtable

/-- The own properties of an object that `readn` fills, in the order in which they were added. -/
inductive Properties
  | none
  | file (name content : List UInt8) (rest : Properties)
  | dir (name : List UInt8) (node rest : Properties)

inductive Scanned
  | buffer (content : List UInt8)
  | object (node : Properties)

def Properties.add (name : List UInt8) (rest : Properties) : Scanned → Properties
  | .buffer content => .file name content rest
  | .object node => .dir name node rest

/-- The name that stands for the prototype of an object. -/
def protoName : List UInt8 := [95, 95, 112, 114, 111, 116, 111, 95, 95]

def Properties.set (name : List UInt8) (node : Scanned) : Properties → Properties
  | .none => .add name .none node
  | .file name' content rest =>
    if name = name' then .add name rest node else .file name' content (rest.set name node)
  | .dir name' children rest =>
    if name = name' then .add name rest node else .dir name' children (rest.set name node)

/-- `dir[name] = node`: the prototype is not one of the properties. -/
def Properties.assign (name : List UInt8) (node : Scanned) (dir : Properties) : Properties :=
  if name = protoName then dir else dir.set name node

/-- A negative position counts from the end, and none lies outside the buffer. -/
def clamp (length : ℕ) (i : ℤ) : ℕ := if i < 0 then (length + i).toNat else min i.toNat length

def bufferSlice (buffer : List UInt8) (start stop : ℤ) : List UInt8 :=
  (buffer.take (clamp buffer.length stop)).drop (clamp buffer.length start)

/-- `readInt32LE` throws when the word does not lie within the buffer. -/
def readInt32LE (buffer : List UInt8) (offset : ℤ) : Option ℤ :=
  if 0 ≤ offset ∧ offset + 4 ≤ buffer.length then
    let word := wordAt (bytesOf buffer) offset.toNat
    some (if word < 2 ^ 31 then word else word - 2 ^ 32)
  else none

inductive ScanError
  | invalidChildName
  | childTableOutOfRange
  | headerInvalid
  | headerChildren
  | headerAlloc
  | headerFormatValidity

structure ScanHeader where
  index : ℤ
  validity : ℤ
  kind : ℤ
  size : ℤ
  alloc : ℤ
  children : ℤ

def nodekindFile : ℤ := 1

def nodekindDir : ℤ := 2

/-- Nothing stands for an exception or a loop without end. -/
def readh (buffer : List UInt8) (idx : ℤ) : Option (Except ScanError ScanHeader) := do
  let content := bufferSlice buffer (idx * 512) ((idx + 1) * 512)
  let validity ← readInt32LE content 0
  if validity ≠ 1 ∧ validity ≠ 0 then
    return .error .headerFormatValidity
  let index ← readInt32LE content 4
  let size ← readInt32LE content 8
  let alloc ← readInt32LE content 12
  let children ← readInt32LE content 16
  let kind := if (← readInt32LE content 20) = 1 then nodekindDir else nodekindFile
  return .ok ⟨index, validity, kind, size, alloc, children⟩

/-- The characters up to the next zero. What lies outside the buffer is no zero. -/
def readName (buffer : List UInt8) (ptr : ℤ) (name : List UInt8) : Option (List UInt8) :=
  if buffer.length ≤ ptr then none
  else if ptr < 0 then readName buffer (ptr + 1) (name ++ [0])
  else
    let b := bytesOf buffer ptr.toNat
    if b = 0 then some name else readName buffer (ptr + 1) (name ++ [b])
termination_by (buffer.length - ptr).toNat

/-- The loop of `readch`. The pointer has moved past the name and its zero when the index is read. -/
def readEntries (buffer : List UInt8) (stop ptr : ℤ) (children : List (List UInt8 × ℤ)) :
    Option (Except ScanError (List (List UInt8 × ℤ))) :=
  if ptr < stop then
    match readName buffer ptr [] with
    | none => none
    | some name =>
      if name = [] then some (.error .invalidChildName)
      else
        match readInt32LE buffer (ptr + name.length + 1) with
        | none => none
        | some idx => readEntries buffer stop (ptr + name.length + 1 + 4) (children ++ [(name, idx)])
  else if ptr > stop then some (.error .invalidChildName)
  else some (.ok children)
termination_by (stop - ptr).toNat

def readch (buffer : List UInt8) (idx size : ℤ) :
    Option (Except ScanError (List (List UInt8 × ℤ))) :=
  readEntries buffer (idx * 512 + size) (idx * 512) []

structure Report where
  error : ScanError
  path : List UInt8

/-- The outcome of `readn` with the list of errors so far. -/
abbrev Outcome := Except Report Scanned × List Report

def report (error : ScanError) (path : List UInt8) (errorlist : List Report) : Outcome :=
  (.error ⟨error, path⟩, errorlist ++ [⟨error, path⟩])

/-- The loop over the children of a directory; `ret` is the error of the last child that had one. -/
def readEach (readn : ℤ → List UInt8 → List Report → Option Outcome) (path : List UInt8) :
    List (List UInt8 × ℤ) → Properties → (ret : Option Report) → List Report → Option Outcome
  | [], dir, ret, errorlist =>
    some (match ret with
      | none => .ok (.object dir)
      | some r => .error r, errorlist)
  | c :: children, dir, ret, errorlist =>
    match readn c.2 (path ++ 47 :: c.1) errorlist with
    | none => none
    | some (.ok node, errorlist) => readEach readn path children (dir.assign c.1 node) ret errorlist
    | some (.error r, errorlist) => readEach readn path children dir (some r) errorlist

/-- The recursion goes at most `fuel` levels down. -/
def readn (buffer : List UInt8) : (fuel : ℕ) → (idx : ℤ) → (path : List UInt8) → List Report →
    Option Outcome
  | 0, _, _, _ => none
  | fuel + 1, idx, path, errorlist =>
    match readh buffer idx with
    | none => none
    | some (.error error) => some (report error path errorlist)
    | some (.ok header) =>
      if header.validity = 0 then some (report .headerInvalid path errorlist)
      else if header.kind = nodekindDir then
        match readch buffer (idx + 1) header.size with
        | none => none
        | some (.error error) => some (report error path errorlist)
        | some (.ok children) => readEach (readn buffer fuel) path children .none none errorlist
      else
        let beg := (idx + 1) * 512
        some (.ok (.buffer (bufferSlice buffer beg (beg + header.size))), errorlist)

/-- Both pointers are read before the scan starts at the root. -/
def scan (buffer : List UInt8) (fuel : ℕ) : Option Outcome := do
  let _allocptr ← readInt32LE buffer 0
  let rootptr ← readInt32LE buffer 512
  readn buffer fuel rootptr [] []

section Reading

theorem clamp_of_le {length i : ℕ} (h : i ≤ length) : clamp length i = i := by
  rw [clamp, if_neg (by omega), Int.toNat_natCast, min_eq_left h]

theorem bufferSlice_append (pre mid post : List UInt8) :
    bufferSlice (pre ++ (mid ++ post)) pre.length ((pre.length + mid.length : ℕ) : ℤ) = mid := by
  have hlen : (pre ++ (mid ++ post)).length = pre.length + (mid.length + post.length) := by simp
  rw [bufferSlice, hlen, clamp_of_le (by omega), clamp_of_le (by omega), ← List.append_assoc,
    List.take_left' (by simp), List.drop_left]

theorem readInt32LE_append (pre post : List UInt8) {w : ℕ} (h : w < 2 ^ 31) :
    readInt32LE (pre ++ (wordBytes w ++ post)) pre.length = some (w : ℤ) := by
  have hw : wordAt (bytesOf (pre ++ (wordBytes w ++ post))) pre.length = w := by
    rw [wordAt_append, Nat.mod_eq_of_lt (by omega)]
  have hlen : (pre ++ (wordBytes w ++ post)).length = pre.length + (4 + post.length) := by simp
  rw [readInt32LE, if_pos (by rw [hlen]; omega), Int.toNat_natCast]
  simp only [hw, if_pos h]

theorem readName_append (pre : List UInt8) {chars : List UInt8} (hn : 0 ∉ chars)
    (post name : List UInt8) :
    readName (pre ++ (chars ++ 0 :: post)) pre.length name = some (name ++ chars) := by
  induction chars generalizing pre name with
  | nil =>
    have hb : bytesOf (pre ++ ([] ++ 0 :: post)) pre.length = 0 := by
      have h := bytesOf_append_right pre (0 :: post) 0
      rwa [Nat.add_zero] at h
    rw [readName, if_neg (by simp only [List.length_append, List.length_cons]; omega), if_neg (by omega),
      Int.toNat_natCast]
    simp only [hb, if_pos, List.append_nil]
  | cons c chars ih =>
    rw [List.mem_cons, not_or] at hn
    have hb : bytesOf (pre ++ (c :: chars ++ 0 :: post)) pre.length = c := by
      have h := bytesOf_append_right pre (c :: chars ++ 0 :: post) 0
      rwa [Nat.add_zero] at h
    have hnext := ih (pre ++ [c]) hn.2 (name ++ [c])
    have hlen : ((pre ++ [c]).length : ℤ) = pre.length + 1 := by simp
    rw [hlen] at hnext
    rw [readName, if_neg (by simp only [List.length_append, List.length_cons]; omega), if_neg (by omega),
      Int.toNat_natCast]
    simp only [hb, if_neg (Ne.symm hn.1)]
    rw [List.append_assoc] at hnext
    exact hnext.trans (by simp)

/-- A record as `readch` returns it. -/
def scanned (r : Str × ℕ) : List UInt8 × ℤ := (r.1.chars, r.2)

theorem readEntries_append (pre post : List UInt8) {rs : List (Str × ℕ)}
    (hrs : ∀ r ∈ rs, r.1.chars ≠ [] ∧ r.2 < 2 ^ 31) (children : List (List UInt8 × ℤ)) :
    readEntries (pre ++ (encode rs ++ post)) ((pre.length + (encode rs).length : ℕ) : ℤ) pre.length
      children = some (.ok (children ++ rs.map scanned)) := by
  induction rs generalizing pre children with
  | nil =>
    rw [readEntries]
    simp
  | cons r rs ih =>
    obtain ⟨hr, hw⟩ := hrs r List.mem_cons_self
    have hsplit : pre ++ (encode (r :: rs) ++ post) =
        pre ++ (r.1.chars ++ 0 :: (wordBytes r.2 ++ (encode rs ++ post))) := by
      simp [record]
    have hname := readName_append pre r.1.nul (wordBytes r.2 ++ (encode rs ++ post)) []
    have hword := readInt32LE_append (pre ++ (r.1.chars ++ [0])) (encode rs ++ post) hw
    have hnext := ih (pre ++ record r) (fun q hq => hrs q (List.mem_cons_of_mem _ hq))
      (children ++ [(r.1.chars, (r.2 : ℤ))])
    have hwpos : ((pre ++ (r.1.chars ++ [0])).length : ℤ) = pre.length + r.1.chars.length + 1 := by
      simp
      omega
    have hwsplit : pre ++ (r.1.chars ++ [0]) ++ (wordBytes r.2 ++ (encode rs ++ post)) =
        pre ++ (encode (r :: rs) ++ post) := by
      simp [record]
    have hnsplit : pre ++ record r ++ (encode rs ++ post) = pre ++ (encode (r :: rs) ++ post) := by
      simp
    have hnpos : ((pre ++ record r).length : ℤ) = pre.length + r.1.chars.length + 1 + 4 := by
      simp
      omega
    have hstop : (pre ++ record r).length + (encode rs).length =
        pre.length + (encode (r :: rs)).length := by
      simp
      omega
    rw [hwsplit, hwpos] at hword
    rw [hnsplit, hnpos, hstop] at hnext
    rw [List.nil_append, ← hsplit] at hname
    have hlt : (pre.length : ℤ) < ((pre.length + (encode (r :: rs)).length : ℕ) : ℤ) := by
      rw [encode_cons, List.length_append, length_record]
      omega
    rw [readEntries, if_pos hlt]
    simp only [hname, if_neg hr, hword, hnext]
    rw [List.map_cons, List.append_assoc]
    rfl

theorem readInt32LE_flatMap {words : List ℕ} {i w : ℕ} (h : words[i]? = some w) (hw : w < 2 ^ 31)
    (rest : List UInt8) :
    readInt32LE (words.flatMap wordBytes ++ rest) ((4 * i : ℕ) : ℤ) = some (w : ℤ) := by
  obtain ⟨a, b, he, hl⟩ := flatMap_split h
  rw [he, List.append_assoc, List.append_assoc, ← hl]
  exact readInt32LE_append a (b ++ rest) hw

end Reading

section Image

variable {list : List Node} {i : ℕ} {node : Node}

/-- The numbers that `readInt32LE` reads back as they were written. -/
structure Signed (list : List Node) : Prop where
  sizes : ∀ node ∈ list, node.size < 2 ^ 31
  sectors : allocEnd 2 list ≤ 2 ^ 31

theorem readh_image (hs : Signed list) (hi : list[i]? = some node) :
    readh (imageBytes list) (indexOf list i) = some (.ok ⟨indexOf list i, 1,
      if node.kind = 1 then nodekindDir else nodekindFile, node.size, node.alloc,
      node.childCount⟩) := by
  obtain ⟨pre, post, he, hl⟩ := image_region hi
  have hhead := length_headerBytes (indexOf list i) node
  have hslice := bufferSlice_append pre (headerBytes (indexOf list i) node)
    (pad (nodeBytes list node) ++ post)
  have hbuffer : pre ++ (headerBytes (indexOf list i) node ++ (pad (nodeBytes list node) ++ post)) =
      imageBytes list := by
    rw [he, nodeBlock, List.append_assoc]
  have hstart : (pre.length : ℤ) = (indexOf list i : ℤ) * 512 := by omega
  have hstop : ((pre.length + (headerBytes (indexOf list i) node).length : ℕ) : ℤ) =
      ((indexOf list i : ℤ) + 1) * 512 := by omega
  rw [hbuffer, hstop, hstart] at hslice
  have hsize := hs.sizes node (List.mem_of_getElem? hi)
  have hindex := indexOf_end hi
  have hsec := hs.sectors
  have halloc := alloc_le_size node
  have hcount := childCount_le_size node
  have hkind : node.kind < 2 ^ 31 := by cases node <;> simp [Node.kind]
  have hword (k w : ℕ) (hw : w < 2 ^ 31)
      (hk : [1, indexOf list i, node.size, node.alloc, node.childCount, node.kind][k]? = some w) :
      readInt32LE (headerBytes (indexOf list i) node) ((4 * k : ℕ) : ℤ) = some (w : ℤ) :=
    readInt32LE_flatMap hk hw _
  let head := headerBytes (indexOf list i) node
  have h0 : readInt32LE head 0 = some 1 := hword 0 1 (by omega) rfl
  have h1 : readInt32LE head 4 = _ := hword 1 _ (by omega) rfl
  have h2 : readInt32LE head 8 = _ := hword 2 _ (by omega) rfl
  have h3 : readInt32LE head 12 = _ := hword 3 _ (by omega) rfl
  have h4 : readInt32LE head 16 = _ := hword 4 _ (by omega) rfl
  have h5 : readInt32LE head 20 = _ := hword 5 _ hkind rfl
  have hdir : ((node.kind : ℤ) = 1) = (node.kind = 1) := by
    apply propext
    omega
  rw [readh, hslice]
  change (readInt32LE head 0).bind _ = _
  rw [h0, Option.bind_some, if_neg (by omega)]
  change (readInt32LE head 4).bind (fun index => (readInt32LE head 8).bind fun size =>
    (readInt32LE head 12).bind fun alloc => (readInt32LE head 16).bind fun children =>
    (readInt32LE head 20).bind fun word => some _) = _
  simp only [h1, h2, h3, h4, h5, Option.bind_some, hdir]

theorem readch_image (hs : Signed list) {children : List (Str × ℕ)}
    (hn : ∀ c ∈ children, c.1.chars ≠ []) (hi : list[i]? = some (.dir children)) :
    readch (imageBytes list) (indexOf list i + 1) (Node.dir children).size =
      some (.ok ((records list children).map scanned)) := by
  obtain ⟨pre, post, he, hl⟩ := image_region hi
  let head := headerBytes (indexOf list i) (.dir children)
  let zero := List.replicate (sizeToAlloc (encode (records list children)).length * 512 -
    (encode (records list children)).length) (0 : UInt8)
  have hhead : head.length = 512 := length_headerBytes _ _
  have hsize : (encode (records list children)).length = (Node.dir children).size :=
    length_nodeBytes list (.dir children)
  have hrs : ∀ r ∈ records list children, r.1.chars ≠ [] ∧ r.2 < 2 ^ 31 := by
    intro r hr
    obtain ⟨c, hc, rfl⟩ := List.mem_map.mp hr
    exact ⟨hn c hc, (layout_lt list c.2).trans_le hs.sectors⟩
  have hread := readEntries_append (pre ++ head) (zero ++ post) hrs []
  have hbuffer : pre ++ head ++ (encode (records list children) ++ (zero ++ post)) = imageBytes list := by
    rw [he, nodeBlock, pad, nodeBytes]
    simp only [List.append_assoc, head, zero]
  have hstart : ((pre ++ head).length : ℤ) = ((indexOf list i : ℤ) + 1) * 512 := by
    rw [List.length_append]
    omega
  have hstop : (((pre ++ head).length + (encode (records list children)).length : ℕ) : ℤ) =
      ((indexOf list i : ℤ) + 1) * 512 + (Node.dir children).size := by
    rw [List.length_append]
    omega
  rw [hbuffer, hstop, hstart, List.nil_append] at hread
  exact hread

theorem readn_file (hs : Signed list) {bytes : List UInt8} (hi : list[i]? = some (.file bytes))
    (fuel : ℕ) (path : List UInt8) (errorlist : List Report) :
    readn (imageBytes list) (fuel + 1) (indexOf list i) path errorlist =
      some (.ok (.buffer bytes), errorlist) := by
  obtain ⟨pre, post, he, hl⟩ := image_region hi
  let head := headerBytes (indexOf list i) (.file bytes)
  let zero := List.replicate (sizeToAlloc bytes.length * 512 - bytes.length) (0 : UInt8)
  have hhead : head.length = 512 := length_headerBytes _ _
  have hslice := bufferSlice_append (pre ++ head) bytes (zero ++ post)
  have hbuffer : pre ++ head ++ (bytes ++ (zero ++ post)) = imageBytes list := by
    rw [he, nodeBlock, pad, nodeBytes]
    simp only [List.append_assoc, head, zero]
  have hstart : ((pre ++ head).length : ℤ) = ((indexOf list i : ℤ) + 1) * 512 := by
    rw [List.length_append]
    omega
  have hstop : (((pre ++ head).length + bytes.length : ℕ) : ℤ) =
      ((indexOf list i : ℤ) + 1) * 512 + bytes.length := by
    rw [List.length_append]
    omega
  rw [hbuffer, hstop, hstart] at hslice
  have hread := readh_image hs hi
  rw [readn, hread]
  simp only [Node.kind, Node.size, hslice]
  rfl

theorem readn_dir (hs : Signed list) {children : List (Str × ℕ)}
    (hn : ∀ c ∈ children, c.1.chars ≠ []) (hi : list[i]? = some (.dir children)) (fuel : ℕ)
    (path : List UInt8) (errorlist : List Report) :
    readn (imageBytes list) (fuel + 1) (indexOf list i) path errorlist =
      readEach (readn (imageBytes list) fuel) path ((records list children).map scanned) .none none
        errorlist := by
  have hread := readh_image hs hi
  have hch := readch_image hs hn hi
  rw [readn, hread]
  simp only [Node.kind, hch]
  rfl

end Image

def Properties.names : Properties → List (List UInt8)
  | .none => []
  | .file name _ rest => name :: rest.names
  | .dir name _ rest => name :: rest.names

def Properties.append (a b : Properties) : Properties :=
  match a with
  | .none => b
  | .file name content rest => .file name content (rest.append b)
  | .dir name node rest => .dir name node (rest.append b)

theorem append_file (name content : List UInt8) (rest b : Properties) :
    (Properties.file name content rest).append b = .file name content (rest.append b) := rfl

theorem append_dir (name : List UInt8) (node rest b : Properties) :
    (Properties.dir name node rest).append b = .dir name node (rest.append b) := rfl

theorem append_none (a : Properties) : a.append .none = a := by
  induction a with
  | none => rfl
  | file name content rest ih => rw [append_file, ih]
  | dir name node rest ihn ih => rw [append_dir, ih]

theorem append_assoc (a b c : Properties) : (a.append b).append c = a.append (b.append c) := by
  induction a with
  | none => rfl
  | file name content rest ih => rw [append_file, append_file, append_file, ih]
  | dir name node rest ihn ih => rw [append_dir, append_dir, append_dir, ih]

theorem names_append (a b : Properties) : (a.append b).names = a.names ++ b.names := by
  induction a with
  | none => rfl
  | file name content rest ih => rw [append_file, Properties.names, ih, Properties.names, List.cons_append]
  | dir name node rest ihn ih => rw [append_dir, Properties.names, ih, Properties.names, List.cons_append]

/-- The object with a property for every child. -/
def Children.properties : Children → Properties
  | .none => .none
  | .file name content rest => .file name.chars content rest.properties
  | .dir name children rest => .dir name.chars children.properties rest.properties

/-- The object that the scan makes of a directory. -/
def Children.scannedAs : Children → Properties
  | .none => .none
  | .file name content rest =>
    if name.chars = protoName then rest.scannedAs else .file name.chars content rest.scannedAs
  | .dir name children rest =>
    if name.chars = protoName then rest.scannedAs
    else .dir name.chars children.scannedAs rest.scannedAs

/-- The names at all depths. -/
def Children.allNames : Children → List Str
  | .none => []
  | .file name _ rest => name :: rest.allNames
  | .dir name children rest => name :: (children.allNames ++ rest.allNames)

structure ScanName (name : Str) : Prop where
  nonempty : name.chars ≠ []
  ascii : ∀ c ∈ name.chars, c < 128

/-- A property that the object does not have yet is added at its end. -/
theorem set_notMem {dir : Properties} {name : List UInt8} (node : Scanned) (h : name ∉ dir.names) :
    dir.set name node = dir.append (.add name .none node) := by
  induction dir with
  | none => rfl
  | file name' content rest ih =>
    rw [Properties.names, List.mem_cons, not_or] at h
    rw [Properties.set, if_neg h.1, ih h.2, Properties.append]
  | dir name' children rest ihc ih =>
    rw [Properties.names, List.mem_cons, not_or] at h
    rw [Properties.set, if_neg h.1, ih h.2, Properties.append]

theorem Children.Named.nonempty {t : Children} (h : t.Named ScanName) (i : ℕ) :
    ∀ c ∈ t.places i, c.1.chars ≠ [] := by
  induction t generalizing i with
  | none => simp [Children.places]
  | file name content rest ih =>
    intro c hc
    rcases List.mem_cons.mp hc with rfl | hc
    · exact h.1.nonempty
    · exact ih h.2.2 _ c hc
  | dir name children rest ihc ih =>
    intro c hc
    rcases List.mem_cons.mp hc with rfl | hc
    · exact h.1.nonempty
    · exact ih h.2.2.2 _ c hc

theorem names_add (name : List UInt8) (node : Scanned) : (Properties.add name .none node).names = [name] := by
  cases node <;> rfl

/-- The loop over the children of a directory adds a property for each whose name is not that of the
prototype. -/
theorem readEach_child {readn : ℤ → List UInt8 → List Report → Option Outcome} {path : List UInt8}
    {name : Str} {idx : ℤ} {node : Scanned} {errorlist : List Report} {rest : Children}
    {entries : List (List UInt8 × ℤ)} {dir : Properties}
    (hread : readn idx (path ++ 47 :: name.chars) errorlist = some (.ok node, errorlist))
    (hnew : name ∉ rest.names) (hname : name.chars ∉ dir.names)
    (hdir : ∀ m ∈ rest.names, m.chars ∉ dir.names)
    (hrest : ∀ dir : Properties, (∀ m ∈ rest.names, m.chars ∉ dir.names) →
      readEach readn path entries dir none errorlist =
        some (.ok (.object (dir.append rest.scannedAs)), errorlist)) :
    readEach readn path ((name.chars, idx) :: entries) dir none errorlist =
      some (.ok (.object (dir.append (if name.chars = protoName then rest.scannedAs
        else .add name.chars rest.scannedAs node))), errorlist) := by
  rw [readEach]
  simp only [hread, Properties.assign]
  by_cases hp : name.chars = protoName
  · rw [if_pos hp, if_pos hp]
    exact hrest dir hdir
  · rw [if_neg hp, if_neg hp, set_notMem node hname]
    refine (hrest _ fun m hm => ?_).trans ?_
    · rw [names_append, List.mem_append, not_or, names_add]
      refine ⟨hdir m hm, fun heq => hnew ?_⟩
      rw [← Str.ext (List.mem_singleton.mp heq)]
      exact hm
    · rw [append_assoc]
      cases node <;> rfl

section Tree

variable {list : List Node}

/-- The children of a directory, whose nodes lie from place `i` on, are scanned into its properties. -/
theorem readEach_image (hs : Signed list) {t : Children} (hn : t.Named ScanName) {i fuel : ℕ}
    {pre post : List Node} (hlist : list = pre ++ (t.collect i ++ post)) (hpre : pre.length = i)
    (hfuel : t.count ≤ fuel) (path : List UInt8) (dir : Properties) (errorlist : List Report)
    (hdir : ∀ name ∈ t.names, name.chars ∉ dir.names) :
    readEach (readn (imageBytes list) fuel) path ((records list (t.places i)).map scanned) dir none
      errorlist = some (.ok (.object (dir.append t.scannedAs)), errorlist) := by
  induction t generalizing i fuel pre post path dir with
  | none =>
    rw [Children.scannedAs, append_none]
    rfl
  | file name content rest ih =>
    rw [Children.count] at hfuel
    obtain ⟨fuel, rfl⟩ : ∃ n, fuel = n + 1 := ⟨fuel - 1, by omega⟩
    have hi : list[i]? = some (.file content) := by
      rw [hlist, ← hpre]
      simp [Children.collect]
    have hindex := layout_getD (List.getElem?_eq_some_iff.mp hi).1
    have hread := readn_file hs hi fuel (path ++ 47 :: name.chars) errorlist
    have hrest : list = pre ++ [.file content] ++ (rest.collect (i + 1) ++ post) := by
      rw [hlist, Children.collect]
      simp
    have hfit : rest.count ≤ fuel + 1 := by omega
    rw [← hindex] at hread
    exact readEach_child hread hn.2.1 (hdir name List.mem_cons_self)
      (fun m hm => hdir m (List.mem_cons_of_mem _ hm))
      fun dir hd => ih hn.2.2 hrest (by simp [hpre]) hfit path dir hd
  | dir name children rest ihc ih =>
    rw [Children.count] at hfuel
    obtain ⟨fuel, rfl⟩ : ∃ n, fuel = n + 1 := ⟨fuel - 1, by omega⟩
    have hi : list[i]? = some (.dir (children.places (i + 1))) := by
      rw [hlist, ← hpre]
      simp [Children.collect]
    have hindex := layout_getD (List.getElem?_eq_some_iff.mp hi).1
    have hchildren : list = pre ++ [.dir (children.places (i + 1))] ++ (children.collect (i + 1) ++
        (rest.collect (i + 1 + children.count) ++ post)) := by
      rw [hlist, Children.collect]
      simp
    have hrest : list = pre ++ .dir (children.places (i + 1)) :: children.collect (i + 1) ++
        (rest.collect (i + 1 + children.count) ++ post) := by
      rw [hlist, Children.collect]
      simp
    have hread := readn_dir hs (hn.2.2.1.nonempty (i + 1)) hi fuel (path ++ 47 :: name.chars) errorlist
    have hfitc : children.count ≤ fuel := by omega
    have hfit : rest.count ≤ fuel + 1 := by omega
    rw [ihc hn.2.2.1 hchildren (by simp [hpre]) hfitc _ .none (by simp [Properties.names]),
      ← hindex] at hread
    exact readEach_child hread hn.2.1 (hdir name List.mem_cons_self)
      (fun m hm => hdir m (List.mem_cons_of_mem _ hm))
      fun dir hd => ih hn.2.2.2 hrest (by simp [hpre, length_collect]; omega) hfit path dir hd

end Tree

/-- The scan of an image of the generator finds every child but those named like the prototype. -/
theorem scan_image {tree : Children} (hs : Signed (nodes tree)) (hn : tree.Named ScanName) {fuel : ℕ}
    (hfuel : tree.count < fuel) :
    scan (imageBytes (nodes tree)) fuel = some (.ok (.object tree.scannedAs), []) := by
  obtain ⟨fuel, rfl⟩ : ∃ n, fuel = n + 1 := ⟨fuel - 1, by omega⟩
  have hbuffer := image_root (nodes tree)
  have hlen : 4 ≤ (imageBytes (nodes tree)).length := by
    rw [imageBytes, List.length_append, length_pointerBytes]
    exact Nat.le_add_right_of_le (by decide)
  have hroot : readInt32LE (imageBytes (nodes tree)) 512 = some 2 := by
    have hpos : (512 : ℤ) = (pointerBytes (allocEnd 2 (nodes tree))).length := by
      have := length_pointerBytes (allocEnd 2 (nodes tree))
      omega
    rw [hpos, hbuffer]
    exact readInt32LE_append _ _ (by omega)
  have hnode : (nodes tree)[0]? = some (.dir (tree.places 1)) := rfl
  have hread := readn_dir hs (hn.nonempty 1) hnode fuel [] []
  have hsplit : nodes tree = [.dir (tree.places 1)] ++ (tree.collect 1 ++ []) := by
    rw [List.append_nil]
    rfl
  rw [readEach_image hs hn hsplit rfl (by omega) [] .none [] (by simp [Properties.names])] at hread
  have hindex : indexOf (nodes tree) 0 = 2 := by simp [indexOf]
  have hstart : ((indexOf (nodes tree) 0 : ℕ) : ℤ) = 2 := by omega
  rw [hstart, Properties.append] at hread
  rw [scan, hroot, readInt32LE, if_pos ⟨by omega, by omega⟩, Option.bind_eq_bind, Option.bind_some,
    Option.bind_some, hread]

theorem protoName_scannedAs (t : Children) : protoName ∉ t.scannedAs.names := by
  induction t with
  | none => exact List.not_mem_nil
  | file name content rest ih =>
    rw [Children.scannedAs]
    by_cases hp : name.chars = protoName
    · rwa [if_pos hp]
    · rw [if_neg hp]
      exact fun h => (List.mem_cons.mp h).elim (fun he => hp he.symm) ih
  | dir name children rest ihc ih =>
    rw [Children.scannedAs]
    by_cases hp : name.chars = protoName
    · rwa [if_pos hp]
    · rw [if_neg hp]
      exact fun h => (List.mem_cons.mp h).elim (fun he => hp he.symm) ih

theorem scannedAs_eq_iff (t : Children) :
    t.scannedAs = t.properties ↔ ∀ name ∈ t.allNames, name.chars ≠ protoName := by
  induction t with
  | none => simp [Children.scannedAs, Children.properties, Children.allNames]
  | file name content rest ih =>
    rw [Children.scannedAs, Children.properties, Children.allNames, List.forall_mem_cons, ← ih]
    by_cases hp : name.chars = protoName
    · rw [if_pos hp]
      refine iff_of_false (fun h => protoName_scannedAs rest ?_) fun h => h.1 hp
      rw [h, ← hp]
      exact List.mem_cons_self
    · rw [if_neg hp]
      simp [hp]
  | dir name children rest ihc ih =>
    rw [Children.scannedAs, Children.properties, Children.allNames, List.forall_mem_cons,
      List.forall_mem_append, ← ihc, ← ih]
    by_cases hp : name.chars = protoName
    · rw [if_pos hp]
      refine iff_of_false (fun h => protoName_scannedAs rest ?_) fun h => h.1 hp
      rw [h, ← hp]
      exact List.mem_cons_self
    · rw [if_neg hp]
      simp [hp]

/-- The scan returns the tree without an error as soon as it may go deep enough. -/
def RoundTrip (tree : Children) : Prop :=
  ∃ image depth, build tree = some image ∧
    ∀ fuel ≥ depth, scan image fuel = some (.ok (.object tree.properties), [])

/-- The scan returns the tree exactly when no child is named like the prototype of an object. -/
theorem roundTrip_iff (tree : Children) (hn : tree.Named ScanName)
    (hsizes : ∀ node ∈ nodes tree, node.size < 2 ^ 31) (hsectors : allocEnd 2 (nodes tree) ≤ 2 ^ 31) :
    RoundTrip tree ↔ ∀ name ∈ tree.allNames, name.chars ≠ protoName := by
  have hs : Signed (nodes tree) := ⟨hsizes, hsectors⟩
  have hbuild : build tree = some (imageBytes (nodes tree)) :=
    build_eq ⟨fun node hnode => (hsizes node hnode).trans (by omega), by omega⟩
  rw [← scannedAs_eq_iff]
  constructor
  · rintro ⟨image, depth, himage, hscan⟩
    obtain rfl : image = imageBytes (nodes tree) := Option.some.inj (himage.symm.trans hbuild)
    have hfound := @scan_image tree hs hn (max depth (tree.count + 1)) (by omega)
    rw [hscan _ (le_max_left _ _)] at hfound
    injection hfound with h
    injection h with h
    injection h with h
    injection h with h
    exact h.symm
  · intro h
    refine ⟨_, tree.count + 1, hbuild, fun fuel hfuel => ?_⟩
    rw [← h]
    exact scan_image hs hn hfuel

theorem scanName_letter (i : Fin 33) : ScanName (letter i) :=
  ⟨(fileName_letter i).nonempty, (fileName_letter i).ascii⟩

theorem roundTrip_iff_sample :
    RoundTrip (.dir (letter 0) (.file (letter 1) [7] .none) (.file (letter 2) [] .none)) ↔
      ∀ name ∈ [letter 0, letter 1, letter 2], name.chars ≠ protoName :=
  roundTrip_iff _ ⟨scanName_letter 0, by decide, ⟨scanName_letter 1, by decide, trivial⟩,
    scanName_letter 2, by decide, trivial⟩ (by decide) (by decide)

/-- An empty file named like the prototype. -/
def protoTree : Children := .file ⟨protoName, by decide⟩ [] .none

/-- The file is in the image, and the scan does not return it. -/
theorem roundTrip_proto :
    protoTree.Named ScanName ∧ (build protoTree).isSome ∧ ¬ RoundTrip protoTree := by
  have hn : protoTree.Named ScanName := ⟨⟨by decide, by decide +kernel⟩, List.not_mem_nil, trivial⟩
  have hs : Signed (nodes protoTree) := ⟨by decide, by decide⟩
  have hbuild : build protoTree = some (imageBytes (nodes protoTree)) :=
    build_eq ⟨by decide, by decide⟩
  refine ⟨hn, by rw [hbuild, Option.isSome_some], ?_⟩
  rintro ⟨image, depth, himage, hscan⟩
  obtain rfl : image = imageBytes (nodes protoTree) := Option.some.inj (himage.symm.trans hbuild)
  have hfound := @scan_image protoTree hs hn (max depth 2) (lt_of_lt_of_le (by decide) (le_max_right _ _))
  rw [hscan _ (le_max_left _ _)] at hfound
  injection hfound with h
  injection h with h
  injection h with h
  injection h with h
  cases h

end Eedox.Image
