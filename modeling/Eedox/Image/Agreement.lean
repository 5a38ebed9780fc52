import Mathlib.Data.List.GetD
import Eedox.Fs.Unlink
import Eedox.Image.Contents

namespace Eedox.Image

open Util Library.Bytes Ata Pathbuf Fs Childtable

/-- Every name has the property, and no directory has two children of one name. -/
def Children.Named (P : Str → Prop) : Children → Prop
  | .none => True
  | .file name _ rest => P name ∧ name ∉ rest.names ∧ rest.Named P
  | .dir name children rest => P name ∧ name ∉ rest.names ∧ children.Named P ∧ rest.Named P

structure FileName (name : Str) : Prop where
  nonempty : name.chars ≠ []
  short : name.chars.length ≤ 256
  ascii : ∀ c ∈ name.chars, c < 128
  slash : 47 ∉ name.chars

def Item.type : Item → ℕ
  | .file _ => inodeTypeFile
  | .dir _ => inodeTypeDir

def Item.size : Item → ℕ
  | .file content => content.length
  | .dir children => (children.names.map fun name => name.chars.length + 5).sum

def Item.childCount : Item → ℕ
  | .file _ => 0
  | .dir children => children.names.length

/-- The image lies on the disk from sector 0 on. -/
def Written (image : List UInt8) (d : Disk) : Prop :=
  ∀ sec o, o < 512 → 512 * sec + o < image.length → d sec o = bytesOf image (512 * sec + o)

/-- The inode that `inode_child` leads to along a path from the inode that sector 1 names. -/
def resolve (s : Volume) (buffer : InodeT) (path : List Str) : InodeT :=
  path.foldl (fun node name => inodeChild s node name buffer)
    { buffer with toHeader := inodeFetch s.disk (wordAt (ataRead s.disk 1) 0) }

def Apart (a b : Header) : Prop := a.index + a.alloc < b.index ∨ b.index + b.alloc < a.index

/-- What the kernel finds on the disk is the tree. -/
structure Agrees (s : Volume) (tree : Children) : Prop where
  isvalid : ∀ buffer path item, lookup (.dir tree) path = some item →
    (resolve s buffer path).isvalid = 1
  type : ∀ buffer path item, lookup (.dir tree) path = some item →
    (resolve s buffer path).type = item.type
  size : ∀ buffer path item, lookup (.dir tree) path = some item →
    (resolve s buffer path).size = item.size
  childCount : ∀ buffer path item, lookup (.dir tree) path = some item →
    (resolve s buffer path).childCount = item.childCount
  reads : ∀ buffer path content, lookup (.dir tree) path = some (.file content) →
    inodeRead s (resolve s buffer path) 0 (resolve s buffer path).size = content
  absent : ∀ buffer path children name, lookup (.dir tree) path = some (.dir children) →
    children.find name = none → (resolve s buffer (path ++ [name])).isvalid = 0
  disjoint : ∀ buffer p q i j, lookup (.dir tree) p = some i → lookup (.dir tree) q = some j →
    p ≠ q → Apart (resolve s buffer p).toHeader (resolve s buffer q).toHeader
  below : ∀ buffer path item, lookup (.dir tree) path = some item →
    (resolve s buffer path).index + (resolve s buffer path).alloc < wordAt (ataRead s.disk 0) 0
  pointer : ∀ buffer, ∃ path item, lookup (.dir tree) path = some item ∧
    (resolve s buffer path).index + (resolve s buffer path).alloc + 1 = wordAt (ataRead s.disk 0) 0

theorem bytesOf_append_left {a b : List UInt8} {i : ℕ} (h : i < a.length) :
    bytesOf (a ++ b) i = bytesOf a i := by
  rw [bytesOf, bytesOf, List.getD_append _ _ _ _ h]

theorem bytesOf_append_right (a b : List UInt8) (i : ℕ) : bytesOf (a ++ b) (a.length + i) = bytesOf b i := by
  rw [bytesOf, bytesOf, List.getD_append_right _ _ _ _ (Nat.le_add_right _ _), Nat.add_sub_cancel_left]

section Disk

variable {list : List Node} {d : Disk} {i : ℕ} {node : Node}

theorem written_block (hw : Written (imageBytes list) d) (hi : list[i]? = some node) {j : ℕ}
    (hj : j < 512 * sectors node) :
    d (indexOf list i + j / 512) (j % 512) = bytesOf (nodeBlock list (node, indexOf list i)) j := by
  obtain ⟨pre, post, he, hl⟩ := image_region hi
  have hlen := length_nodeBlock list (node, indexOf list i)
  have hj' : j < (nodeBlock list (node, indexOf list i)).length := by
    rw [hlen]
    exact hj
  have hpos : 512 * (indexOf list i + j / 512) + j % 512 = pre.length + j := by omega
  rw [hw _ _ (Nat.mod_lt _ (by omega)), hpos, he, bytesOf_append_right, bytesOf_append_left hj']
  rw [hpos, he, List.length_append, List.length_append]
  omega

def headerOf (list : List Node) (i : ℕ) (node : Node) : Header :=
  ⟨1, indexOf list i, node.size, node.alloc, node.childCount, node.kind⟩

theorem fetch_written (hw : Written (imageBytes list) d) (hs : Sized list) (hi : list[i]? = some node)
    (hlba : indexOf list i < 2 ^ 28) : inodeFetch d (indexOf list i) = headerOf list i node := by
  have hsize := hs.sizes node (List.mem_of_getElem? hi)
  have halloc := alloc_le_size node
  have hcount := childCount_le_size node
  have hkind : node.kind < 2 ^ 32 := by cases node <;> simp [Node.kind]
  let words := [1, indexOf list i, node.size, node.alloc, node.childCount, node.kind]
  have hword (k w : ℕ) (hk : k < 6) (hkw : words[k]? = some w) :
      wordAt (ataRead d (indexOf list i)) (4 * k) = w % 2 ^ 32 := by
    rw [← wordAt_flatMap hkw (List.replicate (512 - 24) 0 ++ pad (nodeBytes list node))]
    apply wordAt_congr
    intro j _ hj
    have hblock := @written_block list d i node hw hi j (by rw [sectors]; omega)
    rw [Nat.div_eq_of_lt (by omega), Nat.mod_eq_of_lt (by omega), Nat.add_zero] at hblock
    rw [ataRead, lba_of_lt hlba, hblock, nodeBlock, headerBytes, List.append_assoc]
  rw [inodeFetch, headerOf]
  simp only [Header.mk.injEq]
  refine ⟨hword 0 1 (by omega) rfl, ?_, ?_, ?_, ?_, ?_⟩
  · exact (hword 1 _ (by omega) rfl).trans (Nat.mod_eq_of_lt (by omega))
  · exact (hword 2 _ (by omega) rfl).trans (Nat.mod_eq_of_lt hsize)
  · exact (hword 3 _ (by omega) rfl).trans (Nat.mod_eq_of_lt (by omega))
  · exact (hword 4 _ (by omega) rfl).trans (Nat.mod_eq_of_lt (by omega))
  · exact (hword 5 _ (by omega) rfl).trans (Nat.mod_eq_of_lt hkind)

theorem content_written (hw : Written (imageBytes list) d) (hi : list[i]? = some node) :
    slice (Fs.content d (indexOf list i)) 0 node.size = nodeBytes list node := by
  rw [← length_nodeBytes list node]
  apply slice_eq
  intro k hk
  have hlen := length_nodeBytes list node
  have hroom := size_le_alloc node
  have hblock := @written_block list d i node hw hi (512 + k) (by rw [sectors]; omega)
  have hsec : indexOf list i + 1 + (0 + k) / 512 = indexOf list i + (512 + k) / 512 := by omega
  have hoff : (0 + k) % 512 = (512 + k) % 512 := by omega
  have hskip := bytesOf_append_right (headerBytes (indexOf list i) node) (pad (nodeBytes list node)) k
  rw [length_headerBytes] at hskip
  rw [Fs.content, hsec, hoff, hblock, nodeBlock, hskip, pad, bytesOf_append_left hk, bytesOf_eq hk]

theorem allocEnd_written (hw : Written (imageBytes list) d) (hs : Sized list) :
    wordAt (ataRead d 0) 0 = allocEnd 2 list := by
  have hword := @wordAt_flatMap [allocEnd 2 list] 0 _ rfl (List.replicate (512 - 4) 0 ++
    (pointerBytes 2 ++ (list.zip (layout 2 list)).flatMap (nodeBlock list)))
  rw [Nat.mod_eq_of_lt hs.sectors] at hword
  rw [← hword]
  apply wordAt_congr
  intro j _ hj
  have hlen : (pointerBytes (allocEnd 2 list)).length ≤ (imageBytes list).length := by
    rw [imageBytes, List.length_append]
    exact Nat.le_add_right _ _
  rw [length_pointerBytes] at hlen
  have hd := hw 0 j (by omega) (by omega)
  rw [Nat.mul_zero, Nat.zero_add] at hd
  rw [ataRead, lba_of_lt (by omega), hd, imageBytes, pointerBytes, List.append_assoc]
  rfl

theorem root_written (hw : Written (imageBytes list) d) : wordAt (ataRead d 1) 0 = 2 := by
  have hword := @wordAt_flatMap [2] 0 _ rfl (List.replicate (512 - 4) 0 ++
    (list.zip (layout 2 list)).flatMap (nodeBlock list))
  have hsplit := image_root list
  refine Eq.trans (wordAt_congr fun j _ hj => ?_) hword
  have hlen := congrArg List.length hsplit
  rw [List.length_append, List.length_append, List.length_append, length_pointerBytes,
    List.length_replicate] at hlen
  have hd := hw 1 j (by omega) (by omega)
  have hskip := bytesOf_append_right (pointerBytes (allocEnd 2 list)) (wordBytes 2 ++
    (List.replicate (512 - 4) 0 ++ (list.zip (layout 2 list)).flatMap (nodeBlock list))) j
  rw [length_pointerBytes] at hskip
  rw [ataRead, lba_of_lt (by omega), hd, hsplit, Nat.mul_one, hskip]
  rfl

end Disk

section Named

variable {P : Str → Prop}

theorem Children.Named.nodup {t : Children} (h : t.Named P) : t.names.Nodup := by
  induction t with
  | none => exact List.nodup_nil
  | file name content rest ih => exact List.nodup_cons.mpr ⟨h.2.1, ih h.2.2⟩
  | dir name children rest ihc ih => exact List.nodup_cons.mpr ⟨h.2.1, ih h.2.2.2⟩

theorem Children.Named.spot {t children : Children} (h : t.Named P) {name : Str} {i j : ℕ}
    (hs : t.spot name i = some (j, .dir children)) : children.Named P := by
  induction t generalizing i with
  | none => cases hs
  | file name' content rest ih =>
    by_cases hn : name = name'
    · simp [Children.spot, hn] at hs
    · exact ih h.2.2 (by simpa [Children.spot, hn] using hs)
  | dir name' cs rest ihc ih =>
    by_cases hn : name = name'
    · obtain ⟨-, rfl⟩ : i = j ∧ cs = children := by simpa [Children.spot, hn] using hs
      exact h.2.2.1
    · exact ih h.2.2.2 (by simpa [Children.spot, hn] using hs)

theorem Children.Named.locate {t : Children} (h : t.Named P) {path : List Str} {i j : ℕ}
    {children : Children} (hs : locate (i, .dir t) path = some (j, .dir children)) :
    children.Named P := by
  induction path generalizing t i with
  | nil =>
    obtain ⟨-, rfl⟩ : i = j ∧ t = children := by simpa [Image.locate] using hs
    exact h
  | cons name path ih =>
    obtain ⟨⟨k, content | cs⟩, hc, hp⟩ := Option.bind_eq_some_iff.mp hs
    · cases path with
      | nil => cases hp
      | cons n path => cases hp
    · exact ih (h.spot hc) hp

/-- The records of a directory name the places of its children. -/
theorem mem_places {t : Children} (h : t.Named P) {name : Str} {i j : ℕ} :
    (name, j) ∈ t.places i ↔ ∃ item, t.spot name i = some (j, item) := by
  induction t generalizing i with
  | none => simp [Children.places, Children.spot]
  | file name' content rest ih =>
    by_cases hn : name = name'
    · subst hn
      have habs (k : ℕ) : (name, j) ∉ rest.places k := by
        intro hm
        exact h.2.1 (names_places rest k ▸ List.mem_map_of_mem hm)
      simp [Children.places, Children.spot, habs, eq_comm]
    · simp [Children.places, Children.spot, hn, ih h.2.2]
  | dir name' children rest ihc ih =>
    by_cases hn : name = name'
    · subst hn
      have habs (k : ℕ) : (name, j) ∉ rest.places k := by
        intro hm
        exact h.2.1 (names_places rest k ▸ List.mem_map_of_mem hm)
      simp [Children.places, Children.spot, habs, eq_comm]
    · simp [Children.places, Children.spot, hn, ih h.2.2.2]

theorem find_none {t : Children} {name : Str} (h : t.find name = none) : name ∉ t.names := by
  induction t with
  | none => exact List.not_mem_nil
  | file name' content rest ih =>
    by_cases hn : name = name'
    · simp [Children.find, hn] at h
    · exact fun hm => (List.mem_cons.mp hm).elim hn (ih (by simpa [Children.find, hn] using h))
  | dir name' children rest ihc ih =>
    by_cases hn : name = name'
    · simp [Children.find, hn] at h
    · exact fun hm => (List.mem_cons.mp hm).elim hn (ih (by simpa [Children.find, hn] using h))

theorem spot_names {t : Children} {name : Str} {i : ℕ} {s : Spot} (h : t.spot name i = some s) :
    name ∈ t.names := by
  by_contra hn
  induction t generalizing i with
  | none => cases h
  | file name' content rest ih =>
    rw [Children.names, List.mem_cons, not_or] at hn
    exact ih (by simpa [Children.spot, hn.1] using h) hn.2
  | dir name' children rest ihc ih =>
    rw [Children.names, List.mem_cons, not_or] at hn
    exact ih (by simpa [Children.spot, hn.1] using h) hn.2

/-- Some path leads to the node that was pushed last. -/
theorem locate_last {t : Children} (h : t.Named P) (i : ℕ) (hpos : 0 < t.count) :
    ∃ name path s spot, t.spot name i = some s ∧ locate s path = some spot ∧
      spot.1 + 1 = i + t.count := by
  induction t generalizing i with
  | none => cases hpos
  | file name content rest ih =>
    rcases Nat.eq_zero_or_pos rest.count with hz | hp
    · refine ⟨name, [], (i, .file content), (i, .file content), by simp [Children.spot], rfl, ?_⟩
      rw [Children.count]
      omega
    · obtain ⟨n, path, s, spot, hs, hl, he⟩ := ih h.2.2 (i + 1) hp
      have hn : n ≠ name := fun heq => h.2.1 (heq ▸ spot_names hs)
      refine ⟨n, path, s, spot, by simp [Children.spot, hn, hs], hl, ?_⟩
      rw [Children.count]
      omega
  | dir name children rest ihc ih =>
    rcases Nat.eq_zero_or_pos rest.count with hz | hp
    · rcases Nat.eq_zero_or_pos children.count with hcz | hcp
      · refine ⟨name, [], (i, .dir children), (i, .dir children), by simp [Children.spot], rfl, ?_⟩
        rw [Children.count]
        omega
      · obtain ⟨n, path, s, spot, hs, hl, he⟩ := ihc h.2.2.1 (i + 1) hcp
        refine ⟨name, n :: path, (i, .dir children), spot, by simp [Children.spot], ?_, ?_⟩
        · rw [Image.locate, hs, Option.bind_some, hl]
        · rw [Children.count]
          omega
    · obtain ⟨n, path, s, spot, hs, hl, he⟩ := ih h.2.2.2 (i + 1 + children.count) hp
      have hn : n ≠ name := fun heq => h.2.1 (heq ▸ spot_names hs)
      refine ⟨n, path, s, spot, by simp [Children.spot, hn, hs], hl, ?_⟩
      rw [Children.count]
      omega

end Named

theorem Spot.node_size (spot : Spot) : spot.node.size = spot.2.size := by
  obtain ⟨i, content | children⟩ := spot
  · rfl
  · rw [Spot.node, Node.size, Item.size, ← names_places children (i + 1), List.map_map]
    rfl

theorem Spot.node_childCount (spot : Spot) : spot.node.childCount = spot.2.childCount := by
  obtain ⟨i, content | children⟩ := spot
  · rfl
  · rw [Spot.node, Node.childCount, Item.childCount, ← names_places children (i + 1), List.length_map]

theorem Spot.node_kind (spot : Spot) : spot.node.kind = spot.2.type := by
  obtain ⟨i, content | children⟩ := spot <;> rfl

/-- Where the generator put what the paths of the tree lead to. -/
def extents (tree : Children) : Fs.Image := fun path =>
  (locate (0, .dir tree) path).map fun spot =>
    ⟨headerOf (nodes tree) spot.1 spot.node, nodeBytes (nodes tree) spot.node⟩

section Extents

variable {P : Str → Prop} {tree : Children} {d : Disk} {path : List Str}

theorem extents_some {o : Extent} (h : extents tree path = some o) :
    ∃ spot, locate (0, .dir tree) path = some spot ∧ (nodes tree)[spot.1]? = some spot.node ∧
      o = ⟨headerOf (nodes tree) spot.1 spot.node, nodeBytes (nodes tree) spot.node⟩ := by
  obtain ⟨spot, hs, rfl⟩ := Option.map_eq_some_iff.mp h
  exact ⟨spot, hs, nodes_locate hs, rfl⟩

theorem holds_written (hw : Written (imageBytes (nodes tree)) d) (hs : Sized (nodes tree))
    (hlimit : allocEnd 2 (nodes tree) ≤ 2 ^ 28) :
    Holds d (allocEnd 2 (nodes tree)) (extents tree) := by
  refine ⟨hlimit, ?_, ?_, ?_, ?_, ?_, ?_⟩
  · intro p o ho
    obtain ⟨spot, -, -, rfl⟩ := extents_some ho
    exact Nat.le_add_right _ _
  · intro p o ho
    obtain ⟨spot, -, hn, rfl⟩ := extents_some ho
    exact indexOf_end hn
  · intro p o ho
    obtain ⟨spot, -, -, rfl⟩ := extents_some ho
    exact size_le_alloc _
  · intro p q o k ho hk hne
    obtain ⟨a, ha, hna, rfl⟩ := extents_some ho
    obtain ⟨b, hb, hnb, rfl⟩ := extents_some hk
    have hab : a.1 ≠ b.1 := fun h => hne (locate_injective ha hb h)
    rcases Nat.lt_or_gt_of_ne hab with h | h
    · exact Or.inl (indexOf_lt hna h)
    · exact Or.inr (indexOf_lt hnb h)
  · intro p o ho
    obtain ⟨spot, -, hn, rfl⟩ := extents_some ho
    have := indexOf_end hn
    exact fetch_written hw hs hn (by omega)
  · intro p o ho
    obtain ⟨spot, -, hn, rfl⟩ := extents_some ho
    exact content_written hw hn

theorem lists_extents (hn : tree.Named P) {i : ℕ} {children : Children}
    (hl : locate (0, .dir tree) path = some (i, .dir children)) :
    Lists (extents tree) path (nodeBytes (nodes tree) (.dir (children.places (i + 1))))
      (children.places (i + 1)).length := by
  have hc := hn.locate hl
  refine ⟨records (nodes tree) (children.places (i + 1)), rfl, ?_, by simp [records], ?_⟩
  · rw [records, List.map_map]
    have he : (Prod.fst ∘ fun c : Str × ℕ => (c.1, (layout 2 (nodes tree)).getD c.2 0)) = Prod.fst :=
      rfl
    rw [he, names_places]
    exact hc.nodup
  · intro n k
    have hstep (spot : Spot) (h : children.spot n (i + 1) = some spot) :
        locate (0, .dir tree) (path ++ [n]) = some spot := by
      rw [locate_append, hl, Option.bind_some, locate_single, h]
    constructor
    · intro hm
      obtain ⟨⟨n', j⟩, hj, he⟩ := List.mem_map.mp hm
      obtain ⟨rfl, rfl⟩ := Prod.mk.inj he
      obtain ⟨item, hitem⟩ := (mem_places hc).mp hj
      have hloc := hstep _ hitem
      refine ⟨_, by rw [extents, hloc, Option.map_some], ?_⟩
      exact (layout_getD (List.getElem?_eq_some_iff.mp (nodes_locate hloc)).1).symm
    · rintro ⟨o, ho, rfl⟩
      obtain ⟨spot, hs, hnode, rfl⟩ := extents_some ho
      rw [locate_append, hl, Option.bind_some, locate_single] at hs
      refine List.mem_map.mpr ⟨(n, spot.1), (mem_places hc).mpr ⟨spot.2, hs⟩, ?_⟩
      rw [layout_getD (List.getElem?_eq_some_iff.mp hnode).1]
      rfl

theorem tree_extents (hn : tree.Named P) : Tree 2 (extents tree) := by
  refine ⟨⟨_, rfl, rfl, rfl⟩, ?_, ?_⟩
  · intro p o ho htype
    obtain ⟨⟨i, content | children⟩, hl, -, rfl⟩ := extents_some ho
    · cases htype
    · exact lists_extents hn hl
  · intro p n k hk
    obtain ⟨spot, hl, -, rfl⟩ := extents_some hk
    rw [locate_append] at hl
    obtain ⟨⟨i, content | children⟩, hp, hs⟩ := Option.bind_eq_some_iff.mp hl
    · cases hs
    · exact ⟨_, by rw [extents, hp, Option.map_some], rfl⟩

theorem lookup_extents {item : Item} (h : lookup (.dir tree) path = some item) :
    ∃ i, locate (0, .dir tree) path = some (i, item) ∧
      extents tree path = some ⟨headerOf (nodes tree) i (Spot.node (i, item)),
        nodeBytes (nodes tree) (Spot.node (i, item))⟩ := by
  rw [← lookup_locate path (0, .dir tree)] at h
  obtain ⟨spot, hs, rfl⟩ := Option.map_eq_some_iff.mp h
  exact ⟨spot.1, hs, by rw [extents, hs, Option.map_some]⟩

end Extents

section Kernel

variable {P : Str → Prop} {tree : Children} {s : Volume} {path : List Str}

/-- The volume as it is once the allocation pointer has been fetched and before any inode is cached. -/
def fresh (s : Volume) (tree : Children) : Volume :=
  { s with ballocPtr := allocEnd 2 (nodes tree), inodelist := [] }

theorem layout_written (hw : Written (imageBytes (nodes tree)) s.disk) (hs : Sized (nodes tree))
    (hlimit : allocEnd 2 (nodes tree) ≤ 2 ^ 28) (hn : tree.Named P) :
    Layout (fresh s tree) (extents tree) := by
  refine ⟨holds_written hw hs hlimit, ?_, ?_⟩
  · have hroot : wordAt (s.disk 1) 0 = 2 := root_written hw
    change Tree (wordAt (s.disk 1) 0) (extents tree)
    rw [hroot]
    exact tree_extents hn
  · exact ⟨fun c hc => absurd hc List.not_mem_nil, fun c hc => absurd hc List.not_mem_nil⟩

/-- The path leads to the header that the generator wrote for it. -/
theorem resolve_header (hw : Written (imageBytes (nodes tree)) s.disk) (hs : Sized (nodes tree))
    (hlimit : allocEnd 2 (nodes tree) ≤ 2 ^ 28) (hn : tree.Named P) (buffer : InodeT) {o : Extent}
    (ho : extents tree path = some o) : (resolve s buffer path).toHeader = o.header := by
  have hlayout := layout_written hw hs hlimit hn
  induction path using List.reverseRecOn generalizing o with
  | nil =>
    obtain ⟨spot, hl, hnode, rfl⟩ := extents_some ho
    obtain rfl : (0, Item.dir tree) = spot := Option.some.inj hl
    have hfetch := fetch_written hw hs hnode (by simp [indexOf])
    change inodeFetch s.disk (wordAt (ataRead s.disk 1) 0) = _
    rw [root_written hw]
    exact hfetch
  | append_singleton p n ih =>
    obtain ⟨q, hq, -⟩ := hlayout.tree.parents p n o ho
    have hlook := hlayout.lookup hq (ih hq) ho buffer
    have hstep : resolve s buffer (p ++ [n]) = inodeChild s (resolve s buffer p) n buffer := by
      rw [resolve, List.foldl_append]
      rfl
    rw [hstep]
    exact congrArg InodeT.toHeader hlook

/-- A name that the directory does not have is not in its table. -/
theorem resolve_absent (hw : Written (imageBytes (nodes tree)) s.disk) (hs : Sized (nodes tree))
    (hlimit : allocEnd 2 (nodes tree) ≤ 2 ^ 28) (hn : tree.Named P) (buffer : InodeT)
    {children : Children} {name : Str} (hl : lookup (.dir tree) path = some (.dir children))
    (hnone : children.find name = none) : (resolve s buffer (path ++ [name])).isvalid = 0 := by
  obtain ⟨i, hloc, ho⟩ := lookup_extents hl
  have hlayout := layout_written hw hs hlimit hn
  have htable := hlayout.holds.table ho (resolve_header hw hs hlimit hn buffer ho)
  have hmap : (records (nodes tree) (children.places (i + 1))).map Prod.fst = children.names := by
    rw [← names_places children (i + 1), records, List.map_map]
    rfl
  have hget : childtableGet ⟨inodeRead s (resolve s buffer path) 0 (resolve s buffer path).size,
      (resolve s buffer path).alloc⟩ name = 0 := by
    have hread : inodeRead s (resolve s buffer path) 0 (resolve s buffer path).size =
        encode (records (nodes tree) (children.places (i + 1))) := htable
    have hfind := childtableFind_absent [] (by rw [hmap]; exact find_none hnone)
    rw [List.nil_append, List.length_nil] at hfind
    rw [hread, childtableGet, hfind]
  rw [resolve, List.foldl_append]
  change (inodeChild s (resolve s buffer path) name buffer).isvalid = 0
  rw [inodeChild]
  simp only [hget]
  rfl

end Kernel

/-- The generator builds an image, and the kernel finds the tree on every disk that holds it. -/
def Sound (tree : Children) : Prop :=
  ∃ image, build tree = some image ∧ ∀ s : Volume, Written image s.disk → Agrees s tree

theorem locate_end {P : Str → Prop} {tree : Children} (hn : tree.Named P) :
    ∃ path spot, locate (0, .dir tree) path = some spot ∧ spot.1 + 1 = (nodes tree).length := by
  have hlen : (nodes tree).length = tree.count + 1 := by
    rw [nodes, List.length_cons, length_collect]
  rcases Nat.eq_zero_or_pos tree.count with hz | hp
  · exact ⟨[], (0, .dir tree), rfl, by omega⟩
  · obtain ⟨name, path, s, spot, hs, hl, he⟩ := locate_last hn 1 hp
    refine ⟨name :: path, spot, ?_, by omega⟩
    rw [locate, hs, Option.bind_some, hl]

/-- When the kernel can address every sector and every size fits its word, the kernel finds the tree. -/
theorem sound_build (tree : Children) (hn : tree.Named FileName)
    (hsizes : ∀ node ∈ nodes tree, node.size < 2 ^ 32)
    (hlimit : allocEnd 2 (nodes tree) ≤ 2 ^ 28) : Sound tree := by
  have hs : Sized (nodes tree) := ⟨hsizes, by omega⟩
  refine ⟨_, build_eq hs, fun s hw => ?_⟩
  have hhold := holds_written hw hs hlimit
  have hresolve (buffer : InodeT) (path : List Str) (o : Extent) (ho : extents tree path = some o) :
      (resolve s buffer path).toHeader = o.header := resolve_header hw hs hlimit hn buffer ho
  refine ⟨?_, ?_, ?_, ?_, ?_, ?_, ?_, ?_, ?_⟩
  · intro buffer path item hl
    obtain ⟨i, -, ho⟩ := lookup_extents hl
    rw [hresolve buffer path _ ho, headerOf]
  · intro buffer path item hl
    obtain ⟨i, -, ho⟩ := lookup_extents hl
    rw [hresolve buffer path _ ho, headerOf, Spot.node_kind]
  · intro buffer path item hl
    obtain ⟨i, -, ho⟩ := lookup_extents hl
    rw [hresolve buffer path _ ho, headerOf, Spot.node_size]
  · intro buffer path item hl
    obtain ⟨i, -, ho⟩ := lookup_extents hl
    rw [hresolve buffer path _ ho, headerOf, Spot.node_childCount]
  · intro buffer path content hl
    obtain ⟨i, -, ho⟩ := lookup_extents hl
    exact (layout_written hw hs hlimit hn).holds.table ho (hresolve buffer path _ ho)
  · intro buffer path children name hl hnone
    exact resolve_absent hw hs hlimit hn buffer hl hnone
  · intro buffer p q a b ha hb hne
    obtain ⟨i, -, ho⟩ := lookup_extents ha
    obtain ⟨j, -, hk⟩ := lookup_extents hb
    rw [Apart, hresolve buffer p _ ho, hresolve buffer q _ hk]
    exact hhold.disjoint p q _ _ ho hk hne
  · intro buffer path item hl
    obtain ⟨i, -, ho⟩ := lookup_extents hl
    rw [hresolve buffer path _ ho, allocEnd_written hw hs]
    exact hhold.below path _ ho
  · intro buffer
    obtain ⟨path, spot, hl, hlast⟩ := locate_end hn
    have hlook : lookup (.dir tree) path = some spot.2 := by
      rw [← lookup_locate path (0, .dir tree), hl, Option.map_some]
    refine ⟨path, spot.2, hlook, ?_⟩
    rw [hresolve buffer path _ (by rw [extents, hl, Option.map_some]), allocEnd_written hw hs]
    exact indexOf_last (nodes_locate hl) hlast

section Limits

theorem mapM_none {α β : Type} {f : α → Option β} {l : List α} {a : α} (ha : a ∈ l) (h : f a = none) :
    l.mapM f = none := by
  induction l with
  | nil => cases ha
  | cons b l ih =>
    rw [List.mapM_cons]
    rcases List.mem_cons.mp ha with rfl | ha
    · rw [h]
      rfl
    · rw [ih ha]
      cases f b <;> rfl

/-- A size that does not fit its word makes `writeUInt32LE` throw. -/
theorem build_none {tree : Children} {node : Node} (hn : node ∈ nodes tree)
    (hsize : 2 ^ 32 ≤ node.size) : build tree = none := by
  obtain ⟨i, hi, he⟩ := List.getElem_of_mem hn
  have hi' : i < (layout 2 (nodes tree)).length := by rwa [length_layout]
  have hmem : (node, (layout 2 (nodes tree))[i]) ∈
      (nodes tree).zip (layout 2 (nodes tree)) := by
    rw [← he, ← List.getElem_zip (h := by rw [List.length_zip, length_layout, min_self]; exact hi)]
    exact List.getElem_mem _
  have hblock (index : ℕ) : block (layout 2 (nodes tree)) (node, index) = none := by
    have hheader : header index node = none := by
      rw [header, mapM_none (a := node.size) (by simp) (if_neg (by omega)), Option.map_none]
    rw [block, hheader]
    cases content (layout 2 (nodes tree)) node <;> rfl
  rw [build]
  simp only [mapM_none hmem (hblock _)]
  rfl

def ofFiles : List (Str × List UInt8) → Children
  | [] => .none
  | file :: files => .file file.1 file.2 (ofFiles files)

theorem names_ofFiles (files : List (Str × List UInt8)) : (ofFiles files).names = files.map Prod.fst := by
  induction files with
  | nil => rfl
  | cons file files ih => rw [ofFiles, Children.names, ih, List.map_cons]

theorem named_ofFiles {P : Str → Prop} {files : List (Str × List UInt8)}
    (h : ∀ file ∈ files, P file.1) (hn : (files.map Prod.fst).Nodup) : (ofFiles files).Named P := by
  induction files with
  | nil => trivial
  | cons file files ih =>
    rw [List.map_cons, List.nodup_cons] at hn
    refine ⟨h file List.mem_cons_self, ?_, ih (fun f hf => h f (List.mem_cons_of_mem _ hf)) hn.2⟩
    rw [names_ofFiles]
    exact hn.1

theorem collect_ofFiles (files : List (Str × List UInt8)) (i : ℕ) :
    (ofFiles files).collect i = files.map fun file => .file file.2 := by
  induction files generalizing i with
  | nil => rfl
  | cons file files ih => rw [ofFiles, Children.collect, ih, List.map_cons]

theorem toNat_letter (i : Fin 33) : (UInt8.ofNat (65 + i)).toNat = 65 + i := by
  rw [UInt8.toNat_ofNat']
  omega

theorem letter_ne {i : Fin 33} {c : UInt8} (h : c.toNat < 65) : c ≠ UInt8.ofNat (65 + i) := by
  rintro rfl
  rw [toNat_letter] at h
  omega

def letter (i : Fin 33) : Str :=
  ⟨[UInt8.ofNat (65 + i)], fun h => letter_ne (by decide) (List.mem_singleton.mp h)⟩

theorem letter_injective {i j : Fin 33} (h : letter i = letter j) : i = j := by
  have hc : UInt8.ofNat (65 + i) = UInt8.ofNat (65 + j) := List.head_eq_of_cons_eq (congrArg Str.chars h)
  have hn := congrArg UInt8.toNat hc
  rw [toNat_letter, toNat_letter] at hn
  omega

@[irreducible] def huge : List UInt8 := List.replicate (2 ^ 32) 0

theorem length_huge : huge.length = 2 ^ 32 := by
  rw [huge, List.length_replicate]

/-- One file whose size does not fit its word. -/
def oversized : Children := ofFiles [(letter 0, huge)]

@[irreducible] def zeros : List UInt8 := List.replicate (2 ^ 32 - 512) 0

theorem length_zeros : zeros.length = 2 ^ 32 - 512 := by
  rw [zeros, List.length_replicate]

/-- So many files that the last one lies beyond the sectors that the drive can be asked for. -/
def crowded : Children :=
  ofFiles (((List.finRange 32).map fun i => (letter i.castSucc, zeros)) ++ [(letter 32, [0])])

theorem fileName_letter (i : Fin 33) : FileName (letter i) := by
  refine ⟨List.cons_ne_nil _ _, by simp [letter], ?_, fun h => ?_⟩
  · intro c hc
    rw [List.mem_singleton.mp hc, UInt8.lt_iff_toNat_lt, toNat_letter]
    have h128 : (128 : UInt8).toNat = 128 := rfl
    omega
  · exact letter_ne (by decide) (List.mem_singleton.mp h)

theorem named_oversized : oversized.Named FileName := by
  apply named_ofFiles
  · intro file hf
    rw [List.mem_singleton.mp hf]
    exact fileName_letter 0
  · exact List.nodup_cons.mpr ⟨List.not_mem_nil, List.nodup_nil⟩

theorem letters_crowded : letter 32 ∉ (List.finRange 32).map fun i : Fin 32 => letter i.castSucc := by
  intro hm
  obtain ⟨i, -, he⟩ := List.mem_map.mp hm
  have hval : (i : ℕ) = 32 := congrArg Fin.val (letter_injective he)
  omega

theorem named_crowded : crowded.Named FileName := by
  apply named_ofFiles
  · intro file hf
    rcases List.mem_append.mp hf with h | h
    · obtain ⟨i, -, rfl⟩ := List.mem_map.mp h
      exact fileName_letter _
    · rw [List.mem_singleton.mp h]
      exact fileName_letter _
  · have hnames : ((((List.finRange 32).map fun i : Fin 32 => (letter i.castSucc, zeros)) ++
        [(letter 32, [0])]).map Prod.fst) =
        ((List.finRange 32).map fun i : Fin 32 => letter i.castSucc) ++ [letter 32] := by
      rw [List.map_append, List.map_map]
      rfl
    rw [hnames, List.nodup_append]
    refine ⟨?_, List.nodup_cons.mpr ⟨List.not_mem_nil, List.nodup_nil⟩, ?_⟩
    · refine List.Pairwise.map _ (fun a b hab heq => hab ?_) (List.nodup_finRange 32)
      have hval := congrArg Fin.val (letter_injective heq)
      exact Fin.ext hval
    · intro a ha b hb heq
      rw [heq, List.mem_singleton.mp hb] at ha
      exact letters_crowded ha

theorem nodes_crowded : nodes crowded =
    .dir (crowded.places 1) :: (List.replicate 32 (.file zeros) ++ [.file [0]]) := by
  have hfiles : ((List.finRange 32).map fun i : Fin 32 => Node.file zeros) =
      List.replicate 32 (.file zeros) := by
    rw [List.map_const', List.length_finRange]
  rw [nodes, crowded, collect_ofFiles, List.map_append, List.map_map]
  exact congrArg _ (congrArg (· ++ [Node.file [0]]) hfiles)

theorem sectors_zeros : sectors (.file zeros) = 2 ^ 23 := by
  have hval : (2 ^ 32 - 512) / 512 + 1 = 2 ^ 23 := by omega
  rw [sectors, Node.alloc, Node.size, length_zeros, sizeToAlloc, if_pos (by omega), hval]

theorem sectors_root : sectors (.dir (crowded.places 1)) = 2 := by
  have hsize := Spot.node_size (0, .dir crowded)
  have hnames : (crowded.names.map fun name => name.chars.length + 5).sum = 198 := by
    rw [crowded, names_ofFiles, List.map_append, List.map_map]
    decide
  rw [Spot.node, Item.size, hnames] at hsize
  rw [sectors, Node.alloc, hsize, sizeToAlloc]
  decide

theorem sum_crowded (i : ℕ) (h : i ≤ 32) :
    indexOf (nodes crowded) (1 + i) = 4 + i * 2 ^ 23 := by
  have htake : (List.replicate 32 (Node.file zeros) ++ [Node.file [0]]).take i =
      List.replicate i (.file zeros) := by
    rw [List.take_append_of_le_length (by rw [List.length_replicate]; exact h), List.take_replicate,
      min_eq_left h]
  rw [indexOf, nodes_crowded, Nat.add_comm 1 i, List.take_succ_cons, htake, List.map_cons,
    List.sum_cons, List.map_replicate, List.sum_replicate_nat, sectors_root, sectors_zeros]
  omega

theorem allocEnd_replicate (a n : ℕ) (node : Node) (rest : List Node) :
    allocEnd a (List.replicate n node ++ rest) = allocEnd (a + n * sectors node) rest := by
  induction n generalizing a with
  | zero => rw [Nat.zero_mul, Nat.add_zero, List.replicate_zero, List.nil_append]
  | succ n ih =>
    rw [List.replicate_succ, List.cons_append, allocEnd, ih, Nat.succ_mul, sectors, Nat.add_assoc,
      Nat.add_comm (node.alloc + 1)]

theorem sized_crowded : Sized (nodes crowded) := by
  have hroot := size_le_alloc (.dir (crowded.places 1))
  have halloc := sectors_root
  rw [sectors] at halloc
  refine ⟨?_, ?_⟩
  · intro node hn
    rw [nodes_crowded] at hn
    rcases List.mem_cons.mp hn with rfl | hn
    · omega
    · rcases List.mem_append.mp hn with h | h
      · rw [List.eq_of_mem_replicate h, Node.size, length_zeros]
        omega
      · rw [List.mem_singleton.mp h, Node.size, List.length_singleton]
        omega
  · have hend := allocEnd_replicate (2 + sectors (.dir (crowded.places 1))) 32 (.file zeros) [.file [0]]
    have hlast (a : ℕ) : allocEnd a [.file [0]] = a + 2 := rfl
    have hzeros := sectors_zeros
    have hroot := sectors_root
    rw [hlast] at hend
    have hstart : allocEnd 2 (nodes crowded) = allocEnd (2 + sectors (.dir (crowded.places 1)))
        (List.replicate 32 (.file zeros) ++ [.file [0]]) := by
      rw [nodes_crowded, allocEnd, sectors]
    omega

theorem spot_ofFiles {name : Str} {content : List UInt8} {files : List (Str × List UInt8)}
    (h : name ∉ files.map Prod.fst) (i : ℕ) :
    (ofFiles (files ++ [(name, content)])).spot name i = some (i + files.length, .file content) := by
  induction files generalizing i with
  | nil => simp [ofFiles, Children.spot]
  | cons file files ih =>
    rw [List.map_cons, List.mem_cons, not_or] at h
    rw [List.cons_append, ofFiles, Children.spot, if_neg h.1, ih h.2, List.length_cons]
    congr 2
    omega

theorem spot_crowded : crowded.spot (letter 32) 1 = some (33, .file [0]) := by
  rw [crowded, spot_ofFiles (by rw [List.map_map]; exact letters_crowded), List.length_map,
    List.length_finRange]

/-- The header that the name of the last file leads to is that of the first. -/
theorem resolve_crowded {s : Volume} (hw : Written (imageBytes (nodes crowded)) s.disk)
    (buffer : InodeT) : (resolve s buffer [letter 32]).size = 2 ^ 32 - 512 := by
  have hsized := sized_crowded
  have hroot : (nodes crowded)[0]? = some (.dir (crowded.places 1)) := rfl
  have hfirst : (nodes crowded)[1]? = some (.file zeros) := by
    rw [nodes_crowded]
    rfl
  have hlast : (nodes crowded)[33]? = some (.file [0]) := by
    rw [nodes_crowded]
    rfl
  have hindex0 : indexOf (nodes crowded) 0 = 2 := by simp [indexOf]
  have hindex1 : indexOf (nodes crowded) 1 = 4 := sum_crowded 0 (by omega)
  have hindex33 : indexOf (nodes crowded) 33 = 4 + 2 ^ 28 := sum_crowded 32 (by omega)
  have halloc := sectors_root
  rw [sectors] at halloc
  let root : InodeT := { buffer with toHeader := headerOf (nodes crowded) 0 (.dir (crowded.places 1)) }
  have hstart : resolve s buffer [letter 32] = inodeChild s root (letter 32) buffer := by
    have hfetch := fetch_written hw hsized hroot (by omega)
    rw [hindex0] at hfetch
    rw [resolve, root_written hw, hfetch]
    rfl
  have hfits : Fs.Fits root.toHeader := by
    refine ⟨?_, size_le_alloc (.dir (crowded.places 1)), hsized.sizes _ (List.mem_of_getElem? hroot)⟩
    change indexOf (nodes crowded) 0 + (Node.dir (crowded.places 1)).alloc < 2 ^ 28
    omega
  have hread : inodeRead s root 0 root.size = encode (records (nodes crowded) (crowded.places 1)) :=
    (inodeRead_all hfits).trans (content_written hw hroot)
  have hget : childtableGet ⟨inodeRead s root 0 root.size, root.alloc⟩ (letter 32) = 4 + 2 ^ 28 := by
    have hmem : (letter 32, 4 + 2 ^ 28) ∈ records (nodes crowded) (crowded.places 1) := by
      refine List.mem_map.mpr ⟨(letter 32, 33), (mem_places named_crowded).mpr ⟨_, spot_crowded⟩, ?_⟩
      rw [layout_getD (List.getElem?_eq_some_iff.mp hlast).1, hindex33]
    have hnodup : ((records (nodes crowded) (crowded.places 1)).map Prod.fst).Nodup := by
      rw [records, List.map_map]
      exact names_places crowded 1 ▸ named_crowded.nodup
    rw [hread, childtableGet_mem _ hnodup hmem, Nat.mod_eq_of_lt (by omega)]
  have hwrap : inodeFetch s.disk (4 + 2 ^ 28) = inodeFetch s.disk 4 := rfl
  have hheader := fetch_written hw hsized hfirst (by omega)
  rw [hindex1] at hheader
  rw [hstart, inodeChild]
  simp only [hget]
  rw [if_pos (by omega), hwrap, hheader]
  exact length_zeros

theorem allocEnd_oversized : allocEnd 2 (nodes oversized) < 2 ^ 32 := by
  have hnodes : nodes oversized = [.dir [(letter 0, 1)], .file huge] := rfl
  have hroot : sectors (.dir [(letter 0, 1)]) = 2 := rfl
  have hfile : sectors (.file huge) = 2 ^ 23 + 1 := by
    have hval : 2 ^ 32 / 512 = 2 ^ 23 := by omega
    rw [sectors, Node.alloc, Node.size, length_huge, sizeToAlloc, if_pos (by omega), hval]
  rw [allocEnd_eq, hnodes, List.map_cons, List.map_singleton, List.sum_cons, List.sum_singleton, hroot,
    hfile]
  omega

/-- The generator gives up on a size that does not fit its word, and beyond 2^28 sectors the kernel
meets another header. -/
theorem limits_build :
    (oversized.Named FileName ∧ allocEnd 2 (nodes oversized) < 2 ^ 32 ∧ ¬ Sound oversized) ∧
      crowded.Named FileName ∧ Sized (nodes crowded) ∧ ¬ Sound crowded := by
  refine ⟨⟨named_oversized, allocEnd_oversized, ?_⟩, named_crowded, sized_crowded, ?_⟩
  · rintro ⟨image, hbuild, -⟩
    have hmem : Node.file huge ∈ nodes oversized :=
      List.mem_cons_of_mem _ List.mem_cons_self
    have hnone := build_none hmem (by rw [Node.size, length_huge])
    rw [hnone] at hbuild
    cases hbuild
  · rintro ⟨image, hbuild, hagrees⟩
    rw [build_eq sized_crowded] at hbuild
    obtain rfl := Option.some.inj hbuild
    let node : InodeT := ⟨⟨0, 0, 0, 0, 0, 0⟩, 0, pathbufRoot, none⟩
    let disk : Disk := fun sec o => bytesOf (imageBytes (nodes crowded)) (512 * sec + o)
    let s : Volume := ⟨disk, 0, fun _ => node, [], 0, [], fun _ => 0, fun _ _ => 0, letter 0⟩
    have hw : Written (imageBytes (nodes crowded)) s.disk := fun _ _ _ _ => rfl
    have hlook : lookup (.dir crowded) [letter 32] = some (.file [0]) := rfl
    have hsize := (hagrees s hw).size node [letter 32] _ hlook
    have hone : (Item.file [0]).size = 1 := rfl
    rw [resolve_crowded hw, hone] at hsize
    omega

theorem sound_build_sample :
    Sound (.dir (letter 0) (.file (letter 1) [7] .none) (.file (letter 2) [] .none)) :=
  sound_build _ ⟨fileName_letter 0, by decide, ⟨fileName_letter 1, by decide, trivial⟩,
    fileName_letter 2, by decide, trivial⟩ (by decide) (by decide)

end Limits

end Eedox.Image
