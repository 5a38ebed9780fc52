import Eedox.Image.Placement

namespace Eedox.Image

open Util Library.Bytes Fs.Childtable

def sectors (node : Node) : ℕ := node.alloc + 1

/-- The index of the node at place `i`. -/
def indexOf (list : List Node) (i : ℕ) : ℕ := 2 + ((list.take i).map sectors).sum

def records (list : List Node) (children : List (Str × ℕ)) : List (Str × ℕ) :=
  children.map fun c => (c.1, (layout 2 list).getD c.2 0)

def nodeBytes (list : List Node) : Node → List UInt8
  | .file content => content
  | .dir children => encode (records list children)

def headerBytes (index : ℕ) (node : Node) : List UInt8 :=
  [1, index, node.size, node.alloc, node.childCount, node.kind].flatMap wordBytes ++
    List.replicate (512 - 24) 0

def nodeBlock (list : List Node) (node : Node × ℕ) : List UInt8 :=
  headerBytes node.2 node.1 ++ pad (nodeBytes list node.1)

theorem length_pad (buf : List UInt8) : (pad buf).length = 512 * sizeToAlloc buf.length := by
  rw [pad, List.length_append, List.length_replicate, sizeToAlloc]
  split <;> omega

theorem size_le_alloc (node : Node) : node.size ≤ 512 * node.alloc := by
  rw [Node.alloc, sizeToAlloc]
  split <;> omega

theorem alloc_le_size (node : Node) : node.alloc ≤ node.size := by
  rw [Node.alloc, sizeToAlloc]
  split <;> omega

theorem length_encode (rs : List (Str × ℕ)) :
    (encode rs).length = (rs.map fun c => c.1.chars.length + 5).sum := by
  induction rs with
  | nil => rfl
  | cons r rs ih => simp [ih]

theorem length_nodeBytes (list : List Node) (node : Node) : (nodeBytes list node).length = node.size := by
  cases node with
  | file content => rfl
  | dir children =>
    rw [nodeBytes, length_encode, records, List.map_map]
    rfl

theorem length_headerBytes (index : ℕ) (node : Node) : (headerBytes index node).length = 512 := by
  rw [headerBytes, List.length_append, List.length_replicate]
  rfl

theorem length_nodeBlock (list : List Node) (node : Node × ℕ) :
    (nodeBlock list node).length = 512 * sectors node.1 := by
  rw [nodeBlock, List.length_append, length_headerBytes, length_pad, length_nodeBytes, sectors,
    Node.alloc]
  omega

theorem childCount_le_size (node : Node) : node.childCount ≤ node.size := by
  cases node with
  | file content => exact Nat.zero_le _
  | dir children =>
    rw [Node.childCount, Node.size]
    induction children with
    | nil => exact le_rfl
    | cons c children ih =>
      rw [List.length_cons, List.map_cons, List.sum_cons]
      omega

theorem length_layout (a : ℕ) (list : List Node) : (layout a list).length = list.length := by
  induction list generalizing a with
  | nil => rfl
  | cons node list ih => rw [layout, List.length_cons, ih, List.length_cons]

theorem allocEnd_eq (a : ℕ) (list : List Node) : allocEnd a list = a + (list.map sectors).sum := by
  induction list generalizing a with
  | nil => rfl
  | cons node list ih =>
    rw [allocEnd, ih, List.map_cons, List.sum_cons, sectors]
    omega

theorem layout_get {a i : ℕ} {list : List Node} (h : i < list.length) :
    (layout a list)[i]? = some (a + ((list.take i).map sectors).sum) := by
  induction list generalizing a i with
  | nil => exact absurd h (Nat.not_lt_zero _)
  | cons node list ih =>
    cases i with
    | zero => rfl
    | succ i =>
      rw [layout, List.getElem?_cons_succ, ih (by simpa using h), List.take_succ_cons, List.map_cons,
        List.sum_cons, sectors]
      congr 1
      omega

theorem layout_getD {i : ℕ} {list : List Node} (h : i < list.length) :
    (layout 2 list).getD i 0 = indexOf list i := by
  rw [List.getD_eq_getElem?_getD, layout_get h]
  rfl

theorem sum_take_succ {list : List Node} {i : ℕ} {node : Node} (h : list[i]? = some node) :
    ((list.take (i + 1)).map sectors).sum = ((list.take i).map sectors).sum + sectors node := by
  rw [List.take_add_one, h]
  simp

theorem sum_take_mono (list : List Node) {i j : ℕ} (h : i ≤ j) :
    ((list.take i).map sectors).sum ≤ ((list.take j).map sectors).sum := by
  induction list generalizing i j with
  | nil => simp
  | cons node list ih =>
    cases i with
    | zero => simp
    | succ i =>
      obtain ⟨j, rfl⟩ : ∃ k, j = k + 1 := ⟨j - 1, by omega⟩
      simp only [List.take_succ_cons, List.map_cons, List.sum_cons]
      have := ih (by omega : i ≤ j)
      omega

theorem sum_take_le (list : List Node) (i : ℕ) :
    ((list.take i).map sectors).sum ≤ (list.map sectors).sum := by
  have h := sum_take_mono list (Nat.le_max_left i list.length)
  rwa [List.take_of_length_le (Nat.le_max_right i list.length)] at h

/-- The extents follow one another in the order of the list. -/
theorem indexOf_lt {list : List Node} {i j : ℕ} {node : Node} (hi : list[i]? = some node) (h : i < j) :
    indexOf list i + node.alloc < indexOf list j := by
  have h1 := sum_take_succ hi
  have h2 := sum_take_mono list (by omega : i + 1 ≤ j)
  rw [sectors] at h1
  rw [indexOf, indexOf]
  omega

theorem indexOf_end {list : List Node} {i : ℕ} {node : Node} (hi : list[i]? = some node) :
    indexOf list i + node.alloc < allocEnd 2 list := by
  have h1 := sum_take_succ hi
  have h2 := sum_take_le list (i + 1)
  rw [sectors] at h1
  rw [indexOf, allocEnd_eq]
  omega

/-- The extent of the last node ends where the allocation pointer points. -/
theorem indexOf_last {list : List Node} {i : ℕ} {node : Node} (hi : list[i]? = some node)
    (hlast : i + 1 = list.length) : indexOf list i + node.alloc + 1 = allocEnd 2 list := by
  have h1 := sum_take_succ hi
  rw [hlast, List.take_length, sectors] at h1
  rw [indexOf, allocEnd_eq]
  omega

/-- Where blocks follow one another, the block of a node starts at its index. -/
theorem flatMap_region {f : Node × ℕ → List UInt8} (hf : ∀ n, (f n).length = 512 * sectors n.1)
    {a i : ℕ} {list : List Node} {node : Node} (hi : list[i]? = some node) :
    ∃ pre post, (list.zip (layout a list)).flatMap f =
        pre ++ (f (node, a + ((list.take i).map sectors).sum) ++ post) ∧
      pre.length = 512 * ((list.take i).map sectors).sum := by
  induction list generalizing a i with
  | nil => simp at hi
  | cons n list ih =>
    cases i with
    | zero =>
      obtain rfl : n = node := by simpa using hi
      exact ⟨[], (list.zip (layout (a + sectors n) list)).flatMap f, rfl, rfl⟩
    | succ i =>
      obtain ⟨pre, post, he, hl⟩ := @ih (a + sectors n) i (by simpa using hi)
      refine ⟨f (n, a) ++ pre, post, ?_, ?_⟩
      · have hlay : layout a (n :: list) = a :: layout (a + sectors n) list := rfl
        rw [hlay, List.zip_cons_cons, List.flatMap_cons, he, List.take_succ_cons, List.map_cons,
          List.sum_cons, List.append_assoc, Nat.add_assoc]
      · rw [List.length_append, hf, hl, List.take_succ_cons, List.map_cons, List.sum_cons, Nat.mul_add]

def pointerBytes (value : ℕ) : List UInt8 := wordBytes value ++ List.replicate (512 - 4) 0

/-- The bytes that the generator writes when every number fits. -/
def imageBytes (list : List Node) : List UInt8 :=
  pointerBytes (allocEnd 2 list) ++ (pointerBytes 2 ++
    (list.zip (layout 2 list)).flatMap (nodeBlock list))

/-- The index of the root follows the sector of the allocation pointer. -/
theorem image_root (list : List Node) : imageBytes list = pointerBytes (allocEnd 2 list) ++
    (wordBytes 2 ++ (List.replicate (512 - 4) 0 ++ (list.zip (layout 2 list)).flatMap (nodeBlock list))) := by
  rw [imageBytes, pointerBytes, pointerBytes, List.append_assoc (wordBytes 2)]

theorem length_pointerBytes (value : ℕ) : (pointerBytes value).length = 512 := by
  rw [pointerBytes, List.length_append, List.length_replicate, length_wordBytes]

theorem image_region {list : List Node} {i : ℕ} {node : Node} (hi : list[i]? = some node) :
    ∃ pre post, imageBytes list = pre ++ (nodeBlock list (node, indexOf list i) ++ post) ∧
      pre.length = 512 * indexOf list i := by
  obtain ⟨pre, post, he, hl⟩ := @flatMap_region _ (length_nodeBlock list) 2 _ _ _ hi
  refine ⟨pointerBytes (allocEnd 2 list) ++ (pointerBytes 2 ++ pre), post, ?_, ?_⟩
  · rw [imageBytes, he, indexOf]
    simp only [List.append_assoc]
  · rw [List.length_append, List.length_append, length_pointerBytes, length_pointerBytes, hl, indexOf]
    omega

/-- The sizes and sector numbers that fit into their words. -/
structure Sized (list : List Node) : Prop where
  sizes : ∀ node ∈ list, node.size < 2 ^ 32
  sectors : allocEnd 2 list < 2 ^ 32

theorem writeUInt32LE_of_lt {value : ℕ} (h : value < 2 ^ 32) :
    writeUInt32LE value = some (wordBytes value) := if_pos h

theorem layout_lt (list : List Node) (i : ℕ) : (layout 2 list).getD i 0 < allocEnd 2 list := by
  by_cases hi : i < list.length
  · rw [layout_getD hi]
    have := indexOf_end (List.getElem?_eq_getElem hi)
    omega
  · rw [List.getD_eq_getElem?_getD, List.getElem?_eq_none (by rw [length_layout]; omega), allocEnd_eq,
      Option.getD_none]
    omega

theorem mapM_some {α β : Type} {f : α → Option β} {g : α → β} {l : List α}
    (h : ∀ a ∈ l, f a = some (g a)) : l.mapM f = some (l.map g) := by
  induction l with
  | nil => rfl
  | cons a l ih =>
    rw [List.mapM_cons, h a List.mem_cons_self, ih fun b hb => h b (List.mem_cons_of_mem _ hb)]
    rfl

theorem content_eq {list : List Node} (h : Sized list) (node : Node) :
    content (layout 2 list) node = some (pad (nodeBytes list node)) := by
  cases node with
  | file content => rfl
  | dir children =>
    have hentries : children.mapM (entry (layout 2 list)) =
        some ((records list children).map record) := by
      rw [records, List.map_map]
      apply mapM_some
      intro c _
      rw [entry, writeUInt32LE_of_lt ((layout_lt list c.2).trans h.sectors)]
      rfl
    rw [content, hentries]
    simp only [Option.map_some, nodeBytes, encode, List.flatMap_def]

theorem header_eq {index : ℕ} {node : Node} (hindex : index < 2 ^ 32) (hsize : node.size < 2 ^ 32) :
    header index node = some (headerBytes index node) := by
  have halloc := alloc_le_size node
  have hcount := childCount_le_size node
  have hkind : node.kind < 2 ^ 32 := by cases node <;> simp [Node.kind]
  rw [header, mapM_some (g := wordBytes)]
  · rw [Option.map_some, headerBytes, List.flatMap_def]
  · intro v hv
    apply writeUInt32LE_of_lt
    simp only [List.mem_cons, List.not_mem_nil, or_false] at hv
    omega

theorem pointerBlock_eq {value : ℕ} (h : value < 2 ^ 32) :
    pointerBlock value = some (pointerBytes value) := by
  rw [pointerBlock, writeUInt32LE_of_lt h]
  rfl

theorem layout_pairwise (a : ℕ) (list : List Node) : (layout a list).Pairwise (· < ·) := by
  induction list generalizing a with
  | nil => exact List.Pairwise.nil
  | cons node list ih =>
    refine List.Pairwise.cons ?_ (ih _)
    intro b hb
    obtain ⟨i, hi, rfl⟩ := List.getElem_of_mem hb
    rw [length_layout] at hi
    have hget := @layout_get (a + (node.alloc + 1)) _ _ hi
    rw [List.getElem?_eq_getElem (by rwa [length_layout])] at hget
    have := Option.some.inj hget
    omega

/-- When every number fits its word, the image holds the blocks in the order of the list. -/
theorem build_eq {tree : Children} (h : Sized (nodes tree)) :
    build tree = some (imageBytes (nodes tree)) := by
  let bytes (node : Node × ℕ) : Block :=
    ⟨node.2, headerBytes node.2 node.1, pad (nodeBytes (nodes tree) node.1)⟩
  have hblocks : ((nodes tree).zip (layout 2 (nodes tree))).mapM (block (layout 2 (nodes tree))) =
      some (((nodes tree).zip (layout 2 (nodes tree))).map bytes) := by
    apply mapM_some
    intro node hnode
    have hsize := h.sizes node.1 (List.of_mem_zip hnode).1
    have hindex : node.2 < 2 ^ 32 := by
      obtain ⟨i, hi, he⟩ := List.getElem_of_mem (List.of_mem_zip hnode).2
      have := (layout_lt (nodes tree) i).trans h.sectors
      rwa [List.getD_eq_getElem?_getD, List.getElem?_eq_getElem hi, Option.getD_some, he] at this
    rw [block, content_eq h, header_eq hindex hsize]
    rfl
  have hsorted : (((nodes tree).zip (layout 2 (nodes tree))).map bytes).mergeSort
      (fun n1 n2 => n1.index ≤ n2.index) = ((nodes tree).zip (layout 2 (nodes tree))).map bytes := by
    apply List.mergeSort_of_pairwise
    have hp : ((((nodes tree).zip (layout 2 (nodes tree))).map bytes).map Block.index).Pairwise
        (· < ·) := by
      rw [List.map_map]
      have he : (Block.index ∘ bytes) = Prod.snd := rfl
      rw [he, List.map_snd_zip (length_layout 2 _).le]
      exact layout_pairwise 2 _
    exact (List.pairwise_map.mp hp).imp fun hlt => decide_eq_true hlt.le
  have hroot : (layout 2 (nodes tree)).getD 0 0 = 2 := rfl
  simp only [build]
  rw [hblocks, Option.bind_some, pointerBlock_eq h.sectors, Option.bind_some, hroot,
    pointerBlock_eq (by omega), Option.map_some, hsorted, List.append_assoc, List.flatMap_map]
  rfl

end Eedox.Image
