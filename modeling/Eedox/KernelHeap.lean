import Eedox.Library.Bytes
import Eedox.Library.Words
import Mathlib.Data.List.Perm.Basic
import Mathlib.Logic.Function.Basic

namespace Eedox.KernelHeap

open Library.Bytes Library.Words

abbrev Mem := ℕ → UInt8

@[ext] structure HHeader where
  isHole : ℕ
  size : ℕ
  prev : ℕ

def hheaderSize : ℕ := 9

/-- The packed header at an address. -/
def header (m : Mem) (a : ℕ) : HHeader := ⟨(m a).toNat, wordAt m (a + 1), wordAt m (a + 5)⟩

def setIsHole (m : Mem) (a : ℕ) (flag : UInt8) : Mem := Function.update m a flag

def setSize (m : Mem) (a size : ℕ) : Mem := putWord m (a + 1) size

def setPrev (m : Mem) (a prev : ℕ) : Mem := putWord m (a + 5) prev

/-- `index` holds the entries of the index array, and `watcher` the records of the heap watcher. -/
structure Heap where
  mem : Mem
  index : List ℕ
  start : ℕ
  size : ℕ
  watcher : List (ℕ × ℕ)

def hheaderNext (m : Mem) (head : ℕ) : ℕ := add32 (add32 head hheaderSize) (header m head).size

def heapEnd (h : Heap) : ℕ := add32 h.start h.size

def hheaderIsvalid (h : Heap) (head : ℕ) : Bool := head < heapEnd h

def compareHeaders (m : Mem) (a b : ℕ) : ℤ :=
  if (header m a).size = (header m b).size then 0
  else if (header m a).size > (header m b).size then 1
  else -1

/-- The entries behind the place of the new one move up. -/
def ordlistInsert (m : Mem) (array : List ℕ) (elem : ℕ) : List ℕ :=
  (array.reverse.dropWhile fun e => compareHeaders m e elem = 1).reverse ++
    elem :: (array.reverse.takeWhile fun e => compareHeaders m e elem = 1).reverse

/-- The index of an absent entry is -1, and no entry moves down. -/
def ordlistRemove (array : List ℕ) : Option ℕ → List ℕ
  | some idx => array.eraseIdx idx
  | none => array.dropLast

def heapHoleIndex (h : Heap) (head : ℕ) : Option ℕ := h.index.findIdx? fun e => e = head

inductive Check
  | passed
  | corrupted (label : ℕ)
  | running
  deriving DecidableEq

/-- The loop of `heap_check`. -/
def checkFrom (h : Heap) : ℕ → ℕ → Check
  | 0, _ => .running
  | fuel + 1, cur =>
    let c := header h.mem cur
    let p := header h.mem c.prev
    let next := hheaderNext h.mem cur
    let n := header h.mem next
    if c.isHole > 1 ∨ c.prev > cur then .corrupted 1
    else if c.prev ≥ h.start ∧ add32 (add32 c.prev hheaderSize) p.size ≠ cur then .corrupted 2
    else if c.prev ≥ h.start ∧ p.isHole ≠ 0 ∧ c.isHole ≠ 0 then .corrupted 3
    else if next ≥ heapEnd h then .passed
    else if n.prev ≠ cur then .corrupted 4
    else if c.isHole ≠ 0 ∧ n.isHole ≠ 0 then .corrupted 5
    else checkFrom h fuel next

/-- A heap has room for fewer blocks than it has bytes. -/
def heapCheck (h : Heap) : Check := checkFrom h (h.size + 1) h.start

def overlaps (ptr size : ℕ) (rec : ℕ × ℕ) : Bool :=
  let last := sub32 (add32 ptr size) 1
  let recLast := sub32 (add32 rec.1 rec.2) 1
  (ptr ≥ rec.1 && ptr ≤ recLast) || (last ≥ rec.1 && last ≤ recLast)

/-- The record goes to the last one that is free. -/
def reuseRecord (rec : ℕ × ℕ) : List (ℕ × ℕ) → Option (List (ℕ × ℕ))
  | [] => none
  | r :: recs =>
    match reuseRecord rec recs with
    | some recs => some (r :: recs)
    | none => if r.1 = 0 then some (rec :: recs) else none

def heapwatchAlloc (watcher : List (ℕ × ℕ)) (ptr size : ℕ) : Option (List (ℕ × ℕ)) :=
  if size = 0 ∨ ptr = 0 then some watcher
  else if watcher.any fun rec => rec.1 ≠ 0 && overlaps ptr size rec then none
  else
    match reuseRecord (ptr, size) watcher with
    | some recs => some recs
    | none => if watcher.length = 1024 then none else some (watcher ++ [(ptr, size)])

def clearRecord (ptr : ℕ) : List (ℕ × ℕ) → Option (List (ℕ × ℕ))
  | [] => none
  | r :: recs => if r.1 = ptr then some ((0, 0) :: recs) else (clearRecord ptr recs).map (r :: ·)

def heapwatchFree (watcher : List (ℕ × ℕ)) (ptr : ℕ) : Option (List (ℕ × ℕ)) :=
  if ptr = 0 then some watcher else clearRecord ptr watcher

def heapInit (m : Mem) (start size indexSize : ℕ) : Heap :=
  let start := add32 start indexSize
  let start := if start % 1000 ≠ 0 then add32 (start / 0x1000 * 0x1000) 0x1000 else start
  { mem := setPrev (setSize (setIsHole m start 1) start size) start 0
    index := [start]
    start := start
    size := size
    watcher := [] }

def alignmentO (x offset : ℕ) : ℕ :=
  if x % 0x1000 > offset then add32 (x / 0x1000 * 0x1000) (0x1000 + offset)
  else add32 (x / 0x1000 * 0x1000) offset

def heapLowSplit (h : Heap) (hole size : ℕ) : Heap :=
  let newhole := sub32 hole size
  let m := setSize h.mem newhole (sub32 size hheaderSize)
  let m := setSize m hole (sub32 (header m hole).size size)
  let m := setPrev m newhole (header m hole).prev
  let m := setPrev m hole newhole
  { h with
    index := ordlistInsert m h.index newhole
    mem := setIsHole m newhole 1 }

def heapHighSplit (h : Heap) (hole size : ℕ) : Heap :=
  let next := hheaderNext h.mem hole
  let newhole := sub32 next size
  let m := setSize h.mem newhole (sub32 size hheaderSize)
  let m := setSize m hole (sub32 (header m hole).size size)
  let m := setPrev m newhole hole
  let m := if hheaderIsvalid h next then setPrev m next newhole else m
  { h with
    index := ordlistInsert m h.index newhole
    mem := setIsHole m newhole 1 }

def heapMerge (h : Heap) (hole : ℕ) : Heap :=
  let next := hheaderNext h.mem hole
  if hheaderIsvalid h next ∧ (header h.mem next).isHole ≠ 0 then
    let nextNext := hheaderNext h.mem next
    let m := if hheaderIsvalid h nextNext then setPrev h.mem nextNext hole else h.mem
    { h with
      index := ordlistRemove h.index (heapHoleIndex h next)
      mem := setSize m hole (add32 (header m hole).size (add32 (header m next).size hheaderSize)) }
  else h

/-- Whether a hole is large enough, from the first payload address that ends a page if `align`. -/
def fits (m : Mem) (size : ℕ) (align : Bool) (hole : ℕ) : Bool :=
  if align then
    let extrasize := sub32 (alignmentO hole (0x1000 - hheaderSize)) hole
    (header m hole).size > extrasize && sub32 (header m hole).size extrasize ≥ size
  else (header m hole).size ≥ size

/-- The header is moved up to where the payload starts a page. -/
def alignHole (h : Heap) (best : ℕ) : Heap × ℕ :=
  let newaddr := alignmentO best (0x1000 - hheaderSize)
  let extrasize := sub32 newaddr best
  let b := header h.mem best
  let m := setPrev (setSize (setIsHole h.mem newaddr (UInt8.ofNat b.isHole)) newaddr b.size) newaddr b.prev
  let h := { h with mem := m }
  if extrasize > hheaderSize then (heapLowSplit h newaddr extrasize, newaddr)
  else if b.prev ≠ 0 then
    ({ h with mem := setSize m b.prev (add32 (header m b.prev).size extrasize) }, newaddr)
  else ({ h with mem := setPrev m newaddr 1 }, newaddr)

/-- `none` is a panic. -/
def heapAlloc (h : Heap) (size : ℕ) (align : Bool) : Option (Heap × ℕ) :=
  if heapCheck h ≠ .passed then none
  else if size = 0 then some (h, 0)
  else
    match h.index.findIdx? (fits h.mem size align) with
    | none => some (h, 0)
    | some bestIndex =>
      let best := h.index.getD bestIndex 0
      let h := { h with
        mem := setIsHole h.mem best 0
        index := ordlistRemove h.index (some bestIndex) }
      let r := if align then alignHole h best else (h, best)
      let h := r.1
      let best := r.2
      let rest := sub32 (header h.mem best).size size
      let h := if rest > hheaderSize then heapHighSplit h best rest else h
      let ptr := add32 best hheaderSize
      (heapwatchAlloc h.watcher ptr size).bind fun watcher =>
        let h := { h with watcher := watcher }
        if heapCheck h = .passed then some (h, ptr) else none

def heapFree (h : Heap) (ptr : ℕ) : Option Heap :=
  if heapCheck h ≠ .passed then none
  else
    (heapwatchFree h.watcher ptr).bind fun watcher =>
      if ptr = 0 then some { h with watcher := watcher }
      else
        let block := sub32 ptr hheaderSize
        let m := setIsHole h.mem block 1
        let h := { h with watcher := watcher, mem := m, index := ordlistInsert m h.index block }
        let h := heapMerge h block
        let prev := (header h.mem block).prev
        let h :=
          if prev ≠ 0 ∧ (header h.mem prev).isHole ≠ 0 then
            if prev = 1 then
              let b := header h.mem block
              let m := setPrev (setSize (setIsHole h.mem h.start (UInt8.ofNat b.isHole)) h.start b.size)
                h.start b.prev
              { h with mem := setSize m h.start (add32 (header m h.start).size (sub32 block h.start)) }
            else heapMerge h prev
          else h
        if heapCheck h = .passed then some h else none

theorem setIsHole_other {m : Mem} {a x : ℕ} (flag : UInt8) (h : x ≠ a) : setIsHole m a flag x = m x :=
  Function.update_of_ne h _ _

theorem setSize_other {m : Mem} {a x : ℕ} (size : ℕ) (h : x < a + 1 ∨ a + 5 ≤ x) :
    setSize m a size x = m x := putWord_of_disjoint (by omega)

theorem setPrev_other {m : Mem} {a x : ℕ} (prev : ℕ) (h : x < a + 5 ∨ a + 9 ≤ x) :
    setPrev m a prev x = m x := putWord_of_disjoint (by omega)

theorem header_congr {m m' : Mem} {a : ℕ} (h : ∀ x, a ≤ x → x < a + 9 → m' x = m x) :
    header m' a = header m a := by
  have h1 : wordAt m' (a + 1) = wordAt m (a + 1) := wordAt_congr fun x _ _ => h x (by omega) (by omega)
  have h2 : wordAt m' (a + 5) = wordAt m (a + 5) := wordAt_congr fun x _ _ => h x (by omega) (by omega)
  rw [header, header, h a le_rfl (by omega), h1, h2]

@[simp] theorem header_setIsHole (m : Mem) (a : ℕ) (flag : UInt8) :
    header (setIsHole m a flag) a = { header m a with isHole := flag.toNat } := by
  have h1 : wordAt (setIsHole m a flag) (a + 1) = wordAt m (a + 1) :=
    wordAt_congr fun x _ _ => setIsHole_other flag (by omega)
  have h2 : wordAt (setIsHole m a flag) (a + 5) = wordAt m (a + 5) :=
    wordAt_congr fun x _ _ => setIsHole_other flag (by omega)
  rw [header, header, h1, h2, setIsHole, Function.update_self]

@[simp] theorem header_setSize (m : Mem) (a size : ℕ) :
    header (setSize m a size) a = { header m a with size := size % 2 ^ 32 } := by
  have h2 : wordAt (setSize m a size) (a + 5) = wordAt m (a + 5) :=
    wordAt_congr fun x _ _ => setSize_other size (by omega)
  rw [header, header, setSize_other size (by omega), h2, setSize, wordAt_putWord]

@[simp] theorem header_setPrev (m : Mem) (a prev : ℕ) :
    header (setPrev m a prev) a = { header m a with prev := prev % 2 ^ 32 } := by
  have h1 : wordAt (setPrev m a prev) (a + 1) = wordAt m (a + 1) :=
    wordAt_congr fun x _ _ => setPrev_other prev (by omega)
  rw [header, header, setPrev_other prev (by omega), h1, setPrev, wordAt_putWord]

theorem header_setIsHole_other {m : Mem} {a b : ℕ} (flag : UInt8) (h : b + 9 ≤ a ∨ a + 9 ≤ b) :
    header (setIsHole m a flag) b = header m b :=
  header_congr fun _ _ _ => setIsHole_other flag (by omega)

theorem header_setSize_other {m : Mem} {a b : ℕ} (size : ℕ) (h : b + 9 ≤ a ∨ a + 9 ≤ b) :
    header (setSize m a size) b = header m b :=
  header_congr fun _ _ _ => setSize_other size (by omega)

theorem header_setPrev_other {m : Mem} {a b : ℕ} (prev : ℕ) (h : b + 9 ≤ a ∨ a + 9 ≤ b) :
    header (setPrev m a prev) b = header m b :=
  header_congr fun _ _ _ => setPrev_other prev (by omega)

theorem ordlistInsert_perm (m : Mem) (array : List ℕ) (elem : ℕ) :
    (ordlistInsert m array elem).Perm (elem :: array) := by
  unfold ordlistInsert
  refine List.perm_middle.trans (List.Perm.cons elem ?_)
  refine ((List.reverse_perm _).append (List.reverse_perm _)).trans (List.perm_append_comm.trans ?_)
  rw [List.takeWhile_append_dropWhile]
  exact List.reverse_perm array

theorem ordlistRemove_perm {h : Heap} {head : ℕ} (hm : head ∈ h.index) :
    h.index.Perm (head :: ordlistRemove h.index (heapHoleIndex h head)) := by
  unfold heapHoleIndex
  generalize h.index = array at hm
  rcases hi : array.findIdx? fun e => e = head with _ | i
  · have hnone := List.findIdx?_eq_none_iff.mp hi head hm
    simp at hnone
  · obtain ⟨hlt, hhead, -⟩ := List.findIdx?_eq_some_iff_getElem.mp hi
    have he : array[i] = head := by simpa using hhead
    rw [← he]
    exact (List.getElem_cons_eraseIdx_perm hlt).symm

end Eedox.KernelHeap
