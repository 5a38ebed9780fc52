import Eedox.Library.Bytes
import Eedox.Library.Words
import Mathlib.Logic.Function.Basic

namespace Eedox.UserHeap

open Library.Bytes Library.Words

abbrev Mem := ℕ → UInt8

@[ext] structure ObjectHeader where
  size : ℕ
  used : ℕ
  nextFree : ℕ
  prevFree : ℕ

def wordSize : ℕ := 4

def headerSize : ℕ := 16

/-- The record at an address; three bytes behind the flag are padding. -/
def header (m : Mem) (a : ℕ) : ObjectHeader :=
  ⟨wordAt m a, (m (a + 4)).toNat, wordAt m (a + 8), wordAt m (a + 12)⟩

def objectHeaderSetSize (m : Mem) (a size : ℕ) : Mem := putWord m a size

def objectHeaderSetUsed (m : Mem) (a : ℕ) (flag : UInt8) : Mem := Function.update m (a + 4) flag

def setNextFree (m : Mem) (a next : ℕ) : Mem := putWord m (a + 8) next

def setPrevFree (m : Mem) (a prev : ℕ) : Mem := putWord m (a + 12) prev

structure Heap where
  mem : Mem
  root : ℕ
  size : ℕ
  brk : ℕ
  free : ℕ

def heapNew (m : Mem) (pointer size : ℕ) : Heap := ⟨m, pointer, size, 0, 0⟩

def heapExpand (h : Heap) (size : ℕ) : Heap := { h with size := add32 h.size size }

/-- The remainder is kept in a byte. -/
def alignment (size align : ℕ) : ℕ :=
  if align = 0 then size
  else
    let mod := size % align % 2 ^ 8
    let c := sub32 size mod
    if mod ≠ 0 then add32 c align else c

def heapUntouchedMemory (h : Heap) : ℕ := sub32 h.size h.brk

def objectHeaderNext (m : Mem) (a : ℕ) : ℕ :=
  add32 a ((header m a).size / wordSize * wordSize + headerSize)

def heapEnd (h : Heap) : ℕ := add32 h.root (h.brk / wordSize * wordSize)

def objectHeaderIsNull (h : Heap) (a : ℕ) : Bool := a ≥ heapEnd h

def heapIsEnd (h : Heap) (a : ℕ) : Bool := objectHeaderNext h.mem a = heapEnd h

def objectHeaderGetPointer (a : ℕ) : ℕ := add32 a headerSize

def objectHeaderFromPointer (pointer : ℕ) : ℕ := sub32 pointer headerSize

/-- `*a = object_header_new(size)` -/
def putHeaderNew (m : Mem) (a size : ℕ) : Mem :=
  setPrevFree (setNextFree (objectHeaderSetUsed (objectHeaderSetSize m a size) a 1) a 0) a 0

def heapAddFree (h : Heap) (a : ℕ) : Heap :=
  let m := setPrevFree (setNextFree h.mem a h.free) a 0
  let m := if h.free ≠ 0 then setPrevFree m h.free a else m
  { h with mem := m, free := a }

def heapRemoveFree (h : Heap) (a : ℕ) : Heap :=
  let next := (header h.mem a).nextFree
  let prev := (header h.mem a).prevFree
  let m := if next ≠ 0 then setPrevFree h.mem next prev else h.mem
  let m := if prev ≠ 0 then setNextFree m prev next else m
  { h with mem := setNextFree (setPrevFree m a 0) a 0, free := if h.free = a then next else h.free }

def objectHeaderMerge (m : Mem) (a : ℕ) : Mem :=
  let next := objectHeaderNext m a
  objectHeaderSetSize m a (add32 (add32 (header m a).size (header m next).size) headerSize)

def objectHeaderTrySplit (h : Heap) (a size : ℕ) : Heap :=
  let currentSize := (header h.mem a).size
  if heapIsEnd h a then
    if size < currentSize then
      { h with brk := sub32 h.brk (sub32 currentSize size), mem := objectHeaderSetSize h.mem a size }
    else h
  else if add32 size headerSize < currentSize then
    let m := objectHeaderSetSize h.mem a size
    let next := objectHeaderNext m a
    let m := putHeaderNew m next (sub32 (sub32 currentSize size) headerSize)
    heapAddFree { h with mem := objectHeaderSetUsed m next 0 } next
  else h

/-- How one turn of the search ends: with a block, or with the block to look at next and the best one so far. -/
inductive Turn
  | found (h : Heap) (block : ℕ)
  | search (h : Heap) (block best : ℕ)

/-- The body of the loop of `heap_find_best_fit`. -/
def bestFitTurn (h : Heap) (size block best : ℕ) : Turn :=
  let blockSize := (header h.mem block).size
  let nextFree := (header h.mem block).nextFree
  if blockSize ≥ size then
    if blockSize = size then .found h block
    else .search h nextFree (if best = 0 ∨ blockSize < (header h.mem best).size then block else best)
  else if heapIsEnd h block then
    let neededSize := sub32 size blockSize
    if heapUntouchedMemory h ≥ neededSize then
      .found { h with brk := add32 h.brk neededSize, mem := objectHeaderSetSize h.mem block size } block
    else .search h nextFree best
  else
    let next := objectHeaderNext h.mem block
    if ¬objectHeaderIsNull h next ∧ (header h.mem next).used = 0 then
      .search (heapRemoveFree { h with mem := objectHeaderMerge h.mem block } next) block best
    else .search h nextFree best

/-- `none` is a search that goes on after that many turns. -/
def bestFitFrom : ℕ → Heap → ℕ → ℕ → ℕ → Option (Heap × ℕ)
  | 0, _, _, _, _ => none
  | fuel + 1, h, size, block, best =>
    if block = 0 then some (h, best)
    else
      match bestFitTurn h size block best with
      | .found h block => some (h, block)
      | .search h block best => bestFitFrom fuel h size block best

/-- Each turn leaves a free block behind it or takes one away, and a block has a header below the break. -/
def heapFindBestFit (h : Heap) (size : ℕ) : Option (Heap × ℕ) :=
  bestFitFrom (h.brk + 1) h size h.free 0

def heapAlloc (h : Heap) (size align : ℕ) : Option (Heap × ℕ) :=
  if size = 0 then some (h, 0)
  else
    let size := alignment size align
    (heapFindBestFit h size).bind fun (h, block) =>
      if block ≠ 0 then
        let h := objectHeaderTrySplit h block size
        let h := { h with mem := objectHeaderSetUsed h.mem block 1 }
        some (heapRemoveFree h block, objectHeaderGetPointer block)
      else if add32 size headerSize > heapUntouchedMemory h then some (h, 0)
      else
        let end_ := heapEnd h
        some ({ h with
          mem := putHeaderNew h.mem end_ size
          brk := add32 h.brk (add32 headerSize size) }, objectHeaderGetPointer end_)

def heapDealloc (h : Heap) (pointer : ℕ) : Heap :=
  let header := objectHeaderFromPointer pointer
  heapAddFree { h with mem := objectHeaderSetUsed h.mem header 0 } header

/-- `memcpy(dest, src, n)` where the two may overlap. -/
def memcpy (m : Mem) (dest src n : ℕ) : Mem := blit m dest (fun i => m (src + i)) n

/-- The loop of `heap_realloc`, and whether it leaves with room for `size`. -/
def absorbFrom : ℕ → Mem → ℕ → ℕ → Option (Mem × Bool)
  | 0, _, _, _ => none
  | fuel + 1, m, a, size =>
    if (header m a).size ≥ size then some (m, true)
    else if (header m (objectHeaderNext m a)).used = 0 then absorbFrom fuel (objectHeaderMerge m a) a size
    else some (m, false)

/-- `none` is a call that goes on after that many turns or calls of itself. -/
def heapRealloc : ℕ → Heap → ℕ → ℕ → ℕ → Option (Heap × ℕ)
  | 0, _, _, _, _ => none
  | fuel + 1, h, pointer, size, align =>
    if size = 0 then some (heapDealloc h pointer, 0)
    else
      let size := alignment size align
      let a := objectHeaderFromPointer pointer
      let currentSize := (header h.mem a).size
      if size = currentSize then some (h, pointer)
      else if size < currentSize then some (objectHeaderTrySplit h a size, pointer)
      else
        (absorbFrom fuel h.mem a size).bind fun (m, fits) =>
          if fits then heapRealloc fuel { h with mem := m } pointer size align
          else
            (heapAlloc { h with mem := m } size align).bind fun (h, newBlock) =>
              if newBlock = 0 then some (h, 0)
              else some (heapDealloc { h with mem := memcpy h.mem pointer newBlock currentSize } pointer, newBlock)

end Eedox.UserHeap
