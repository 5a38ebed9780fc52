import Eedox.Ata
import Eedox.Pathbuf
import Eedox.Fs.Childtable

namespace Eedox.Fs

open Util Library.Bytes Ata Pathbuf Childtable

/-- The words of `inode_t` that are kept on the disk. -/
@[ext] structure Header where
  isvalid : ℕ
  index : ℕ
  size : ℕ
  alloc : ℕ
  childCount : ℕ
  type : ℕ

structure InodeT extends Header where
  refs : ℕ
  pathbuf : PathbufT
  parent : Option ℕ

def inodeTypeFile : ℕ := 0

def inodeTypeDir : ℕ := 1

/-- The disk, the inodes in kernel memory and the allocation pointer. Inodes that `kmalloc` has not
given out yet hold whatever their memory holds, `junk` is what other uninitialised memory holds, `tail`
is the part of an inode's sector image that lies after the header, and `stray` is the string found
through a pointer that was not set. -/
structure Volume where
  disk : Disk
  ballocPtr : ℕ
  inodes : ℕ → InodeT
  inodelist : List ℕ
  nextInode : ℕ
  freed : List ℕ
  junk : ℕ → UInt8
  tail : InodeT → ℕ → UInt8
  stray : Str

def setInode (s : Volume) (node : ℕ) (f : InodeT → InodeT) : Volume :=
  { s with inodes := Function.update s.inodes node (f (s.inodes node)) }

@[simp] theorem setInode_self (s : Volume) (node : ℕ) (f : InodeT → InodeT) :
    (setInode s node f).inodes node = f (s.inodes node) := by
  simp [setInode]

theorem setInode_other {s : Volume} {node p : ℕ} (f : InodeT → InodeT) (h : p ≠ node) :
    (setInode s node f).inodes p = s.inodes p := by
  simp [setInode, h]

def inodeImage (tail : InodeT → ℕ → UInt8) (node : InodeT) : ℕ → UInt8 :=
  putWord (putWord (putWord (putWord (putWord (putWord (tail node) 0 node.isvalid) 4 node.index)
    8 node.size) 12 node.alloc) 16 node.childCount) 20 node.type

def inodeUpdate (s : Volume) (node : ℕ) : Volume :=
  { s with disk := ataWrite s.disk (s.inodes node).index (inodeImage s.tail (s.inodes node)) }

@[simp] theorem inodeUpdate_inodes (s : Volume) (node : ℕ) : (inodeUpdate s node).inodes = s.inodes := by
  unfold inodeUpdate
  rfl

@[simp] theorem inodeUpdate_inodelist (s : Volume) (node : ℕ) :
    (inodeUpdate s node).inodelist = s.inodelist := by
  unfold inodeUpdate
  rfl

def inodeFetch (d : Disk) (index : ℕ) : Header :=
  let buffer := ataRead d index
  { isvalid := wordAt buffer 0
    index := wordAt buffer 4
    size := wordAt buffer 8
    alloc := wordAt buffer 12
    childCount := wordAt buffer 16
    type := wordAt buffer 20 }

def ballocUpdate (s : Volume) : Volume :=
  { s with disk := ataWrite s.disk 0 (putWord s.junk 0 s.ballocPtr) }

/-- The volume after `balloc`; the address returned is the old pointer. -/
def balloc (s : Volume) (size : ℕ) : Volume :=
  ballocUpdate { s with ballocPtr := (s.ballocPtr + size) % 2 ^ 32 }

structure OperationBounds where
  bytesRead : ℕ
  secFrom : ℕ
  secCount : ℕ
  secOverflow : ℕ
  secRead : ℕ
  bytesOverflow : ℕ

def sub32 (a b : ℕ) : ℕ := (a + 2 ^ 32 - b) % 2 ^ 32

def inodeCalculateOperationBounds (node : InodeT) (bytesFrom bytesCount : ℕ) : OperationBounds :=
  let bytesTo := (bytesFrom + bytesCount) % 2 ^ 32
  let secFrom := (node.index + 1 + bytesFrom / 512) % 2 ^ 32
  let secTo := (node.index + 1 + sub32 bytesTo 1 / 512 + 1) % 2 ^ 32
  let secEnd := (node.index + 1 + node.alloc) % 2 ^ 32
  { secFrom := secFrom
    secCount := sub32 secTo secFrom
    secOverflow := if secTo > secEnd then sub32 secTo secEnd else 0
    secRead := if secTo > secEnd then sub32 secEnd secFrom else sub32 secTo secFrom
    bytesOverflow := if bytesTo > node.size then sub32 bytesTo node.size else 0
    bytesRead := if bytesTo > node.size then sub32 node.size bytesFrom else bytesCount }

def inodeRead (s : Volume) (node : InodeT) (bytesFrom count : ℕ) : List UInt8 :=
  if count = 0 then []
  else
    let op := inodeCalculateOperationBounds node bytesFrom count
    slice (readSectors s.disk op.secFrom s.junk op.secRead) (bytesFrom % 512) op.bytesRead

inductive ChildOperation
  | add (name : Str) (index : ℕ)
  | rem (name : Str)
  | reloc (name : Str) (index : ℕ)
  | rename (name1 name2 : Str)

def ChildOperation.table (table : ChildtableT) : ChildOperation → ChildtableT
  | .add name index => childtableAdd table name index
  | .rem name => childtableRemove table name
  | .reloc name index => childtableEditIndex table name index
  | .rename name1 name2 => childtableEditName table name1 name2

def ChildOperation.count (childCount : ℕ) : ChildOperation → ℕ
  | .add _ _ => (childCount + 1) % 2 ^ 32
  | .rem _ => sub32 childCount 1
  | .reloc _ _ => childCount
  | .rename _ _ => childCount

def storeBytes (s : Volume) (node bytesFrom : ℕ) (buffer : List UInt8) : Volume :=
  let op := inodeCalculateOperationBounds (s.inodes node) bytesFrom buffer.length
  let s :=
    if op.bytesOverflow ≠ 0 then
      inodeUpdate (setInode s node fun n =>
        { n with size := (n.size + op.bytesOverflow) % 2 ^ 32 }) node
    else s
  let blocks := blit (readSectors s.disk op.secFrom s.junk op.secRead) (bytesFrom % 512)
    (bytesOf buffer) buffer.length
  { s with disk := writeSectors s.disk op.secFrom blocks op.secCount }

def moveExtent (s : Volume) (node sectors : ℕ) : Volume :=
  let newIndex := s.ballocPtr
  let s := balloc s ((sectors + 1) % 2 ^ 32)
  let old := s.inodes node
  let s := { s with disk := copySectors s.disk (old.index + 1) (newIndex + 1) old.alloc }
  inodeUpdate (setInode s node fun n => { n with index := newIndex, alloc := sectors }) node

/-- The name in the path of an inode; through the null pointer of the root some other string. -/
def nodeName (s : Volume) (node : ℕ) : Str :=
  (pathbufName (s.inodes node).pathbuf).getD s.stray

mutual

def inodeWrite (s : Volume) (node bytesFrom : ℕ) (buffer : List UInt8) (parent : Option ℕ) : Volume :=
  if buffer.length = 0 then s
  else
    let op := inodeCalculateOperationBounds (s.inodes node) bytesFrom buffer.length
    let s :=
      if op.secOverflow ≠ 0 then
        inodeRealloc s node ((op.secOverflow + (s.inodes node).alloc) % 2 ^ 32) parent
      else s
    storeBytes s node bytesFrom buffer
termination_by (if parent.isSome then 1 else 0, 1)

def inodeRealloc (s : Volume) (node sectors : ℕ) (parent : Option ℕ) : Volume :=
  let newIndex := s.ballocPtr
  let s := moveExtent s node sectors
  match parent with
  | some p => inodeChildSet s p (.reloc (nodeName s node) newIndex) none
  | none => { s with disk := ataWrite s.disk 1 (putWord s.junk 0 (s.inodes node).index) }
termination_by (if parent.isSome then 1 else 0, 0)

def inodeChildSet (s : Volume) (node : ℕ) (op : ChildOperation) (parent : Option ℕ) : Volume :=
  let n := s.inodes node
  let table := op.table ⟨inodeRead s n 0 n.size, n.alloc⟩
  let s := setInode s node fun n => { n with childCount := op.count n.childCount }
  let s := inodeWrite s node 0 table.data parent
  inodeUpdate s node
termination_by (if parent.isSome then 1 else 0, 2)

end

def inodeCreate (s : Volume) (dir : ℕ) (parent : ℕ) (name : Str) (node : ℕ) (gparent : Option ℕ) :
    Option Volume :=
  if strlen name.chars > 256 then none
  else
    let index := s.ballocPtr
    let s := balloc s 1
    let s := setInode s node fun n =>
      { n with
        type := if dir ≠ 0 then inodeTypeDir else inodeTypeFile
        alloc := 0, size := 0, childCount := 0, index := index, isvalid := 1 }
    let s := inodeUpdate s node
    some (inodeChildSet s parent (.add name index) gparent)

/-- The name given to `CHOP_REM` is read from the end of the path's fields. -/
def inodeDelete (s : Volume) (node : ℕ) (parent : Option ℕ) : Volume :=
  let s := inodeUpdate (setInode s node fun n => { n with isvalid := 0 }) node
  match parent with
  | some p => inodeChildSet s p (.rem s.stray) none
  | none => s

def inodeTruncate (s : Volume) (node : ℕ) : Volume :=
  inodeUpdate (setInode s node fun n => { n with alloc := 0, size := 0 }) node

def inodeChild (s : Volume) (node : InodeT) (name : Str) (buffer : InodeT) : InodeT :=
  let table : ChildtableT := ⟨inodeRead s node 0 node.size, node.alloc⟩
  let childIndex := childtableGet table name
  if childIndex ≠ 0 then { buffer with toHeader := inodeFetch s.disk childIndex }
  else { buffer with isvalid := 0 }

end Eedox.Fs
