import Eedox.Fs.Inode

namespace Eedox.Fs

open Util Library.Bytes Ata Pathbuf Childtable

def inodelistGet (s : Volume) (pathbuf : PathbufT) : Option ℕ :=
  s.inodelist.find? fun node => pathbufCmp (s.inodes node).pathbuf pathbuf

/-- The loop does not look at the entry after one that it erases. -/
def inodelistRemove (node : ℕ) : List ℕ → List ℕ
  | [] => []
  | p :: rest =>
    if p = node then
      match rest with
      | [] => []
      | q :: rest => q :: inodelistRemove node rest
    else p :: inodelistRemove node rest

def inodeNew (s : Volume) (pathbuf : PathbufT) : Volume :=
  { setInode s s.nextInode fun n => { n with refs := 1, parent := none, pathbuf := pathbuf } with
    inodelist := s.inodelist ++ [s.nextInode]
    nextInode := s.nextInode + 1 }

theorem inodeNew_other {s : Volume} {pathbuf : PathbufT} {p : ℕ} (h : p ≠ s.nextInode) :
    (inodeNew s pathbuf).inodes p = s.inodes p := by
  simp [inodeNew, setInode, h]

def fsNodeChild (s : Volume) (node : ℕ) (name : Str) : Volume × ℕ :=
  let pathbuf := pathbufChild (s.inodes node).pathbuf name
  match inodelistGet s pathbuf with
  | some child => (s, child)
  | none =>
    let child := s.nextInode
    let s := inodeNew s pathbuf
    (setInode s child (inodeChild s (s.inodes node) name), child)

/-- The root of an empty list is read from memory that was not set. -/
def fsNodeRoot (s : Volume) : Option (Volume × ℕ) :=
  s.inodelist.head?.map fun node =>
    (setInode s node fun n => { n with refs := (n.refs + 1) % 2 ^ 32 }, node)

def fsNodeClose (s : Volume) : Option ℕ → Volume
  | none => s
  | some node =>
    let s := setInode s node fun n => { n with refs := sub32 n.refs 1 }
    if (s.inodes node).refs = 0 then
      { s with inodelist := inodelistRemove node s.inodelist, freed := s.freed ++ [node] }
    else s

/-- The loop of `fs_node_open`, with the inodes loaded so far. The last component says whether the path
was found. A field past the end of the path is no string. -/
def walk (pathbuf : PathbufT) : ℕ → Volume → ℕ → List ℕ → Option (Volume × ℕ × List ℕ × Bool)
  | 0, _, _, _ => none
  | fuel + 1, s, ptr, loaded =>
    if pathbufCmp (s.inodes ptr).pathbuf pathbuf then some (s, ptr, loaded, true)
    else if (s.inodes ptr).isvalid = 0 then some (s, ptr, loaded ++ [ptr], false)
    else if (s.inodes ptr).type = inodeTypeFile then some (s, ptr, loaded ++ [ptr], false)
    else
      match pathbuf.fields[pathbufLen (s.inodes ptr).pathbuf]? with
      | none => none
      | some nextField =>
        let child := fsNodeChild s ptr nextField
        walk pathbuf fuel child.1 child.2 (loaded ++ [ptr])

structure Opened where
  node : ℕ
  parent : Option ℕ
  gparent : Option ℕ

def fsNodeOpen (s : Volume) (pathbuf : PathbufT) : Option (Volume × Option Opened) :=
  match fsNodeRoot s with
  | none => none
  | some (s, root) =>
    match walk pathbuf (pathbufLen pathbuf + 1) s root [] with
    | none => none
    | some (s, ptr, loaded, true) =>
      let parent := loaded.getLast?
      let gparent := loaded.dropLast.getLast?
      let loaded := loaded.dropLast.dropLast
      some (loaded.foldl (fun s node => fsNodeClose s (some node)) s, some ⟨ptr, parent, gparent⟩)
    | some (s, _, loaded, false) =>
      some (loaded.foldl (fun s node => fsNodeClose s (some node)) s, none)

def fsErrDeleted : ℤ := -1

def fsErrInvalidPath : ℤ := -2

def fsErrNonexisting : ℤ := -3

def fsErrDirHasChild : ℤ := -4

/-- The branch of `fs_open` for an inode that is not valid. There is no parent to create the root in,
and no name. -/
def openMissing (s : Volume) (pathbuf : PathbufT) (create : Bool) (dir : ℕ) (o : Opened) :
    Option (Volume × ℤ) :=
  if create then
    match o.parent, pathbufName pathbuf with
    | some parent, some name => (inodeCreate s dir parent name o.node o.gparent).map fun s => (s, 0)
    | _, _ => none
  else some (s, fsErrNonexisting)

def openExisting (s : Volume) (truncate : Bool) (dir : ℕ) (unlink : Bool) (o : Opened) : Volume × ℤ :=
  let isDir := if (s.inodes o.node).type = inodeTypeDir then 1 else 0
  let result := if dir ≠ 2 ∧ dir ≠ isDir then fsErrInvalidPath else 0
  let unlinked :=
    if unlink then
      if isDir ≠ 0 ∧ (s.inodes o.node).childCount > 0 then (s, fsErrDirHasChild)
      else (inodeDelete s o.node o.parent, result)
    else (s, result)
  if truncate then (inodeTruncate unlinked.1 o.node, unlinked.2) else unlinked

def fsOpen (s : Volume) (pathbuf : PathbufT) (create truncate : Bool) (dir : ℕ) (unlink : Bool) :
    Option (Volume × Option ℕ × ℤ) :=
  match fsNodeOpen s pathbuf with
  | none => none
  | some (s, none) => some (s, none, fsErrInvalidPath)
  | some (s, some o) =>
    let opened :=
      if (s.inodes o.node).isvalid % 256 = 0 then openMissing s pathbuf create dir o
      else some (openExisting s truncate dir unlink o)
    opened.map fun (s, result) =>
      (fsNodeClose (setInode s o.node fun n => { n with parent := o.parent }) o.gparent,
        some o.node, result)

def fsClose (s : Volume) (node : Option ℕ) : Volume :=
  let parent := node.bind fun node => (s.inodes node).parent
  fsNodeClose (fsNodeClose s node) parent

def fsStartSector : ℕ := 2

def binit (s : Volume) : Volume :=
  let s := { s with ballocPtr := wordAt (ataRead s.disk 0) 0 }
  if s.ballocPtr = 0 then ballocUpdate { s with ballocPtr := fsStartSector } else s

def fsInit (s : Volume) : Volume :=
  let s := binit s
  let buffer := ataRead s.disk 1
  let rootIndex := if wordAt buffer 0 = 0 then fsStartSector else wordAt buffer 0
  let s :=
    if wordAt buffer 0 = 0 then { s with disk := ataWrite s.disk 1 (putWord buffer 0 rootIndex) } else s
  let node := s.nextInode
  let s := inodeNew { s with inodelist := [] } pathbufRoot
  let s := setInode s node fun n => { n with toHeader := inodeFetch s.disk rootIndex }
  if (s.inodes node).isvalid = 0 then
    let index := s.ballocPtr
    let s := balloc s 1
    inodeUpdate (setInode s node fun n =>
      { n with isvalid := 1, childCount := 0, index := index, size := 0, alloc := 0,
               type := inodeTypeDir }) node
  else s

end Eedox.Fs
