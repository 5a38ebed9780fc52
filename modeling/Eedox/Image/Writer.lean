import Eedox.Util
import Eedox.Library.Bytes
import Mathlib.Algebra.GroupWithZero.Nat

namespace Eedox.Image

open Util Library.Bytes

/-- The children of a directory in the order in which a `for` over them meets them. -/
inductive Children
  | none
  | file (name : Str) (content : List UInt8) (rest : Children)
  | dir (name : Str) (children rest : Children)

def Children.names : Children → List Str
  | .none => []
  | .file name _ rest => name :: rest.names
  | .dir name _ rest => name :: rest.names

/-- The number of nodes below a directory. -/
def Children.count : Children → ℕ
  | .none => 0
  | .file _ _ rest => 1 + rest.count
  | .dir _ children rest => 1 + children.count + rest.count

inductive Item
  | file (content : List UInt8)
  | dir (children : Children)

def Children.find (name : Str) : Children → Option Item
  | .none => Option.none
  | .file name' content rest => if name = name' then some (.file content) else rest.find name
  | .dir name' children rest => if name = name' then some (.dir children) else rest.find name

/-- What lies at the end of a path. -/
def lookup : Item → List Str → Option Item
  | item, [] => some item
  | .file _, _ :: _ => none
  | .dir children, name :: path => (children.find name).bind fun item => lookup item path

/-- A node in the list `nodes`. A directory refers to its children by their places in the list. -/
inductive Node
  | file (content : List UInt8)
  | dir (children : List (Str × ℕ))

/-- The children of a directory when the first of them is to be pushed at place `i`. -/
def Children.places (i : ℕ) : Children → List (Str × ℕ)
  | .none => []
  | .file name _ rest => (name, i) :: rest.places (i + 1)
  | .dir name children rest => (name, i) :: rest.places (i + 1 + children.count)

def Children.collect (i : ℕ) : Children → List Node
  | .none => []
  | .file _ content rest => .file content :: rest.collect (i + 1)
  | .dir _ children rest =>
    .dir (children.places (i + 1)) ::
      (children.collect (i + 1) ++ rest.collect (i + 1 + children.count))

/-- `collect(fs_tree)` for the tree with these children. -/
def nodes (tree : Children) : List Node := .dir (tree.places 1) :: tree.collect 1

def sizeToAlloc (s : ℕ) : ℕ := if s % 512 = 0 then s / 512 else (s - s % 512) / 512 + 1

def pad (buf : List UInt8) : List UInt8 :=
  buf ++ List.replicate (sizeToAlloc buf.length * 512 - buf.length) 0

namespace Node

def size : Node → ℕ
  | .file content => content.length
  | .dir children => (children.map fun c => c.1.chars.length + 5).sum

def alloc (node : Node) : ℕ := sizeToAlloc node.size

def childCount : Node → ℕ
  | .file _ => 0
  | .dir children => children.length

def kind : Node → ℕ
  | .file _ => 0
  | .dir _ => 1

end Node

/-- The indices of the nodes when the first is given the sector `allocPtr`. -/
def layout (allocPtr : ℕ) : List Node → List ℕ
  | [] => []
  | node :: rest => allocPtr :: layout (allocPtr + (node.alloc + 1)) rest

/-- The allocation pointer after all nodes have been given their sectors. -/
def allocEnd (allocPtr : ℕ) : List Node → ℕ
  | [] => allocPtr
  | node :: rest => allocEnd (allocPtr + (node.alloc + 1)) rest

/-- `writeUInt32LE` throws when the value does not fit. -/
def writeUInt32LE (value : ℕ) : Option (List UInt8) :=
  if value < 2 ^ 32 then some (wordBytes value) else none

def entry (indices : List ℕ) (child : Str × ℕ) : Option (List UInt8) :=
  (writeUInt32LE (indices.getD child.2 0)).map fun word => child.1.chars ++ 0 :: word

def content (indices : List ℕ) : Node → Option (List UInt8)
  | .file content => some (pad content)
  | .dir children => (children.mapM (entry indices)).map fun entries => pad entries.flatten

def header (index : ℕ) (node : Node) : Option (List UInt8) :=
  ([1, index, node.size, node.alloc, node.childCount, node.kind].mapM writeUInt32LE).map fun words =>
    words.flatten ++ List.replicate (512 - 24) 0

structure Block where
  index : ℕ
  header : List UInt8
  content : List UInt8

def block (indices : List ℕ) (node : Node × ℕ) : Option Block :=
  (content indices node.1).bind fun bytes =>
    (header node.2 node.1).map fun head => ⟨node.2, head, bytes⟩

def pointerBlock (value : ℕ) : Option (List UInt8) :=
  (writeUInt32LE value).map fun word => word ++ List.replicate (512 - 4) 0

/-- The image, or nothing where a number does not fit into its word. -/
def build (tree : Children) : Option (List UInt8) :=
  let list := nodes tree
  let indices := layout 2 list
  ((list.zip indices).mapM (block indices)).bind fun blocks =>
    (pointerBlock (allocEnd 2 list)).bind fun allocPtrBlock =>
      (pointerBlock (indices.getD 0 0)).map fun rootPtrBlock =>
        allocPtrBlock ++ rootPtrBlock ++
          (blocks.mergeSort fun n1 n2 => n1.index ≤ n2.index).flatMap fun b => b.header ++ b.content

end Eedox.Image
