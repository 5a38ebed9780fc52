import Eedox.Bitset
import Mathlib.Algebra.Group.Int.Defs
import Mathlib.Algebra.Group.Nat.Defs

namespace Eedox.Paging

open Bitset

structure PageT where
  present : Bool
  rw : Bool
  user : Bool
  accessed : Bool
  dirty : Bool
  frame : ℕ

/-- `tables` holds addresses of page tables, 0 for none, and `tablesPhysical` what the hardware reads. -/
structure PageDirectoryT where
  tables : ℕ → ℕ
  tablesPhysical : ℕ → ℕ
  physical : ℕ

/-- Page tables and directories are found by their addresses. `heap` lists what `kmalloc_a` will
return; `allTables` and `allDirectories` record the tables and the directories in use. -/
structure Machine where
  glbFrames : BitsetT
  pageTables : ℕ → ℕ → PageT
  directories : ℕ → PageDirectoryT
  frames : ℕ → ℕ → UInt8
  heap : List ℕ
  kernelPageDirectory : ℕ
  currentPageDirectory : ℕ
  allTables : List ℕ
  allDirectories : List ℕ

def zeroPage : PageT := ⟨false, false, false, false, false, 0⟩

def zeroDirectory : PageDirectoryT := ⟨fun _ => 0, fun _ => 0, 0⟩

def setPage (s : Machine) (table entry : ℕ) (page : PageT) : Machine :=
  { s with
    pageTables := Function.update s.pageTables table (Function.update (s.pageTables table) entry page) }

/-- Without a free frame the bit before the first is set and the page stays as it is; that case is
left out. -/
def allocFrame (s : Machine) (table entry : ℕ) (isWritable isKernel : Bool) : Option Machine :=
  (bitsetFirstUnset s.glbFrames).map fun idx =>
    setPage { s with glbFrames := bitsetSet s.glbFrames idx true } table entry
      { s.pageTables table entry with frame := idx, present := true, rw := isWritable, user := !isKernel }

/-- `kmalloc_a(sizeof(page_table_t))` and `memset`. -/
def newTable (s : Machine) : Option (ℕ × Machine) :=
  match s.heap with
  | [] => none
  | table :: heap =>
    some (table, { s with
      heap := heap
      pageTables := Function.update s.pageTables table fun _ => zeroPage
      allTables := table :: s.allTables })

def newDirectory (s : Machine) : Option (ℕ × Machine) :=
  match s.heap with
  | [] => none
  | dir :: heap =>
    some (dir, { s with
      heap := heap
      directories := Function.update s.directories dir zeroDirectory })

def setTable (s : Machine) (dir index table : ℕ) : Machine :=
  { s with
    directories := Function.update s.directories dir { s.directories dir with
      tables := Function.update (s.directories dir).tables index table } }

def setPhysical (s : Machine) (dir index word : ℕ) : Machine :=
  { s with
    directories := Function.update s.directories dir { s.directories dir with
      tablesPhysical := Function.update (s.directories dir).tablesPhysical index word } }

/-- The address is one of the kernel heap, whose page tables exist: `get_page` makes none here. -/
def getPhysicalAddress (s : Machine) (virtualAddress : ℕ) : Option ℕ :=
  if s.currentPageDirectory = 0 then some virtualAddress
  else
    let address := virtualAddress / 0x1000
    let table := (s.directories s.currentPageDirectory).tables (address / 1024)
    if table = 0 then none
    else some (((s.pageTables table (address % 1024)).frame * 0x1000 + virtualAddress % 0x1000) % 2 ^ 32)

/-- The page is given by its table and its place in it. -/
def getPage (s : Machine) (address : ℕ) (init : Bool) (dir : ℕ) : Option (Machine × ℕ × ℕ) :=
  let tableIndex := address / 0x1000 / 1024
  let entryIndex := address / 0x1000 % 1024
  if (s.directories dir).tables tableIndex = 0 then
    (newTable s).bind fun (table, s) =>
      let s := setTable s dir tableIndex table
      (if init then some table else getPhysicalAddress s table).map fun physical =>
        (setPhysical s dir tableIndex (physical ||| 0x7), table / 0x1000 * 0x1000, entryIndex)
  else some (s, (s.directories dir).tables tableIndex / 0x1000 * 0x1000, entryIndex)

def pagingPhyscpy (s : Machine) (src dest : ℕ) : Machine :=
  { s with frames := Function.update s.frames dest (s.frames src) }

/-- The first `n` turns of the loop of `page_table_clone`. -/
def clonePages (s : Machine) (table newTable : ℕ) : (n : ℕ) → Option Machine
  | 0 => some s
  | i + 1 =>
    (clonePages s table newTable i).bind fun s =>
      let page := s.pageTables table i
      if page.frame ≠ 0 then
        (allocFrame s newTable i false false).map fun s =>
          let newPage := { page with frame := (s.pageTables newTable i).frame }
          pagingPhyscpy (setPage s newTable i newPage) page.frame newPage.frame
      else some s

def pageTableClone (s : Machine) (table : ℕ) : Option (ℕ × Machine) :=
  (newTable s).bind fun (newTable, s) =>
    (clonePages s table newTable 1024).map fun s => (newTable, s)

/-- The first `n` turns of the loop of `page_directory_clone`. -/
def cloneTables (s : Machine) (dir newdir : ℕ) : (n : ℕ) → Option Machine
  | 0 => some s
  | i + 1 =>
    (cloneTables s dir newdir i).bind fun s =>
      let table := (s.directories dir).tables i
      if table ≠ 0 then
        if table = (s.directories s.kernelPageDirectory).tables i then
          some (setPhysical (setTable s newdir i table) newdir i ((s.directories dir).tablesPhysical i))
        else
          (pageTableClone s table).bind fun (newTable, s) =>
            let s := setTable s newdir i newTable
            (getPhysicalAddress s newTable).map fun physical =>
              setPhysical s newdir i (physical ||| 0x7)
      else some s

def pageDirectoryClone (s : Machine) (dir : ℕ) : Option (ℕ × Machine) :=
  (newDirectory s).bind fun (newdir, s) =>
    (getPhysicalAddress s newdir).bind fun physical =>
      let s := { s with
        directories := Function.update s.directories newdir { s.directories newdir with
          physical := physical + 0x1000 } }
      (cloneTables s dir newdir 1024).map fun s =>
        (newdir, { s with allDirectories := newdir :: s.allDirectories })

/-- The first `n` turns of the loop of `paging_init`. -/
def identityMap (s : Machine) : (n : ℕ) → Option Machine
  | 0 => some s
  | i + 1 =>
    (identityMap s i).bind fun s =>
      (getPage s (i * 0x1000) true s.kernelPageDirectory).bind fun (s, table, entry) =>
        allocFrame s table entry false false

/-- `heapEnd` is the end of the kernel heap. -/
def pagingInit (s : Machine) (heapEnd : ℕ) : Option Machine :=
  (newDirectory { s with glbFrames := bitsetInit s.glbFrames 0x100000 }).bind fun (dir, s) =>
    let s := { s with kernelPageDirectory := dir, allDirectories := dir :: s.allDirectories }
    (identityMap s ((heapEnd + 0xfff) / 0x1000)).bind fun s =>
      let s := { s with
        directories := Function.update s.directories dir { s.directories dir with
          physical := dir + 0x1000 } }
      (pageDirectoryClone s dir).map fun (newdir, s) => { s with currentPageDirectory := newdir }

/-- A page that has no frame gets one, as in `prog_load` and `syscall_sbrk`. -/
def mapPage (s : Machine) (address : ℕ) (isWritable isKernel : Bool) : Option Machine :=
  (getPage s address false s.currentPageDirectory).bind fun (s, table, entry) =>
    if (s.pageTables table entry).frame = 0 then allocFrame s table entry isWritable isKernel else some s

end Eedox.Paging
