import Eedox.Library.Bytes
import Eedox.Library.Words

namespace Eedox.Trace

open Library.Bytes Library.Words

/-- A line of `nm`: the address, the type, the name, and the source file when there is one. -/
structure NmLine where
  address : ℕ
  ty : UInt8
  name : List UInt8
  file : Option (List UInt8)
  word : address < 2 ^ 32

/-- `buffer.append(0)` until it has `n` bytes. -/
def extend (buffer : List UInt8) (n : ℕ) : List UInt8 := buffer ++ List.replicate (n - buffer.length) 0

def writeBytes (buffer : List UInt8) (index : ℕ) (bytes : List UInt8) : List UInt8 :=
  overlay (extend buffer (index + bytes.length)) index bytes

def writeDword (buffer : List UInt8) (index value : ℕ) : List UInt8 := writeBytes buffer index (wordBytes value)

def writeStr (buffer : List UInt8) (index : ℕ) (value : List UInt8) : List UInt8 :=
  writeBytes buffer index (value ++ [0])

structure Table where
  buffer : List UInt8
  recIndex : ℕ
  symIndex : ℕ

def Table.alloc (table : Table) (text : List UInt8) : Table × ℕ :=
  (⟨writeStr table.buffer table.symIndex text, table.recIndex, table.symIndex + (text.length + 1)⟩, table.symIndex)

def Table.addrec (table : Table) (ptr name address : ℕ) : Table :=
  ⟨writeDword (writeDword (writeDword table.buffer table.recIndex ptr) (table.recIndex + 4) name)
      (table.recIndex + 8) address,
    table.recIndex + 12, table.symIndex⟩

/-- `split('/').pop()`. -/
def baseName (path : List UInt8) : List UInt8 := (path.reverse.takeWhile (· ≠ 47)).reverse

/-- 'T', 't', 'R' and 'r'. -/
def Listed (line : NmLine) : Prop := line.ty = 84 ∨ line.ty = 116 ∨ line.ty = 82 ∨ line.ty = 114

instance (line : NmLine) : Decidable (Listed line) := inferInstanceAs (Decidable (_ ∨ _ ∨ _ ∨ _))

def allocFile (table : Table) : Option (List UInt8) → Table × ℕ
  | none => (table, 0)
  | some path => table.alloc (baseName path)

/-- The body of the main loop. -/
def addLine (table : Table) (line : NmLine) : Table :=
  if Listed line then
    let (table, address) := allocFile table line.file
    let (table, name) := table.alloc line.name
    table.addrec line.address name address
  else table

/-- The table of so many lines before the main loop. -/
def emptyTable (count : ℕ) : Table := ⟨writeDword [] 0 count, 4, count * 12 + 4⟩

/-- The table before it is filled up with zeros. -/
def filled (lines : List NmLine) : Table := lines.foldl addLine (emptyTable lines.length)

def output (lines : List NmLine) : List UInt8 := extend (filled lines).buffer 0x8000

def symtableCount (mem : ℕ → UInt8) : ℕ := wordAt mem 0

def recPtr (mem : ℕ → UInt8) (index : ℕ) : ℕ := wordAt mem (4 + 12 * index)

def recName (mem : ℕ → UInt8) (index : ℕ) : ℕ := wordAt mem (4 + 12 * index + 4)

def recAddress (mem : ℕ → UInt8) (index : ℕ) : ℕ := wordAt mem (4 + 12 * index + 8)

def fnrecFindFrom (mem : ℕ → UInt8) (eip : ℕ) : (turns index : ℕ) → ℕ
  | 0, index => index
  | turns + 1, index =>
    if index + 1 < symtableCount mem ∧ eip ≥ recPtr mem (index + 1) then fnrecFindFrom mem eip turns (index + 1)
    else index

def fnrecFind (mem : ℕ → UInt8) (eip : ℕ) : ℕ := fnrecFindFrom mem eip (symtableCount mem) 0

/-- The first `n` turns of the loop of `trace_init`, with the table at the address `base`. -/
def traceInitUpTo (base : ℕ) (mem : ℕ → UInt8) : (n : ℕ) → ℕ → UInt8
  | 0 => mem
  | n + 1 =>
    let mem := traceInitUpTo base mem n
    let mem := putWord mem (4 + 12 * n + 4) (add32 (recName mem n) base)
    putWord mem (4 + 12 * n + 8) (add32 (recAddress mem n) base)

def traceInit (base : ℕ) (mem : ℕ → UInt8) : ℕ → UInt8 := traceInitUpTo base mem (symtableCount mem)

end Eedox.Trace
