import Eedox.FileSessions
import Eedox.Library.Programs
import Eedox.Printf

namespace Eedox.FilePrograms

open Util Library.Bytes Library.Refinement Library.Programs Library.Programs.Program Pathbuf Fs FileSessions Printf
open Syscall (syscallTranslateFsErr)
open Terminal (Display termPrintBuffer)

abbrev Task := Program Call Reply

/-- A call returns what it has noted last. -/
def kernel : Machine State Call Reply := ⟨step, fun s => s.out.getLast?⟩

section Source

def bufferSize : ℕ := 1024

def stdout : ℕ := 1

def pathOf (cwd : PathbufT) (path : Str) : PathbufT := resolvePath cwd (pathbufParse path)

def «open» (cwd : PathbufT) (path : Str) (flags : ℕ) : Task ℤ :=
  .call (.openFile (pathOf cwd path) (flags % 2 = 1) (flags / 2 % 2 = 1)) fun r => .done r.ret

def read (fd len : ℕ) : Task Reply := .call (.read fd len) .done

def write (fd : ℕ) (buffer : List UInt8) : Task Unit := .call (.write fd buffer) fun _ => .done ()

def close (fd : ℕ) : Task Unit := .call (.close fd) fun _ => .done ()

def writeAll (fd : ℕ) : List (List UInt8) → Task Unit
  | [] => pure ()
  | chunk :: chunks => do
    write fd chunk
    writeAll fd chunks

def printf (message : Str) (args : VaList) : Task Unit :=
  match printChunks args message (message.chars.length + 1) 0 with
  | none => .stuck
  | some (chunks, _) => writeAll stdout chunks

/-- The loop of `copy`, `cat` and `wc`, which read to the end and differ in a turn. -/
def drain {β : Type} (turn : β → Reply → Task β) (fd : ℕ) : (fuel : ℕ) → β → Task β :=
  loop fun b => do
    let rsl ← read fd bufferSize
    if rsl.ret = 0 then return .inr b
    else return .inl (← turn b rsl)

def copy (srcfd destfd fuel : ℕ) : Task Unit := drain (fun _ rsl => write destfd rsl.bytes) srcfd fuel ()

/-- Strings as arguments of `printf`. -/
def strings (args : List Str) : VaList := ⟨fun a => a + 1, fun ptr => args.getD (ptr - 1) ⟨[], nul_nil⟩⟩

/-- A string and a number as arguments of `printf`. -/
def counted (arg : Str) (count : ℕ) : VaList := ⟨fun a => if a = 0 then 1 else count, fun _ => arg⟩

end Source

/-- What a program has of the files, but for what its calls have returned. -/
structure View where
  files : Files
  table : List Slot
  screen : Display

def viewOf (d : FileSystem) : View := ⟨d.files, d.table, d.screen⟩

variable {d : FileSystem} {v : View} {p q : List Str} {fd len pos : ℕ} {table : List Slot} {slot : Slot}
  {buffer rest : List UInt8} {F : Files}

section Calls

end Calls

section Loops

variable {β : Type} {turn : β → Reply → Task β} {acc : List UInt8 → β} {view : List UInt8 → View}

end Loops

section Printing

end Printing

section Opening

variable {cwd : PathbufT} {path : Str} {flags : ℕ} (create truncate : Bool)

end Opening

section Cat

end Cat

section Wc

end Wc

section Cp

def Opens (F : Files) (p q : List Str) : Prop := F.result p false 0 = 0 ∧ F.result q true 0 = 0

instance (F : Files) (p q : List Str) : Decidable (Opens F p q) := inferInstanceAs (Decidable (_ ∧ _))

end Cp

section Kernel

variable {s : State} {cwd : PathbufT} {fuel : ℕ} {name src dest : Str} {args more : List Str}

end Kernel

section Sample

variable {s : State} {t : Volume} {A : Image} {pathbuf second : PathbufT} {root node : ℕ}

open Image

/-- "/A/B", a file of one byte, and "/C", an empty one. -/
def nameAB : Str := ⟨[47, 65, 47, 66], by decide⟩

def nameC : Str := ⟨[47, 67], by decide⟩

theorem path_AB : pathOf pathbufRoot nameAB = samplePath := rfl

theorem path_C : pathOf pathbufRoot nameC = ⟨[capital 2], true, 0⟩ := rfl

end Sample

end Eedox.FilePrograms
