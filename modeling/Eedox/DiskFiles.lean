import Eedox.Descriptor

namespace Eedox.DiskFiles

open Fs Descriptor

/-- The result and the bytes copied to the buffer. -/
def fsRead (s : Volume) (node bytesFrom len : ℕ) : ℤ × List UInt8 :=
  if (s.inodes node).isvalid ≠ 0 then
    let bytes := inodeRead s (s.inodes node) bytesFrom len
    (Int.bmod bytes.length (2 ^ 32), bytes)
  else (fsErrDeleted, [])

def fsWrite (s : Volume) (node bytesFrom : ℕ) (str : List UInt8) : Volume × ℤ :=
  if (s.inodes node).isvalid ≠ 0 then
    (inodeWrite s node bytesFrom str (s.inodes node).parent, str.length)
  else (s, fsErrDeleted)

def syscallErrUnlinkedFile : ℤ := -5

def advance (fd : Fd) (ret : ℤ) : Fd := { fd with pos := ((fd.pos + ret) % 2 ^ 32).toNat }

def syscallReadDisk (s : Volume) (fd : Fd) (node len : ℕ) : Fd × ℤ × List UInt8 :=
  let read := fsRead s node fd.pos len
  if read.1 = fsErrDeleted then (fd, syscallErrUnlinkedFile, read.2)
  else (advance fd read.1, read.1, read.2)

def syscallWriteDisk (s : Volume) (fd : Fd) (node : ℕ) (str : List UInt8) : Volume × Fd × ℤ :=
  let written := fsWrite s node fd.pos str
  if written.2 = fsErrDeleted then (written.1, fd, syscallErrUnlinkedFile)
  else (written.1, advance fd written.2, written.2)

def fdTableSet (table : FdTable) (index : ℕ) (fd : Fd) : FdTable :=
  ⟨table.records.set index fd, table.cap, table.room, by simpa using table.fits⟩

end Eedox.DiskFiles
