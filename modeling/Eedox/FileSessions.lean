import Eedox.AccessRights
import Eedox.DiskFiles
import Eedox.InodeReferences
import Eedox.Fs.FilesOpen
import Eedox.Image.Mounted
import Eedox.Library.Refinement
import Eedox.Terminal
import Eedox.WorkingDirectory

namespace Eedox.FileSessions

open Util Library.Bytes Library.Runs Library.Refinement Ata Pathbuf Fs Descriptor DiskFiles InodeReferences
open AccessRights (syscallErrWriteonly syscallErrReadonly syscallErrInvalidLength)
open Syscall (syscallErrInvalidFd syscallTranslateFsErr initFdt)
open Terminal (Display termPrintBuffer)

/-- What a call returns, with the bytes that it copies out. -/
structure Reply where
  ret : ℤ
  bytes : List UInt8
deriving DecidableEq

/-- The volume, the descriptors of the task, those of the inodes that an `open` that failed has left behind, the
terminal, and what the calls have returned. -/
structure State where
  volume : Volume
  table : FdTable
  lost : List Fd
  screen : Display
  out : List Reply

inductive Call
  | openFile (pathbuf : PathbufT) (create truncate : Bool)
  | mkdir (pathbuf : PathbufT)
  | read (fdId len : ℕ)
  | write (fdId : ℕ) (str : List UInt8)
  | close (fdId : ℕ)
  /-- The machine starts again with the disk as it is. -/
  | restart (ram : Volume) (unset : Fd) (screen : Display)

def State.reply (s : State) (ret : ℤ) (bytes : List UInt8) : State := { s with out := s.out ++ [⟨ret, bytes⟩] }

def diskFd (node : ℕ) : Fd := ⟨.disk node, 0, true, fdAccessWrite + fdAccessRead⟩

def syscallOpen (s : State) (pathbuf : PathbufT) (create truncate : Bool) : Option State :=
  (fsOpen s.volume pathbuf create truncate 0 false).bind fun (volume, node, res) =>
    if res ≠ 0 then
      some ({ s with volume := volume, lost := s.lost ++ (node.map diskFd).toList }.reply
        (syscallTranslateFsErr res) [])
    else node.map fun node =>
      let added := fdTableAdd s.table (diskFd node)
      { s with volume := volume, table := added.1 }.reply added.2 []

def syscallMkdir (s : State) (pathbuf : PathbufT) : Option State :=
  (fsOpen s.volume pathbuf true false 1 false).map fun (volume, node, res) =>
    { s with volume := fsClose volume node }.reply (if res ≠ 0 then syscallTranslateFsErr res else 0) []

def entry (table : FdTable) (fdId : ℕ) : Option Fd := table.records[fdId]?.filter fun fd => fd.isopen

/-- A read of the terminal has to wait for a line; there is no next state. -/
def syscallRead (s : State) (fdId len : ℕ) : Option State :=
  match entry s.table fdId with
  | none => some (s.reply syscallErrInvalidFd [])
  | some fd =>
    if fd.access ||| fdAccessRead = 0 then some (s.reply syscallErrWriteonly [])
    else if len = 0 then some (s.reply syscallErrInvalidLength [])
    else
      match fd.target with
      | .disk node =>
        let read := syscallReadDisk s.volume fd node len
        some ({ s with table := fdTableSet s.table fdId read.1 }.reply read.2.1 read.2.2)
      | _ => none

def syscallWrite (s : State) (fdId : ℕ) (str : List UInt8) : Option State :=
  match entry s.table fdId with
  | none => some (s.reply syscallErrInvalidFd [])
  | some fd =>
    if fd.access &&& fdAccessWrite = 0 then some (s.reply syscallErrReadonly [])
    else if str = [] then some (s.reply syscallErrInvalidLength [])
    else
      match fd.target with
      | .disk node =>
        let written := syscallWriteDisk s.volume fd node str
        some ({ s with volume := written.1, table := fdTableSet s.table fdId written.2.1 }.reply written.2.2 [])
      | .stdout => some ({ s with screen := termPrintBuffer s.screen str }.reply str.length [])
      | _ => none

def syscallClose (s : State) (fdId : ℕ) : Option State :=
  match entry s.table fdId with
  | none => some (s.reply syscallErrInvalidFd [])
  | some fd =>
    match fd.target with
    | .disk node =>
      some ({ s with volume := fsClose s.volume (some node), table := fdTableRem s.table fdId }.reply 0 [])
    | .stdin | .stdout => some ({ s with table := fdTableRem s.table fdId }.reply 0 [])
    | _ => none

/-- The machine as it starts with a disk. -/
def started (ram : Volume) (unset : Fd) (screen : Display) (out : List Reply) : State :=
  ⟨fsInit { ram with freed := [] }, initFdt unset, [], screen, out⟩

/-- The system calls of a task on files and the terminal. -/
def step (s : State) : Call → Option State
  | .openFile pathbuf create truncate => syscallOpen s pathbuf create truncate
  | .mkdir pathbuf => syscallMkdir s pathbuf
  | .read fdId len => syscallRead s fdId len
  | .write fdId str => syscallWrite s fdId str
  | .close fdId => syscallClose s fdId
  | .restart ram unset screen => some (started { ram with disk := s.volume.disk } unset screen s.out)

/-- What a descriptor is, for the program. -/
inductive Slot
  | free
  | stdin
  | stdout
  | file (path : List Str) (pos : ℕ)
deriving DecidableEq

/-- Files, the descriptors, the terminal and what the calls have returned. -/
structure FileSystem where
  files : Files
  table : List Slot
  screen : Display
  out : List Reply

def FileSystem.reply (d : FileSystem) (ret : ℤ) (bytes : List UInt8) : FileSystem :=
  { d with out := d.out ++ [⟨ret, bytes⟩] }

def bytesAt (F : Files) (p : List Str) : List UInt8 :=
  match F p with
  | some (.file bytes) => bytes
  | _ => []

/-- The first free place of a table takes the file. -/
def place (table : List Slot) (slot : Slot) : List Slot × ℕ :=
  let index := table.findIdx (· = .free)
  (if index = table.length then table ++ [slot] else table.set index slot, index)

/-- What the calls are for. -/
def spec (d : FileSystem) : Call → FileSystem
  | .openFile pathbuf create truncate =>
    let p := pathbuf.fields
    let res := d.files.result p create 0
    let files := d.files.opened p create truncate 0
    if res = 0 then
      let placed := place d.table (.file p 0)
      { d with files := files, table := placed.1 }.reply placed.2 []
    else { d with files := files }.reply (syscallTranslateFsErr res) []
  | .mkdir pathbuf =>
    let p := pathbuf.fields
    { d with files := d.files.opened p true false 1 }.reply (syscallTranslateFsErr (d.files.result p true 1)) []
  | .read fdId len =>
    match d.table[fdId]? with
    | none | some .free => d.reply syscallErrInvalidFd []
    | some (.file p pos) =>
      if len = 0 then d.reply syscallErrInvalidLength []
      else
        let bytes := ((bytesAt d.files p).drop pos).take len
        { d with table := d.table.set fdId (.file p (pos + bytes.length)) }.reply bytes.length bytes
    | some .stdin | some .stdout => d.reply syscallErrInvalidLength []
  | .write fdId str =>
    match d.table[fdId]? with
    | none | some .free => d.reply syscallErrInvalidFd []
    | some .stdin => d.reply syscallErrReadonly []
    | some (.file p pos) =>
      if str = [] then d.reply syscallErrInvalidLength []
      else
        { d with
          files := Function.update d.files p (some (.file (overlay (bytesAt d.files p) pos str)))
          table := d.table.set fdId (.file p (pos + str.length)) }.reply str.length []
    | some .stdout =>
      if str = [] then d.reply syscallErrInvalidLength []
      else { d with screen := termPrintBuffer d.screen str }.reply str.length []
  | .close fdId =>
    match d.table[fdId]? with
    | none | some .free => d.reply syscallErrInvalidFd []
    | some _ => { d with table := d.table.set fdId .free }.reply 0 []
  | .restart _ _ screen => { d with table := [.stdin, .stdout], screen := screen }

/-- The paths opened are not cached, lengths and ends are words, and there is room on the disk for what is created
and for a file that has to be moved; the terminal is not read. -/
def Guard (s : State) : Call → Prop
  | .openFile pathbuf create truncate => OpenCall s.volume pathbuf create truncate
  | .mkdir pathbuf => OpenCall s.volume pathbuf true false
  | .read fdId len => ∀ fd, entry s.table fdId = some fd → len ≠ 0 →
      (∃ node, fd.target = .disk node) ∧ len < 2 ^ 31 ∧ fd.pos + len < 2 ^ 32
  | .write fdId str => ∀ fd node, entry s.table fdId = some fd → fd.target = .disk node →
      str.length < 2 ^ 31 ∧ fd.pos + str.length < 2 ^ 32 ∧
        (512 * (s.volume.inodes node).alloc < fd.pos + str.length →
          s.volume.ballocPtr + sectorsFor fd.pos str.length < 2 ^ 28)
  | .close _ => True
  | .restart _ _ _ => True

def nodeOf (fd : Fd) : ℕ := (inodeOf fd).getD 0

/-- A descriptor stands for a file that is open at a position inside it. -/
structure IsOpen (v : Volume) (F : Files) (fd : Fd) (p : List Str) (pos : ℕ) : Prop where
  isopen : fd.isopen = true
  access : fd.access = fdAccessWrite + fdAccessRead
  target : fd.target = .disk (nodeOf fd)
  path : fields v (nodeOf fd) = p
  position : fd.pos = pos
  file : ∃ bytes, F p = some (.file bytes) ∧ pos ≤ bytes.length

/-- A descriptor stands for what the program takes it for. -/
inductive IsSlot (v : Volume) (F : Files) : Fd → Slot → Prop
  | free {fd : Fd} (h : fd.isopen = false) : IsSlot v F fd .free
  | stdin (pos : ℕ) : IsSlot v F ⟨.stdin, pos, true, fdAccessRead⟩ .stdin
  | stdout (pos : ℕ) : IsSlot v F ⟨.stdout, pos, true, fdAccessWrite⟩ .stdout
  | file {fd : Fd} {p : List Str} {pos : ℕ} (h : IsOpen v F fd p pos) : IsSlot v F fd (.file p pos)

structure Rel (s : State) (d : FileSystem) : Prop where
  stores : ∃ A, Stores s.volume A d.files
  held : ∃ root, Held s.volume root (openFds s.table ++ s.lost)
  table : List.Forall₂ (IsSlot s.volume d.files) s.table.records d.table
  screen : s.screen = d.screen
  out : s.out = d.out

variable {s : State} {d : FileSystem} {v w : Volume} {F G : Files} {A : Image} {fd : Fd} {fds : List Fd}
  {slot : Slot} {p : List Str} {root node pos : ℕ} {pathbuf : PathbufT}

section Slots

theorem IsOpen.inode (h : IsOpen v F fd p pos) : inodeOf fd = some (nodeOf fd) := by
  have ht := h.target
  unfold inodeOf
  rw [ht]

theorem nodeOf_eq (h : inodeOf fd = some node) : nodeOf fd = node := by
  rw [nodeOf, h]
  rfl

/-- What an open file needs of another volume: the path, and a file there that is not shorter. -/
theorem IsOpen.keep (h : IsOpen v F fd p pos) (hpath : fields w (nodeOf fd) = fields v (nodeOf fd))
    (hfile : ∀ bytes, F p = some (.file bytes) → ∃ more, G p = some (.file more) ∧ bytes.length ≤ more.length) :
    IsOpen w G fd p pos := by
  obtain ⟨bytes, hF, hle⟩ := h.file
  obtain ⟨more, hG, hlen⟩ := hfile bytes hF
  exact ⟨h.isopen, h.access, h.target, hpath.trans h.path, h.position, more, hG, hle.trans hlen⟩

theorem IsSlot.keep (h : IsSlot v F fd slot)
    (hfile : ∀ p pos, IsOpen v F fd p pos → IsOpen w G fd p pos) : IsSlot w G fd slot := by
  cases h with
  | free h => exact .free h
  | stdin pos => exact .stdin pos
  | stdout pos => exact .stdout pos
  | file h => exact .file (hfile _ _ h)

theorem IsSlot.isopen_iff (h : IsSlot v F fd slot) : fd.isopen = false ↔ slot = .free := by
  cases h with
  | free h => exact iff_of_true h rfl
  | stdin pos => exact iff_of_false (by simp) (by simp)
  | stdout pos => exact iff_of_false (by simp) (by simp)
  | file h => exact iff_of_false (by simp [h.isopen]) (by simp)

theorem entry_of_slot {table : FdTable} {slots : List Slot} (fdId : ℕ)
    (h : List.Forall₂ (IsSlot v F) table.records slots) :
    (entry table fdId = none ∧ (slots[fdId]? = none ∨ slots[fdId]? = some .free)) ∨
      ∃ fd slot, table.records[fdId]? = some fd ∧ entry table fdId = some fd ∧ slots[fdId]? = some slot ∧
        fd.isopen = true ∧ slot ≠ .free ∧ IsSlot v F fd slot := by
  unfold entry
  cases hfd : table.records[fdId]? with
  | none =>
    refine Or.inl ⟨rfl, Or.inl ?_⟩
    rw [List.getElem?_eq_none_iff] at hfd ⊢
    rwa [← h.length_eq]
  | some fd =>
    obtain ⟨slot, hslot, hs⟩ := forall₂_getElem? h hfd
    cases hopen : fd.isopen with
    | false =>
      obtain rfl := hs.isopen_iff.mp hopen
      exact Or.inl ⟨by simp [hopen], Or.inr hslot⟩
    | true =>
      refine Or.inr ⟨fd, slot, rfl, by simp [hopen], hslot, hopen, ?_, hs⟩
      intro he
      rw [hs.isopen_iff.mpr he] at hopen
      cases hopen

end Slots

section Opening

theorem mem_openFds {table : FdTable} (hfd : fd ∈ table.records) (hopen : fd.isopen = true) :
    fd ∈ openFds table := List.mem_filter.mpr ⟨hfd, hopen⟩

theorem Rel.mem (h : Rel s d) (hfd : fd ∈ s.table.records) (hf : IsOpen s.volume d.files fd p pos) :
    nodeOf fd ∈ s.volume.inodelist := by
  obtain ⟨root, hheld⟩ := h.held
  exact hheld.mem (List.mem_append_left _ (mem_openFds hfd hf.isopen)) (mem_heldBy_self hf.inode)

theorem Rel.keep (h : Rel s d) (hkeep : ∀ fd ∈ s.table.records, ∀ p pos, IsOpen s.volume d.files fd p pos →
    IsOpen w G fd p pos) : List.Forall₂ (IsSlot w G) s.table.records d.table :=
  ((List.forall₂_and_left s.table.records d.table).mpr ⟨fun _ hfd => hfd, h.table⟩).imp fun fd _ hf =>
    hf.2.keep (hkeep fd hf.1)

end Opening

section Contents

theorem Rel.replied (h : Rel s d) (ret : ℤ) (bytes : List UInt8) : Rel (s.reply ret bytes) (d.reply ret bytes) := by
  refine ⟨h.stores, h.held, h.table, h.screen, ?_⟩
  simp only [State.reply, FileSystem.reply]
  rw [h.out]

end Contents

section Closing

end Closing

section Started

/-- The descriptor that a slot stands for. -/
theorem Rel.opened {fdId : ℕ} (h : Rel s d) (hslot : d.table[fdId]? = some (.file p pos)) :
    ∃ fd, s.table.records[fdId]? = some fd ∧ entry s.table fdId = some fd ∧ IsOpen s.volume d.files fd p pos := by
  rcases entry_of_slot fdId h.table with ⟨-, hnone | hfree⟩ | ⟨fd, slot, hrec, hentry, hslot', -, -, hs⟩
  · rw [hnone] at hslot
    cases hslot
  · rw [hfree] at hslot
    cases hslot
  · obtain rfl := Option.some.inj (hslot.symm.trans hslot')
    cases hs with
    | file hf => exact ⟨fd, hrec, hentry, hf⟩

end Started

section Sample

open Image

theorem neZero_letters : NeZero 33 := ⟨by decide⟩

/-- "A", "B" and so on. -/
def capital (i : ℕ) : Str := letter (@Fin.ofNat 33 neZero_letters i)

def samplePath : PathbufT := ⟨[capital 0, capital 1], true, 0⟩

end Sample

end Eedox.FileSessions
