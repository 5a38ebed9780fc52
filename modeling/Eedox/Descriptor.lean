import Eedox.Pipe
import Eedox.Fs.Node

namespace Eedox.Descriptor

open Pipe Fs

def fdAccessRead : ℕ := 1

def fdAccessWrite : ℕ := 2

/-- The `FD_KIND_*` of an entry with the `ptr` that goes with it. -/
inductive Target
  | stdin
  | stdout
  | disk (node : ℕ)
  | dir (node : ℕ)
  | pipe (ptr : ℕ)
  | mq (ptr : ℕ)

structure Fd where
  target : Target
  pos : ℕ
  isopen : Bool
  access : ℕ

structure FdTable where
  records : List Fd
  cap : ℕ
  room : 0 < cap
  fits : records.length ≤ cap

/-- The objects that descriptors refer to. Two ghosts tell about the blocks that hold a `pipe_t`:
`queue` whether `mqlist_open` has allocated it, `frees` how often it has been given to `kfree`. -/
structure Objects where
  fs : Volume
  pipes : ℕ → PipeT ℕ
  nextPipe : ℕ
  queue : ℕ → Bool
  frees : ℕ → ℕ

def setPipe (o : Objects) (ptr : ℕ) (pipe : PipeT ℕ) : Objects :=
  { o with pipes := Function.update o.pipes ptr pipe }

/-- A block from `kmalloc` with a new pipe in it; its address is `o.nextPipe`. -/
def allocPipe (o : Objects) (queue : Bool) : Objects :=
  { setPipe o o.nextPipe pipeNew with
    nextPipe := o.nextPipe + 1
    queue := Function.update o.queue o.nextPipe queue
    frees := Function.update o.frees o.nextPipe 0 }

def freePipe (o : Objects) (ptr : ℕ) : Objects :=
  { o with frees := Function.update o.frees ptr (o.frees ptr + 1) }

def fdTableCreate (initialSize : ℕ) (h : 0 < initialSize) : FdTable :=
  ⟨[], initialSize, h, Nat.zero_le _⟩

def fdTableAdd (table : FdTable) (fd : Fd) : FdTable × ℕ :=
  let index := table.records.findIdx fun fd => !fd.isopen
  let fd := { fd with isopen := true }
  if index = table.records.length then
    if h : table.cap = table.records.length then
      (⟨table.records ++ [fd], table.cap * 2, by have := table.room; omega, by
        have := table.room
        rw [List.length_append, List.length_singleton]
        omega⟩, index)
    else
      (⟨table.records ++ [fd], table.cap, table.room, by
        have := table.fits
        rw [List.length_append, List.length_singleton]
        omega⟩, index)
  else (⟨table.records.set index fd, table.cap, table.room, by simpa using table.fits⟩, index)

def fdTableCloneEntry (o : Objects) (fd : Fd) : Objects :=
  match fd.target with
  | .pipe ptr | .mq ptr =>
    let pipe := o.pipes ptr
    setPipe o ptr
      (if fd.access = fdAccessRead then { pipe with readerCount := pipe.readerCount + 1 }
      else { pipe with writerCount := pipe.writerCount + 1 })
  | .disk node | .dir node =>
    let fs :=
      match (o.fs.inodes node).parent with
      | some parent => setInode o.fs parent fun n => { n with refs := (n.refs + 1) % 2 ^ 32 }
      | none => o.fs
    { o with fs := setInode fs node fun n => { n with refs := (n.refs + 1) % 2 ^ 32 } }
  | .stdin | .stdout => o

/-- The index -1 when there is no such record. -/
def fdTableDup (o : Objects) (table : FdTable) (index : ℕ) : Objects × FdTable × ℤ :=
  match table.records[index]? with
  | none => (o, table, -1)
  | some fd =>
    let added := fdTableAdd table fd
    (fdTableCloneEntry o fd, added.1, added.2)

def fdTableRem (table : FdTable) (index : ℕ) : FdTable :=
  ⟨table.records.modify index fun fd => { fd with isopen := false }, table.cap, table.room, by
    simpa using table.fits⟩

/-- The loop of `fd_table_clone`. An entry that is not open keeps what its memory held, `unset`, in the
other fields. -/
def cloneRecords (unset : Fd) : Objects → List Fd → Objects × List Fd
  | o, [] => (o, [])
  | o, fd :: rest =>
    if fd.isopen then
      let cloned := cloneRecords unset (fdTableCloneEntry o fd) rest
      (cloned.1, fd :: cloned.2)
    else
      let cloned := cloneRecords unset o rest
      (cloned.1, { unset with isopen := false } :: cloned.2)

theorem length_cloneRecords (unset : Fd) (o : Objects) (records : List Fd) :
    (cloneRecords unset o records).2.length = records.length := by
  induction records generalizing o with
  | nil => rfl
  | cons fd rest ih =>
    rw [cloneRecords]
    split_ifs
    · rw [List.length_cons, ih, List.length_cons]
    · rw [List.length_cons, ih, List.length_cons]

def fdTableClone (unset : Fd) (o : Objects) (table : FdTable) : Objects × FdTable :=
  let cloned := cloneRecords unset o table.records
  (cloned.1, ⟨cloned.2, table.cap, table.room, (length_cloneRecords unset o table.records).trans_le table.fits⟩)

def closeTarget (o : Objects) (fd : Fd) : Objects :=
  match fd.target with
  | .disk node | .dir node => { o with fs := fsClose o.fs (some node) }
  | .pipe ptr =>
    let closed := if fd.access = fdAccessRead then pipeCloseRd (o.pipes ptr) else pipeCloseWr (o.pipes ptr)
    if closed.2 then freePipe (setPipe o ptr closed.1) ptr else setPipe o ptr closed.1
  | .mq ptr =>
    let closed := if fd.access = fdAccessRead then pipeCloseRd (o.pipes ptr) else pipeCloseWr (o.pipes ptr)
    setPipe o ptr closed.1
  | .stdin | .stdout => o

def fdTableClose (o : Objects) (table : FdTable) (fdId : ℕ) : Objects × FdTable :=
  match table.records[fdId]? with
  | none => (o, table)
  | some fd => if !fd.isopen then (o, table) else (closeTarget o fd, fdTableRem table fdId)

def openFds (table : FdTable) : List Fd := table.records.filter fun fd => fd.isopen

theorem open_set_perm {records : List Fd} {i : ℕ} {old : Fd} (hi : records[i]? = some old)
    (hold : old.isopen = false) (fd : Fd) (hfd : fd.isopen = true) :
    ((records.set i fd).filter fun fd => fd.isopen).Perm (fd :: records.filter fun fd => fd.isopen) := by
  induction records generalizing i with
  | nil => cases hi
  | cons a records ih =>
    cases i with
    | zero =>
      obtain rfl : a = old := by simpa using hi
      simp [hfd, hold]
    | succ i =>
      have := ih (by simpa using hi)
      cases ha : a.isopen
      · simpa [ha] using this
      · simp only [List.set_cons_succ, List.filter_cons, ha, ↓reduceIte]
        exact (this.cons a).trans (List.Perm.swap fd a _)

theorem open_modify_perm {records : List Fd} {i : ℕ} {fd : Fd} (hi : records[i]? = some fd)
    (hfd : fd.isopen = true) : (records.filter fun fd => fd.isopen).Perm
      (fd :: (records.modify i fun fd => { fd with isopen := false }).filter fun fd => fd.isopen) := by
  induction records generalizing i with
  | nil => cases hi
  | cons a records ih =>
    cases i with
    | zero =>
      obtain rfl : a = fd := by simpa using hi
      simp [hfd]
    | succ i =>
      have := ih (by simpa using hi)
      cases ha : a.isopen
      · simpa [ha] using this
      · simp only [List.modify_succ_cons, List.filter_cons, ha, ↓reduceIte]
        exact (this.cons a).trans (List.Perm.swap fd a _)

theorem openFds_add (table : FdTable) (fd : Fd) :
    (openFds (fdTableAdd table fd).1).Perm ({ fd with isopen := true } :: openFds table) := by
  unfold fdTableAdd openFds
  simp only
  split_ifs with hend hcap
  · rw [List.filter_append]
    exact List.perm_append_comm
  · rw [List.filter_append]
    exact List.perm_append_comm
  · have hlt := lt_of_le_of_ne List.findIdx_le_length hend
    refine open_set_perm (List.getElem?_eq_getElem hlt) ?_ _ rfl
    simpa using List.findIdx_getElem (w := hlt)

theorem openFds_rem {table : FdTable} {i : ℕ} {fd : Fd} (hi : table.records[i]? = some fd)
    (hfd : fd.isopen = true) : (openFds table).Perm (fd :: openFds (fdTableRem table i)) :=
  open_modify_perm hi hfd

theorem cloneRecords_eq (unset : Fd) (o : Objects) (records : List Fd) :
    (cloneRecords unset o records).1 =
        (records.filter fun fd => fd.isopen).foldl fdTableCloneEntry o ∧
      ((cloneRecords unset o records).2.filter fun fd => fd.isopen) =
        records.filter fun fd => fd.isopen := by
  induction records generalizing o with
  | nil => exact ⟨rfl, rfl⟩
  | cons fd rest ih =>
    rw [cloneRecords]
    cases hfd : fd.isopen
    · have := ih o
      simpa [hfd] using this
    · have := ih (fdTableCloneEntry o fd)
      simpa [hfd] using this

theorem fdTableClone_eq (unset : Fd) (o : Objects) (table : FdTable) :
    (fdTableClone unset o table).1 = (openFds table).foldl fdTableCloneEntry o ∧
      openFds (fdTableClone unset o table).2 = openFds table :=
  cloneRecords_eq unset o table.records

theorem fdTableClose_cases (o : Objects) (table : FdTable) (fdId : ℕ) :
    fdTableClose o table fdId = (o, table) ∨
      ∃ fd, fd.isopen = true ∧ (openFds table).Perm (fd :: openFds (fdTableRem table fdId)) ∧
        fdTableClose o table fdId = (closeTarget o fd, fdTableRem table fdId) := by
  unfold fdTableClose
  cases hi : table.records[fdId]? with
  | none => exact Or.inl rfl
  | some fd =>
    cases hfd : fd.isopen
    · exact Or.inl (by simp [hfd])
    · exact Or.inr ⟨fd, hfd, openFds_rem hi hfd, by simp [hfd]⟩

end Eedox.Descriptor
