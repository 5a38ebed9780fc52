import Eedox.Fs.Node
import Eedox.Fs.Write

namespace Eedox.Fs.RootRestart

open Library.Bytes Ata Pathbuf

def pointer (d : Disk) : ℕ := wordAt (ataRead d 0) 0

def rootIndex (d : Disk) : ℕ := wordAt (ataRead d 1) 0

/-- The words of the sectors 0 and 1, with the defaults for blank ones. -/
def startPointer (d : Disk) : ℕ := if pointer d = 0 then fsStartSector else pointer d

def startRoot (d : Disk) : ℕ := if rootIndex d = 0 then fsStartSector else rootIndex d

/-- The disk once the defaults are written. -/
def started (s : Volume) : Disk :=
  let d := (binit s).disk
  if rootIndex d = 0 then ataWrite d 1 (putWord (ataRead d 1) 0 fsStartSector) else d

/-- The header that `fs_init` fetches. -/
def found (s : Volume) : Header := inodeFetch (started s) (startRoot s.disk)

/-- The sectors that `fs_init` takes from `balloc`. -/
def handedOut (s : Volume) : List ℕ := if (found s).isvalid = 0 then [startPointer s.disk] else []

def rootHeader (s : Volume) : Header := ((fsInit s).inodes s.nextInode).toHeader

def newRoot (index : ℕ) : Header := ⟨1, index, 0, 0, 0, inodeTypeDir⟩

/-- After `fs_init`, sector 1 names the sector of a valid header that is the cached root's, and another
start from the same disk finds the same root and takes no sector of it. -/
structure Survives (s : Volume) : Prop where
  valid : (inodeFetch (fsInit s).disk (rootIndex (fsInit s).disk)).isvalid = 1
  cached : inodeFetch (fsInit s).disk (rootIndex (fsInit s).disk) = rootHeader s
  same : ∀ v, v.disk = (fsInit s).disk →
    rootIndex (fsInit v).disk = rootIndex (fsInit s).disk ∧ rootHeader v = rootHeader s
  kept : ∀ v, v.disk = (fsInit s).disk → ∀ sec ∈ handedOut v,
    sec < (rootHeader s).index ∨ (rootHeader s).index + (rootHeader s).alloc < sec

variable {s : Volume} {d : Disk} {sector r : ℕ} {buffer : ℕ → UInt8}

theorem wordAt_ataWrite (d : Disk) (sector : ℕ) (buffer : ℕ → UInt8) (r : ℕ) :
    wordAt (ataRead (ataWrite d sector buffer) r) 0 =
      if lba r = lba sector then wordAt buffer 0 else wordAt (ataRead d r) 0 := by
  split_ifs with h
  · exact wordAt_congr fun j _ hj => if_pos ⟨h, by omega⟩
  · rw [ataRead, ataRead, ataWrite_other h]

theorem inodeFetch_write_other (h : lba r ≠ lba sector) :
    inodeFetch (ataWrite d sector buffer) r = inodeFetch d r :=
  inodeFetch_congr fun _ _ => by rw [ataWrite_other h]

theorem binit_disk (s : Volume) : (binit s).disk =
    if pointer s.disk = 0 then ataWrite s.disk 0 (putWord s.junk 0 fsStartSector) else s.disk := by
  unfold binit pointer
  simp only
  split_ifs <;> rfl

theorem binit_ptr (s : Volume) : (binit s).ballocPtr = startPointer s.disk := by
  unfold binit startPointer pointer
  simp only
  split_ifs <;> rfl

theorem rootIndex_binit (s : Volume) : rootIndex (binit s).disk = rootIndex s.disk := by
  rw [binit_disk]
  split_ifs
  · exact (wordAt_ataWrite _ _ _ _).trans (if_neg (by decide))
  · rfl

theorem started_eq (s : Volume) : started s = if rootIndex s.disk = 0 then
    ataWrite (binit s).disk 1 (putWord (ataRead (binit s).disk 1) 0 fsStartSector)
      else (binit s).disk := by
  rw [started, rootIndex_binit]

theorem rootIndex_started (s : Volume) : rootIndex (started s) = startRoot s.disk := by
  rw [started_eq, startRoot]
  split_ifs
  · refine (wordAt_ataWrite _ _ _ _).trans ((if_pos rfl).trans ?_)
    rw [wordAt_putWord]
    rfl
  · exact rootIndex_binit s

theorem startPointer_pos (d : Disk) : 0 < startPointer d ∧ startPointer d < 2 ^ 32 := by
  unfold startPointer
  split_ifs with h
  · decide
  · exact ⟨Nat.pos_of_ne_zero h, wordAt_lt _ _⟩

theorem startRoot_pos (d : Disk) : 0 < startRoot d := by
  unfold startRoot
  split_ifs with h
  · decide
  · exact Nat.pos_of_ne_zero h

/-- The volume when the new root's inode has its header, with `rootIndex` where it was read. -/
def fetched (s : Volume) (rootIndex : ℕ) : Volume :=
  setInode (inodeNew { s with inodelist := [] } pathbufRoot) s.nextInode
    fun n => { n with toHeader := inodeFetch s.disk rootIndex }

def createRoot (s : Volume) (node : ℕ) : Volume :=
  inodeUpdate (setInode (balloc s 1) node fun n =>
    { n with isvalid := 1, childCount := 0, index := s.ballocPtr, size := 0, alloc := 0,
             type := inodeTypeDir }) node

theorem fsInit_steps (s : Volume) : fsInit s =
    let b := binit s
    let index := if rootIndex b.disk = 0 then fsStartSector else rootIndex b.disk
    let v := if rootIndex b.disk = 0 then
      { b with disk := ataWrite b.disk 1 (putWord (ataRead b.disk 1) 0 index) } else b
    if ((fetched v index).inodes v.nextInode).isvalid = 0 then createRoot (fetched v index) v.nextInode
    else fetched v index := rfl

def prepared (s : Volume) : Volume := { binit s with disk := started s }

theorem fetched_header (v : Volume) (index : ℕ) :
    ((fetched v index).inodes v.nextInode).toHeader = inodeFetch v.disk index := by
  rw [fetched, setInode_self]

theorem prepared_nextInode (s : Volume) : (prepared s).nextInode = s.nextInode := by
  unfold prepared binit
  simp only
  split_ifs <;> rfl

theorem fsInit_eq (s : Volume) : fsInit s =
    if (found s).isvalid = 0 then createRoot (fetched (prepared s) (startRoot s.disk)) s.nextInode
    else fetched (prepared s) (startRoot s.disk) := by
  have hindex : (if rootIndex s.disk = 0 then fsStartSector else rootIndex s.disk) = startRoot s.disk := rfl
  have hprepared : (if rootIndex s.disk = 0 then
      { binit s with
        disk := ataWrite (binit s).disk 1 (putWord (ataRead (binit s).disk 1) 0 (startRoot s.disk)) }
      else binit s) = prepared s := by
    rw [prepared, started_eq, startRoot]
    split_ifs
    · rfl
    · rfl
  have hvalid := congrArg Header.isvalid (fetched_header (prepared s) (startRoot s.disk))
  rw [prepared_nextInode] at hvalid
  rw [fsInit_steps]
  simp only [rootIndex_binit, hindex]
  rw [hprepared, prepared_nextInode, hvalid]
  rfl

theorem fsInit_valid (h : (found s).isvalid ≠ 0) :
    (fsInit s).disk = started s ∧ rootHeader s = found s := by
  have he : fsInit s = fetched (prepared s) (startRoot s.disk) := by
    rw [fsInit_eq, if_neg h]
  refine ⟨by rw [he]; rfl, ?_⟩
  rw [rootHeader, he, ← prepared_nextInode, fetched_header]
  rfl

/-- The disk after the pointer and the header of a new root are written. -/
def createdDisk (s : Volume) (node : InodeT) : Disk :=
  ataWrite (ataWrite (started s) 0 (putWord s.junk 0 ((startPointer s.disk + 1) % 2 ^ 32)))
    (startPointer s.disk) (inodeImage s.tail node)

theorem createRoot_disk (v : Volume) (node : ℕ) :
    ((createRoot v node).inodes node).toHeader = newRoot v.ballocPtr ∧
    (createRoot v node).disk = ataWrite (ataWrite v.disk 0 (putWord v.junk 0 ((v.ballocPtr + 1) % 2 ^ 32)))
      v.ballocPtr (inodeImage v.tail ((createRoot v node).inodes node)) := by
  have hinode : (createRoot v node).inodes node =
      ⟨newRoot v.ballocPtr, (v.inodes node).refs, (v.inodes node).pathbuf, (v.inodes node).parent⟩ := by
    rw [createRoot, inodeUpdate_inodes, setInode_self]
    rfl
  rw [hinode]
  refine ⟨rfl, ?_⟩
  rw [createRoot, inodeUpdate, setInode_self]
  rfl

theorem fsInit_created (h : (found s).isvalid = 0) : ∃ node, node.toHeader = newRoot (startPointer s.disk) ∧
    (fsInit s).disk = createdDisk s node ∧ rootHeader s = newRoot (startPointer s.disk) := by
  have he : fsInit s = createRoot (fetched (prepared s) (startRoot s.disk)) s.nextInode := by
    rw [fsInit_eq, if_pos h]
  have hptr : (fetched (prepared s) (startRoot s.disk)).ballocPtr = startPointer s.disk := binit_ptr s
  have hjunk : (fetched (prepared s) (startRoot s.disk)).junk = s.junk ∧
      (fetched (prepared s) (startRoot s.disk)).tail = s.tail := by
    change (binit s).junk = s.junk ∧ (binit s).tail = s.tail
    unfold binit
    simp only
    split_ifs <;> exact ⟨rfl, rfl⟩
  obtain ⟨hheader, hdisk⟩ := createRoot_disk (fetched (prepared s) (startRoot s.disk)) s.nextInode
  rw [hptr] at hheader hdisk
  rw [hjunk.1, hjunk.2] at hdisk
  refine ⟨_, hheader, ?_, by rw [rootHeader, he, hheader]⟩
  rw [he, hdisk]
  rfl

/-- The header found is valid, or it is free and a new root's header goes to its sector or over sector 1. -/
def Consistent (s : Volume) : Prop :=
  (found s).isvalid = 1 ∨ (found s).isvalid = 0 ∧
    (lba (startPointer s.disk) = 1 ∨ lba (startPointer s.disk) = lba (startRoot s.disk))

theorem fetch_image {node : InodeT} {b : ℕ} (hb : b < 2 ^ 32) (hn : node.toHeader = newRoot b)
    (hr : lba r = lba b) (tail : InodeT → ℕ → UInt8) :
    inodeFetch (ataWrite d b (inodeImage tail node)) r = newRoot b := by
  rw [← hn]
  refine inodeFetch_of_image ?_ fun o ho => if_pos ⟨hr, ho⟩
  rw [hn]
  exact ⟨show 1 < 2 ^ 32 by decide, hb, show 0 < 2 ^ 32 by decide, show 0 < 2 ^ 32 by decide,
    show 0 < 2 ^ 32 by decide, show inodeTypeDir < 2 ^ 32 by decide⟩

theorem named_created (h : (found s).isvalid = 0) {node : InodeT}
    (hn : node.toHeader = newRoot (startPointer s.disk)) :
    let d := createdDisk s node
    if lba (startPointer s.disk) = 1 ∨ lba (startPointer s.disk) = lba (startRoot s.disk) then
      inodeFetch d (rootIndex d) = newRoot (startPointer s.disk)
    else (inodeFetch d (rootIndex d)).isvalid ≠ 1 := by
  obtain ⟨hpos, hlt⟩ := startPointer_pos s.disk
  have hword : wordAt (inodeImage s.tail node) 0 = 1 := by
    rw [(wordAt_inodeImage s.tail node).1, hn]
    rfl
  have hroot : rootIndex (createdDisk s node) =
      if lba (startPointer s.disk) = 1 then 1 else startRoot s.disk := by
    refine (wordAt_ataWrite _ _ _ _).trans ?_
    rw [hword, show lba 1 = 1 from rfl]
    by_cases hone : lba (startPointer s.disk) = 1
    · rw [if_pos hone.symm, if_pos hone]
    · rw [if_neg (Ne.symm hone), if_neg hone, wordAt_ataWrite, if_neg (by decide)]
      exact rootIndex_started s
  simp only [hroot]
  by_cases hone : lba (startPointer s.disk) = 1
  · rw [if_pos (Or.inl hone), if_pos hone]
    exact fetch_image hlt hn (show lba 1 = _ from hone.symm) _
  · rw [if_neg hone]
    by_cases hsame : lba (startPointer s.disk) = lba (startRoot s.disk)
    · rw [if_pos (Or.inr hsame)]
      exact fetch_image hlt hn hsame.symm _
    · rw [if_neg (by tauto), createdDisk, inodeFetch_write_other (Ne.symm hsame)]
      by_cases hzero : lba (startRoot s.disk) = lba 0
      · have hisvalid : (inodeFetch (ataWrite (started s) 0
            (putWord s.junk 0 ((startPointer s.disk + 1) % 2 ^ 32))) (startRoot s.disk)).isvalid =
              (startPointer s.disk + 1) % 2 ^ 32 := by
          refine (wordAt_ataWrite _ _ _ _).trans ?_
          rw [if_pos hzero, wordAt_putWord, Nat.mod_mod]
        rw [hisvalid]
        omega
      · rw [inodeFetch_write_other hzero, show inodeFetch (started s) (startRoot s.disk) = found s from rfl, h]
        decide

/-- What sector 1 names after `fs_init` is the valid header of the cached root. -/
theorem named_iff_consistent (s : Volume) :
    ((inodeFetch (fsInit s).disk (rootIndex (fsInit s).disk)).isvalid = 1 ∧
      inodeFetch (fsInit s).disk (rootIndex (fsInit s).disk) = rootHeader s) ↔ Consistent s := by
  unfold Consistent
  by_cases h : (found s).isvalid = 0
  · obtain ⟨node, hn, hdisk, hroot⟩ := fsInit_created h
    have hnamed := named_created h hn
    rw [hdisk, hroot]
    simp only at hnamed
    split_ifs at hnamed with hc
    · rw [hnamed]
      exact iff_of_true ⟨rfl, rfl⟩ (Or.inr ⟨h, hc⟩)
    · refine iff_of_false (fun hv => hnamed hv.1) ?_
      rintro (hv | ⟨-, hc'⟩)
      · omega
      · exact hc hc'
  · obtain ⟨hdisk, hroot⟩ := fsInit_valid h
    rw [hdisk, hroot, rootIndex_started, show inodeFetch (started s) (startRoot s.disk) = found s from rfl]
    constructor
    · exact fun hv => Or.inl hv.1
    · rintro (hv | ⟨hv, -⟩)
      · exact ⟨hv, rfl⟩
      · exact absurd hv h

/-- From a disk that names a valid header every start finds that header. -/
theorem found_again (hr : rootIndex d ≠ 0) (hvalid : (inodeFetch d (rootIndex d)).isvalid = 1) {v : Volume}
    (hv : v.disk = d) : found v = inodeFetch d (rootIndex d) ∧ startRoot v.disk = rootIndex d := by
  subst hv
  have hstart : startRoot v.disk = rootIndex v.disk := if_neg hr
  refine ⟨?_, hstart⟩
  rw [found, hstart, started_eq, if_neg hr, binit_disk]
  split_ifs with hp
  · refine inodeFetch_write_other fun hzero => ?_
    have hisvalid : (inodeFetch v.disk (rootIndex v.disk)).isvalid = pointer v.disk := by
      change wordAt (v.disk (lba (rootIndex v.disk))) 0 = wordAt (v.disk (lba 0)) 0
      rw [hzero]
    omega
  · rfl

theorem rootIndex_fsInit_ne (s : Volume) : rootIndex (fsInit s).disk ≠ 0 := by
  have hpos := startRoot_pos s.disk
  by_cases h : (found s).isvalid = 0
  · obtain ⟨node, hn, hdisk, -⟩ := fsInit_created h
    rw [hdisk, show rootIndex (createdDisk s node) = _ from wordAt_ataWrite _ _ _ _]
    split_ifs
    · rw [(wordAt_inodeImage s.tail node).1, hn]
      exact show 1 % 2 ^ 32 ≠ 0 by decide
    · rw [wordAt_ataWrite, if_neg (by decide)]
      exact (rootIndex_started s).trans_ne hpos.ne'
  · rw [(fsInit_valid h).1, rootIndex_started]
    exact hpos.ne'

theorem survives_iff (s : Volume) : Survives s ↔ Consistent s := by
  refine ⟨fun h => (named_iff_consistent s).mp ⟨h.valid, h.cached⟩, fun h => ?_⟩
  obtain ⟨hvalid, hcached⟩ := (named_iff_consistent s).mpr h
  have hagain (v : Volume) (hv : v.disk = (fsInit s).disk) :=
    found_again (rootIndex_fsInit_ne s) hvalid hv
  have hfound (v : Volume) (hv : v.disk = (fsInit s).disk) : (found v).isvalid ≠ 0 := by
    rw [(hagain v hv).1, hvalid]
    decide
  refine ⟨hvalid, hcached, fun v hv => ?_, fun v hv sec hsec => ?_⟩
  · obtain ⟨hdisk, hroot⟩ := fsInit_valid (hfound v hv)
    obtain ⟨hf, hs⟩ := hagain v hv
    exact ⟨by rw [hdisk, rootIndex_started, hs], by rw [hroot, hf, hcached]⟩
  · rw [handedOut, if_neg (hfound v hv)] at hsec
    cases hsec

/-- The first start was cut off between its writes of the pointer and of the root's header. -/
def cutOff : Volume where
  disk := fun sec => if sec = 0 then putWord (fun _ => 0) 0 3 else
    if sec = 1 then putWord (fun _ => 0) 0 2 else fun _ => 0
  ballocPtr := 0
  inodes := fun _ => ⟨⟨0, 0, 0, 0, 0, 0⟩, 0, pathbufRoot, none⟩
  inodelist := []
  nextInode := 0
  freed := []
  junk := fun _ => 0
  tail := fun _ _ => 0
  stray := ⟨[], Util.nul_nil⟩

theorem cutOff_lost : ¬ ∀ s : Volume, Survives s := by
  intro h
  have hs := (named_iff_consistent cutOff).mp ⟨(h cutOff).valid, (h cutOff).cached⟩
  unfold Consistent at hs
  revert hs
  decide

end Eedox.Fs.RootRestart
