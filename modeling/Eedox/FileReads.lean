import Eedox.DiskFiles
import Eedox.Fs.ReadWrite
import Eedox.Library.Runs
import Mathlib.Data.Set.Insert

namespace Eedox.FileReads

open Util Library.Bytes Library.Runs Ata Pathbuf Fs Descriptor DiskFiles

/-- The volume, and the open descriptors of all tasks that refer to the file. -/
structure FileState where
  volume : Volume
  fds : List Fd

inductive Act
  | opened (truncate : Bool) (access : ℕ)
  | read (fd len : ℕ)
  | write (fd : ℕ) (str : List UInt8)
  | dup (fd : ℕ)
  /-- The descriptors are those of the task that forks. -/
  | fork (fds : List ℕ)
  | close (fd : ℕ)

def withHeader (n : InodeT) (header : Header) : InodeT := { n with toHeader := header }

/-- Without a descriptor the inode is no longer in memory: it is read again from the sector that its parent's
record names. -/
def findFile (node : ℕ) (s : FileState) : Volume :=
  if s.fds.isEmpty then
    setInode s.volume node fun n => withHeader n (inodeFetch s.volume.disk n.index)
  else s.volume

def openFile (node par : ℕ) (gparent : Option ℕ) (s : Volume) (truncate : Bool) : Volume :=
  setInode (openExisting s truncate 0 false ⟨node, some par, gparent⟩).1 node fun n => { n with parent := some par }

/-- The calls on the file `node`, whose parent is `par`. -/
def perform (node par : ℕ) (gparent : Option ℕ) (s : FileState) : Act → Option FileState
  | .opened truncate access =>
    some ⟨openFile node par gparent (findFile node s) truncate, s.fds ++ [⟨.disk node, 0, true, access⟩]⟩
  | .read i len =>
    match s.fds[i]? with
    | none => some s
    | some fd => some { s with fds := s.fds.set i (syscallReadDisk s.volume fd node len).1 }
  | .write i str =>
    match s.fds[i]? with
    | none => some s
    | some fd =>
      let written := syscallWriteDisk s.volume fd node str
      some ⟨written.1, s.fds.set i written.2.1⟩
  | .dup i => some { s with fds := s.fds ++ (s.fds[i]?).toList }
  | .fork is => some { s with fds := s.fds ++ is.filterMap fun i => s.fds[i]? }
  | .close i => some { s with fds := s.fds.eraseIdx i }

/-- Lengths are not negative, the end of a write is a word, and there is room on the disk when the file has to be
moved. -/
def Supplied (node : ℕ) (s : FileState) : Act → Prop
  | .read _ len => len < 2 ^ 31
  | .write i str => ∀ fd, s.fds[i]? = some fd → fd.pos + str.length < 2 ^ 32 ∧
      (512 * (s.volume.inodes node).alloc < fd.pos + str.length →
        s.volume.ballocPtr + sectorsFor fd.pos str.length < 2 ^ 28)
  | _ => True

/-- A read at `pos` returns the bytes up to its own end or the file's, and reads sectors of the file's extent. -/
def Exact (s : Volume) (node : ℕ) (fd : Fd) (len : ℕ) : Prop :=
  let count := min len ((s.inodes node).size - fd.pos)
  let op := inodeCalculateOperationBounds (s.inodes node) fd.pos len
  (syscallReadDisk s fd node len).2.1 = count ∧
  (syscallReadDisk s fd node len).2.2 = slice (content s.disk (s.inodes node).index) fd.pos count ∧
    (len ≠ 0 → ∀ sec, op.secFrom ≤ sec → sec < op.secFrom + op.secRead →
      (s.inodes node).index < sec ∧ sec ≤ (s.inodes node).index + (s.inodes node).alloc)

/-- The file and its parent lie apart on the disk, the disk holds the file's header, and the positions are words. -/
structure Sound (node par : ℕ) (s : FileState) : Prop where
  ne : par ≠ node
  placed : Placed s.volume {node, par}
  header : inodeFetch s.volume.disk (s.volume.inodes node).index = (s.volume.inodes node).toHeader
  valid : (s.volume.inodes node).isvalid ≠ 0
  parent : s.fds ≠ [] → (s.volume.inodes node).parent = some par
  words : ∀ fd ∈ s.fds, fd.pos < 2 ^ 32

variable {node par : ℕ} {gparent : Option ℕ} {s t : FileState} {fd : Fd} {len : ℕ}

theorem Sound.fits (h : Sound node par s) : Fits (s.volume.inodes node).toHeader := h.placed.fits (Or.inl rfl)

theorem Sound.headerWords (h : Sound node par s) : Words (s.volume.inodes node).toHeader := by
  rw [← h.header]
  exact words_fetch _ _

theorem findFile_eq (h : Sound node par s) : findFile node s = s.volume := by
  have hsame : withHeader (s.volume.inodes node) (inodeFetch s.volume.disk (s.volume.inodes node).index) =
      s.volume.inodes node := by
    rw [h.header]
    rfl
  unfold findFile setInode
  beta_reduce
  rw [hsame, Function.update_eq_self, ite_self]

/-- What the calls keep of the volume. -/
structure Kept (node par : ℕ) (v : Volume) : Prop where
  placed : Placed v {node, par}
  header : inodeFetch v.disk (v.inodes node).index = (v.inodes node).toHeader
  valid : (v.inodes node).isvalid ≠ 0

/-- The file stays in its place or moves behind all others, and the parent stays. -/
theorem Kept.change {v w : Volume} (h : Kept node par v) (hne : par ≠ node)
    (hpar : (w.inodes par).toHeader = (v.inodes par).toHeader) (hptr : v.ballocPtr ≤ w.ballocPtr)
    (hlimit : w.ballocPtr ≤ 2 ^ 28)
    (hplace : (w.inodes node).index = (v.inodes node).index ∧ (w.inodes node).alloc ≤ (v.inodes node).alloc ∨
      v.ballocPtr ≤ (w.inodes node).index)
    (hbelow : (w.inodes node).index + (w.inodes node).alloc < w.ballocPtr)
    (hroom : (w.inodes node).size ≤ 512 * (w.inodes node).alloc) (hword : (w.inodes node).size < 2 ^ 32)
    (hheader : inodeFetch w.disk (w.inodes node).index = (w.inodes node).toHeader)
    (hvalid : (w.inodes node).isvalid ≠ 0) : Kept node par w := by
  have hstart := h.placed.start node (Or.inl rfl)
  have hnodeBelow := h.placed.below node (Or.inl rfl)
  have hparBelow := h.placed.below par (Or.inr rfl)
  have hapart := h.placed.disjoint par (Or.inr rfl) node (Or.inl rfl) hne
  have hindex : (w.inodes par).index = (v.inodes par).index := congrArg Header.index hpar
  have halloc : (w.inodes par).alloc = (v.inodes par).alloc := congrArg Header.alloc hpar
  have hsize : (w.inodes par).size = (v.inodes par).size := congrArg Header.size hpar
  refine ⟨⟨hlimit, ?_, ?_, ?_, ?_, ?_⟩, hheader, hvalid⟩
  · rintro p (rfl | rfl)
    · omega
    · rw [hindex]
      exact h.placed.start p (Or.inr rfl)
  · rintro p (rfl | rfl)
    · exact hbelow
    · omega
  · rintro p (rfl | rfl)
    · exact hroom
    · rw [hsize, halloc]
      exact h.placed.room p (Or.inr rfl)
  · rintro p (rfl | rfl)
    · exact hword
    · rw [hsize]
      exact h.placed.word p (Or.inr rfl)
  · rintro p (rfl | rfl) q (rfl | rfl) hpq
    · exact absurd rfl hpq
    · omega
    · omega
    · exact absurd rfl hpq

theorem openFile_kept (h : Sound node par s) (truncate : Bool) :
    Kept node par (openFile node par gparent s.volume truncate) := by
  have hkept : Kept node par s.volume := ⟨h.placed, h.header, h.valid⟩
  have hbelow := h.placed.below node (Or.inl rfl)
  have hlimit := h.placed.limit
  cases truncate with
  | false =>
    have hopen : openFile node par gparent s.volume false =
        setInode s.volume node fun n => { n with parent := some par } :=
      rfl
    have hnode : ((openFile node par gparent s.volume false).inodes node).toHeader =
        (s.volume.inodes node).toHeader := by
      rw [hopen, setInode_self]
    rw [hopen] at hnode ⊢
    refine hkept.change h.ne (by rw [setInode_other _ h.ne]) le_rfl hlimit ?_ ?_ ?_ ?_ ?_ ?_
    all_goals rw [setInode_self]
    · exact Or.inl ⟨rfl, le_rfl⟩
    · exact hbelow
    · exact h.placed.room node (Or.inl rfl)
    · exact h.placed.word node (Or.inl rfl)
    · exact h.header
    · exact h.valid
  | true =>
    have hopen : openFile node par gparent s.volume true =
        setInode (inodeTruncate s.volume node) node fun n => { n with parent := some par } := rfl
    have hnode : (inodeTruncate s.volume node).inodes node = { s.volume.inodes node with alloc := 0, size := 0 } := by
      rw [inodeTruncate, inodeUpdate_inodes, setInode_self]
    have hpar : (inodeTruncate s.volume node).inodes par = s.volume.inodes par := by
      rw [inodeTruncate, inodeUpdate_inodes, setInode_other _ h.ne]
    have hwords := h.headerWords
    have hfetch : inodeFetch (inodeTruncate s.volume node).disk ((inodeTruncate s.volume node).inodes node).index =
        ((inodeTruncate s.volume node).inodes node).toHeader := by
      rw [inodeTruncate, inodeUpdate_inodes]
      refine inodeFetch_inodeUpdate ?_ ?_
      · rw [setInode_self]
        change (s.volume.inodes node).index < _
        omega
      · rw [setInode_self]
        exact ⟨hwords.isvalid, hwords.index, Nat.two_pow_pos 32, Nat.two_pow_pos 32, hwords.childCount, hwords.type⟩
    rw [hopen]
    refine hkept.change h.ne (by rw [setInode_other _ h.ne, hpar]) le_rfl hlimit ?_ ?_ ?_ ?_ ?_ ?_
    all_goals rw [setInode_self]
    · rw [hnode]
      exact Or.inl ⟨rfl, Nat.zero_le _⟩
    · rw [hnode]
      change (s.volume.inodes node).index + 0 < s.volume.ballocPtr
      omega
    · rw [hnode]
      exact Nat.zero_le _
    · rw [hnode]
      exact Nat.two_pow_pos 32
    · exact hfetch
    · rw [hnode]
      exact h.valid

/-- A write at any place, also behind the end of the file. -/
theorem inodeWrite_kept {v : Volume} {str : List UInt8} {pos : ℕ} (h : Kept node par v) (hne : par ≠ node)
    (hto : pos + str.length < 2 ^ 32) (hsupplied : 512 * (v.inodes node).alloc < pos + str.length →
      v.ballocPtr + sectorsFor pos str.length < 2 ^ 28) :
    Kept node par (inodeWrite v node pos str (some par)) ∧
      ((inodeWrite v node pos str (some par)).inodes node).parent = (v.inodes node).parent := by
  rcases List.eq_nil_or_concat' str with rfl | hstr
  · rw [inodeWrite_nil]
    exact ⟨h, rfl⟩
  have hbuf : 0 < str.length := by
    obtain ⟨front, c, rfl⟩ := hstr
    simp
  have hf : Fits (v.inodes node).toHeader := h.placed.fits (Or.inl rfl)
  have hwords : Words (v.inodes node).toHeader := by
    rw [← h.header]
    exact words_fetch _ _
  have hbelow := h.placed.below node (Or.inl rfl)
  have hstart := h.placed.start node (Or.inl rfl)
  have hlimit := h.placed.limit
  have hsize := hf.room
  have hword := hf.word
  rcases Nat.lt_or_ge (512 * (v.inodes node).alloc) (pos + str.length) with hover | hroom
  · have hplace := hsupplied hover
    have hparStart := h.placed.start par (Or.inr rfl)
    have habove (p : ℕ) (hp : some par = some p) : Above v p node := by
      obtain rfl := Option.some.inj hp
      exact ⟨hne, h.placed.fits (Or.inr rfl), by omega, h.placed.below par (Or.inr rfl)⟩
    obtain ⟨r, hrel, hst⟩ := inodeWrite_relocated (by omega) hf hbelow hbuf hto hover hplace habove
    generalize inodeWrite v node pos str (some par) = t at hst ⊢
    have hr : r.inodes node = withExtent (v.inodes node) v.ballocPtr (sectorsFor pos str.length) := by
      rw [hrel.inodes, Function.update_self]
    have hnode : t.inodes node = withSize (withExtent (v.inodes node) v.ballocPtr (sectorsFor pos str.length))
        (max (v.inodes node).size (pos + str.length)) := by
      rw [hst.inodes, Function.update_self, hr]
      rfl
    have hpar : t.inodes par = v.inodes par := by
      rw [hst.inodes, Function.update_of_ne hne, hrel.inodes, Function.update_of_ne hne]
    have hptr : t.ballocPtr = v.ballocPtr + (sectorsFor pos str.length + 1) := by rw [hst.ballocPtr, hrel.ballocPtr]
    have hsec : pos + str.length ≤ 512 * sectorsFor pos str.length := by
      unfold sectorsFor
      omega
    have hrwords : Words (r.inodes node).toHeader := by
      rw [← hrel.header hwords]
      exact words_fetch _ _
    have hfetch := hst.header hrwords (by
      have hi : (r.inodes node).index = v.ballocPtr := by rw [hr]; rfl
      rw [hi]
      exact hrel.header hwords)
    refine ⟨h.change hne (by rw [hpar]) (by omega) (by omega) ?_ ?_ ?_ ?_ ?_ ?_, by rw [hnode]; rfl⟩
    · rw [hnode]
      exact Or.inr le_rfl
    · rw [hnode, hptr]
      simp only [withSize, withExtent]
      omega
    · rw [hnode]
      simp only [withSize, withExtent]
      omega
    · rw [hnode]
      exact max_lt hword hto
    · have hi : (t.inodes node).index = (r.inodes node).index := by rw [hnode, hr]; rfl
      rw [hi]
      exact hfetch
    · rw [hnode]
      exact h.valid
  · have hst := @inodeWrite_within v node pos str (some par) hf hbuf hto hroom
    generalize inodeWrite v node pos str (some par) = t at hst ⊢
    have hnode : t.inodes node = withSize (v.inodes node) (max (v.inodes node).size (pos + str.length)) := by
      rw [hst.inodes, Function.update_self]
    have hpar : t.inodes par = v.inodes par := by rw [hst.inodes, Function.update_of_ne hne]
    have hfetch := hst.header hwords h.header
    have hi : (t.inodes node).index = (v.inodes node).index := by rw [hnode]; rfl
    refine ⟨h.change hne (by rw [hpar]) hst.ballocPtr.ge (by rw [hst.ballocPtr]; exact hlimit) ?_ ?_ ?_ ?_ ?_ ?_,
      by rw [hnode]; rfl⟩
    · rw [hnode]
      exact Or.inl ⟨rfl, le_rfl⟩
    · rw [hnode, hst.ballocPtr]
      exact hbelow
    · rw [hnode]
      exact max_le hsize hroom
    · rw [hnode]
      exact max_lt hword hto
    · rw [hi]
      exact hfetch
    · rw [hnode]
      exact h.valid

theorem Sound.of_kept {v : Volume} {fds : List Fd} (hne : par ≠ node) (h : Kept node par v)
    (hparent : fds ≠ [] → (v.inodes node).parent = some par) (hwords : ∀ fd ∈ fds, fd.pos < 2 ^ 32) :
    Sound node par ⟨v, fds⟩ := ⟨hne, h.placed, h.header, h.valid, hparent, hwords⟩

theorem Sound.kept (h : Sound node par s) : Kept node par s.volume := ⟨h.placed, h.header, h.valid⟩

theorem advance_word (fd : Fd) (ret : ℤ) : (advance fd ret).pos < 2 ^ 32 := by
  have hlt := Int.emod_lt_of_pos (fd.pos + ret) (show (0 : ℤ) < 2 ^ 32 by decide)
  have hnonneg := Int.emod_nonneg (fd.pos + ret) (show (2 ^ 32 : ℤ) ≠ 0 by decide)
  change ((fd.pos + ret) % 2 ^ 32).toNat < 2 ^ 32
  omega

/-- Every call keeps what is known. -/
theorem sound_perform (h : Sound node par s) {act : Act} (hs : Supplied node s act)
    (hact : perform node par gparent s act = some t) : Sound node par t := by
  have hset {i : ℕ} {fd : Fd} (hword : fd.pos < 2 ^ 32) : ∀ fd' ∈ s.fds.set i fd, fd'.pos < 2 ^ 32 := by
    intro fd' hfd'
    rcases List.mem_or_eq_of_mem_set hfd' with hold | rfl
    · exact h.words fd' hold
    · exact hword
  cases act with
  | opened truncate access =>
    obtain rfl := Option.some.inj hact
    rw [findFile_eq h]
    refine Sound.of_kept h.ne (openFile_kept h truncate) (fun _ => by rw [openFile, setInode_self]) fun fd hfd => ?_
    rcases List.mem_append.mp hfd with hold | hnew
    · exact h.words fd hold
    · rw [List.mem_singleton.mp hnew]
      exact Nat.two_pow_pos 32
  | read i len =>
    rw [perform] at hact
    cases hfd : s.fds[i]? with
    | none =>
      rw [hfd] at hact
      exact Option.some.inj hact ▸ h
    | some fd =>
      rw [hfd] at hact
      obtain rfl := Option.some.inj hact
      refine Sound.of_kept h.ne h.kept (fun _ => h.parent fun hnil => ?_) (hset ?_)
      · rw [hnil] at hfd
        cases hfd
      · simp only [syscallReadDisk]
        split_ifs
        · exact h.words fd (List.mem_of_getElem? hfd)
        · exact advance_word _ _
  | write i str =>
    rw [perform] at hact
    cases hfd : s.fds[i]? with
    | none =>
      rw [hfd] at hact
      exact Option.some.inj hact ▸ h
    | some fd =>
      rw [hfd] at hact
      obtain rfl := Option.some.inj hact
      have hparent := h.parent fun hnil => by
        rw [hnil] at hfd
        cases hfd
      obtain ⟨hto, hroom⟩ := hs fd hfd
      obtain ⟨hkept, hparent'⟩ := inodeWrite_kept h.kept h.ne hto hroom
      have hlength : ((str.length : ℕ) : ℤ) ≠ fsErrDeleted := by
        rw [fsErrDeleted]
        omega
      have hwrite : syscallWriteDisk s.volume fd node str =
          (inodeWrite s.volume node fd.pos str (some par), advance fd str.length, (str.length : ℤ)) := by
        simp only [syscallWriteDisk, fsWrite, if_pos h.valid, hparent, if_neg hlength]
      simp only [hwrite]
      exact Sound.of_kept h.ne hkept (fun _ => hparent'.trans hparent) (hset (advance_word _ _))
  | dup i =>
    obtain rfl := Option.some.inj hact
    refine Sound.of_kept h.ne h.kept (fun hne => h.parent fun hnil => hne ?_) fun fd hfd => ?_
    · rw [hnil]
      rfl
    · rcases List.mem_append.mp hfd with hold | hnew
      · exact h.words fd hold
      · exact h.words fd (List.mem_of_getElem? (Option.mem_toList.mp hnew))
  | fork is =>
    obtain rfl := Option.some.inj hact
    refine Sound.of_kept h.ne h.kept (fun hne => h.parent fun hnil => hne ?_) fun fd hfd => ?_
    · rw [hnil]
      simp
    · rcases List.mem_append.mp hfd with hold | hnew
      · exact h.words fd hold
      · obtain ⟨i, -, hi⟩ := List.mem_filterMap.mp hnew
        exact h.words fd (List.mem_of_getElem? hi)
  | close i =>
    obtain rfl := Option.some.inj hact
    refine Sound.of_kept h.ne h.kept (fun hne => h.parent fun hnil => hne ?_) fun fd hfd =>
      h.words fd (List.mem_of_mem_eraseIdx hfd)
    rw [hnil]
    rfl

end Eedox.FileReads
