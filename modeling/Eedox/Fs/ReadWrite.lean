import Eedox.Fs.Write

namespace Eedox.Fs

open Util Library.Bytes Ata Pathbuf Childtable

/-- The extents of the inodes are pairwise disjoint and lie between sector 2 and the allocation
pointer, on a disk with 28-bit sector numbers. -/
structure Placed (s : Volume) (nodes : Set ℕ) : Prop where
  limit : s.ballocPtr ≤ 2 ^ 28
  start : ∀ p ∈ nodes, 2 ≤ (s.inodes p).index
  below : ∀ p ∈ nodes, (s.inodes p).index + (s.inodes p).alloc < s.ballocPtr
  room : ∀ p ∈ nodes, (s.inodes p).size ≤ 512 * (s.inodes p).alloc
  word : ∀ p ∈ nodes, (s.inodes p).size < 2 ^ 32
  disjoint : ∀ p ∈ nodes, ∀ q ∈ nodes, p ≠ q →
    (s.inodes p).index + (s.inodes p).alloc < (s.inodes q).index ∨
      (s.inodes q).index + (s.inodes q).alloc < (s.inodes p).index

/-- A call of `inode_write` on an inode with its real parent, whose table names the inode's index, at
an offset inside the file. When the inode has to be moved there is room for it on the disk. -/
structure WriteCall (s : Volume) (nodes : Set ℕ) (node bytesFrom : ℕ) (buffer : List UInt8)
    (parent : Option ℕ) : Prop where
  placed : Placed s nodes
  mem : node ∈ nodes
  real : ∀ p, parent = some p → p ∈ nodes ∧ p ≠ node
  named : ∀ p, parent = some p → childtableGet ⟨slice (content s.disk (s.inodes p).index) 0
    (s.inodes p).size, (s.inodes p).alloc⟩ (nodeName s node) = (s.inodes node).index
  inside : bytesFrom ≤ (s.inodes node).size
  nonempty : 0 < buffer.length
  word : bytesFrom + buffer.length < 2 ^ 32
  room : 512 * (s.inodes node).alloc < bytesFrom + buffer.length →
    s.ballocPtr + sectorsFor bytesFrom buffer.length < 2 ^ 28

def fileBytes (s : Volume) (node : ℕ) : List UInt8 :=
  slice (content s.disk (s.inodes node).index) 0 (s.inodes node).size

/-- The file's new size, its bytes as a read of `n` bytes at `f` shows them, and the other files' bytes
as the same read shows them. -/
def ReadsBack (s t : Volume) (nodes : Set ℕ) (node bytesFrom : ℕ) (buffer : List UInt8)
    (parent : Option ℕ) (f n : ℕ) : Prop :=
  (t.inodes node).size = max (s.inodes node).size (bytesFrom + buffer.length) ∧
  inodeRead t (t.inodes node) f n = ((overlay (fileBytes s node) bytesFrom buffer).drop f).take n ∧
  ∀ q ∈ nodes, q ≠ node → parent ≠ some q → f ≤ (s.inodes q).size →
    inodeRead t (t.inodes q) f n = inodeRead s (s.inodes q) f n

theorem Placed.fits {s : Volume} {nodes : Set ℕ} {p : ℕ} (h : Placed s nodes) (hp : p ∈ nodes) :
    Fits (s.inodes p).toHeader :=
  ⟨(h.below p hp).trans_le h.limit, h.room p hp, h.word p hp⟩

theorem inodeRead_fileBytes {s : Volume} {node f n : ℕ} (hf : Fits (s.inodes node).toHeader)
    (hle : f ≤ (s.inodes node).size) (hn : f + n < 2 ^ 32) :
    inodeRead s (s.inodes node) f n = ((fileBytes s node).drop f).take n := by
  rw [inodeRead_eq hf hle hn, fileBytes, take_drop_slice]

/-- When `f + n` wraps, the clamp at the end of the file is missed and all `n` bytes are returned. -/
theorem length_inodeRead_wrap {s : Volume} {n : InodeT} {f count : ℕ} (hf : f ≤ n.size)
    (hw : n.size < 2 ^ 32) (hc : count < 2 ^ 32) (hwrap : 2 ^ 32 ≤ f + count) :
    (inodeRead s n f count).length = count := by
  have hto : (f + count) % 2 ^ 32 = f + count - 2 ^ 32 := by omega
  have hle : ¬ (f + count) % 2 ^ 32 > n.size := by omega
  have hne : ¬ count = 0 := by omega
  rw [inodeRead, if_neg hne]
  simp only [inodeCalculateOperationBounds, length_slice, if_neg hle]

structure Wrote (s t : Volume) (nodes : Set ℕ) (node bytesFrom : ℕ) (buffer : List UInt8)
    (parent : Option ℕ) : Prop where
  size : (t.inodes node).size = max (s.inodes node).size (bytesFrom + buffer.length)
  fits : Fits (t.inodes node).toHeader
  bytes : fileBytes t node = overlay (fileBytes s node) bytesFrom buffer
  other : ∀ q, q ≠ node → t.inodes q = s.inodes q
  kept : ∀ q ∈ nodes, q ≠ node → parent ≠ some q → fileBytes t q = fileBytes s q

theorem fileBytes_congr {s t : Volume} {q : ℕ} (hi : t.inodes q = s.inodes q)
    (hr : (s.inodes q).size ≤ 512 * (s.inodes q).alloc)
    (hd : ∀ sec, (s.inodes q).index < sec → sec ≤ (s.inodes q).index + (s.inodes q).alloc →
      t.disk sec = s.disk sec) : fileBytes t q = fileBytes s q := by
  rw [fileBytes, fileBytes, hi]
  apply slice_congr
  intro k _ hk
  rw [content, content, hd _ (by omega) (by omega)]

theorem wrote_inside {s : Volume} {nodes : Set ℕ} {node bytesFrom : ℕ} {buffer : List UInt8}
    {parent : Option ℕ} (hc : WriteCall s nodes node bytesFrom buffer parent)
    (hroom : bytesFrom + buffer.length ≤ 512 * (s.inodes node).alloc) :
    Wrote s (inodeWrite s node bytesFrom buffer parent) nodes node bytesFrom buffer parent := by
  have hf := hc.placed.fits hc.mem
  have hst := @inodeWrite_stored _ _ _ _ parent hf hc.inside hc.word hroom
  generalize inodeWrite s node bytesFrom buffer parent = t at hst ⊢
  have hnode : t.inodes node = withSize (s.inodes node)
      (max (s.inodes node).size (bytesFrom + buffer.length)) := by
    rw [hst.inodes, Function.update_self]
  have hother (q : ℕ) (hq : q ≠ node) : t.inodes q = s.inodes q := by
    rw [hst.inodes, Function.update_of_ne hq]
  refine ⟨by rw [hnode]; rfl, ?_, ?_, hother, fun q hq hne _ => ?_⟩
  · rw [hnode]
    exact ⟨hf.disk, max_le hf.room hroom, max_lt hf.word hc.word⟩
  · rw [fileBytes, fileBytes, hnode, overlay_slice hc.inside]
    apply slice_congr
    intro k _ hk
    have hr := hf.room
    simp only [withSize] at hk ⊢
    exact hst.content k (by omega)
  · apply fileBytes_congr (hother q hne) (hc.placed.room q hq)
    intro sec h1 h2
    have hsep := hc.placed.disjoint q hq node hc.mem hne
    exact hst.frame sec (by omega)

theorem wrote_moved {s : Volume} {nodes : Set ℕ} {node bytesFrom : ℕ} {buffer : List UInt8}
    {parent : Option ℕ} (hc : WriteCall s nodes node bytesFrom buffer parent)
    (hover : 512 * (s.inodes node).alloc < bytesFrom + buffer.length) :
    Wrote s (inodeWrite s node bytesFrom buffer parent) nodes node bytesFrom buffer parent := by
  have hf := hc.placed.fits hc.mem
  have hbelow := hc.placed.below node hc.mem
  have hstart := hc.placed.start node hc.mem
  have hroom := hc.room hover
  have habove (p : ℕ) (hp : parent = some p) : Above s p node := by
    obtain ⟨hpm, hne⟩ := hc.real p hp
    have := hc.placed.start p hpm
    exact ⟨hne, hc.placed.fits hpm, by omega, hc.placed.below p hpm⟩
  obtain ⟨r, hrel, hst⟩ := inodeWrite_relocated (by omega) hf hbelow hc.nonempty hc.word hover hroom habove
  generalize inodeWrite s node bytesFrom buffer parent = t at hst ⊢
  have hr : r.inodes node =
      withExtent (s.inodes node) s.ballocPtr (sectorsFor bytesFrom buffer.length) := by
    rw [hrel.inodes, Function.update_self]
  have hnode : t.inodes node = withSize (withExtent (s.inodes node) s.ballocPtr
      (sectorsFor bytesFrom buffer.length)) (max (s.inodes node).size (bytesFrom + buffer.length)) := by
    rw [hst.inodes, Function.update_self, hr]
    rfl
  have hother (q : ℕ) (hq : q ≠ node) : t.inodes q = s.inodes q := by
    rw [hst.inodes, Function.update_of_ne hq, hrel.inodes, Function.update_of_ne hq]
  have hfr := hf.room
  have hsec : bytesFrom + buffer.length ≤ 512 * sectorsFor bytesFrom buffer.length := by
    unfold sectorsFor
    omega
  refine ⟨by rw [hnode]; rfl, ?_, ?_, hother, fun q hq hne hpq => ?_⟩
  · rw [hnode]
    refine ⟨hroom, ?_, max_lt hf.word hc.word⟩
    simp only [withSize, withExtent]
    omega
  · rw [fileBytes, fileBytes, hnode, overlay_slice hc.inside]
    have hmax : max (s.inodes node).size (bytesFrom + buffer.length) = bytesFrom + buffer.length := by
      omega
    apply slice_congr
    intro k _ hk
    simp only [withSize, withExtent, hmax] at hk ⊢
    have hk' := hst.content k (by rw [hr]; simp only [withExtent]; omega)
    rw [hr] at hk'
    simp only [withExtent] at hk'
    rw [hk']
    by_cases hb : bytesFrom ≤ k ∧ k < bytesFrom + buffer.length
    · rw [blit_inside hb.1 hb.2, blit_inside hb.1 hb.2]
    · have hin := hc.inside
      rw [blit_outside (by omega), blit_outside (by omega)]
      exact hrel.content k (by omega)
  · apply fileBytes_congr (hother q hne) (hc.placed.room q hq)
    intro sec h1 h2
    have hqb := hc.placed.below q hq
    have hqs := hc.placed.start q hq
    have ht := hst.frame sec (by rw [hr]; simp only [withExtent]; omega)
    rw [ht]
    refine hrel.frame sec (by omega) (by omega) (fun p hp => ?_) (by omega)
    obtain ⟨hpm, -⟩ := hc.real p hp
    have hsep := hc.placed.disjoint q hq p hpm (fun he => hpq (he ▸ hp))
    omega

theorem wrote {s : Volume} {nodes : Set ℕ} {node bytesFrom : ℕ} {buffer : List UInt8}
    {parent : Option ℕ} (hc : WriteCall s nodes node bytesFrom buffer parent) :
    Wrote s (inodeWrite s node bytesFrom buffer parent) nodes node bytesFrom buffer parent := by
  rcases Nat.lt_or_ge (512 * (s.inodes node).alloc) (bytesFrom + buffer.length) with h | h
  · exact wrote_moved hc h
  · exact wrote_inside hc h

/-- A read shows the file with the buffer laid over it, and the other files as they were, exactly when
its end does not wrap around. -/
theorem readsBack_iff (s : Volume) (nodes : Set ℕ) (node bytesFrom : ℕ) (buffer : List UInt8)
    (parent : Option ℕ) (f n : ℕ) (hc : WriteCall s nodes node bytesFrom buffer parent)
    (hf : f ≤ max (s.inodes node).size (bytesFrom + buffer.length)) (hn : n < 2 ^ 32) :
    ReadsBack s (inodeWrite s node bytesFrom buffer parent) nodes node bytesFrom buffer parent f n ↔
      f + n < 2 ^ 32 := by
  have hw := wrote hc
  generalize inodeWrite s node bytesFrom buffer parent = t at hw ⊢
  have hsize := hw.size
  have hword := hw.fits.word
  constructor
  · rintro ⟨-, hread, -⟩
    by_contra hwrap
    have hlen := congrArg List.length hread
    rw [length_inodeRead_wrap (by omega) hword hn (by omega), ← hw.bytes] at hlen
    simp only [fileBytes, List.length_take, List.length_drop, length_slice] at hlen
    omega
  · intro hfn
    refine ⟨hsize, ?_, fun q hq hne hpq hfq => ?_⟩
    · rw [inodeRead_fileBytes hw.fits (by omega) hfn, hw.bytes]
    · have hi := hw.other q hne
      have hfits := hc.placed.fits hq
      rw [inodeRead_fileBytes (by rwa [hi]) (by rwa [hi]) hfn, inodeRead_fileBytes hfits hfq hfn,
        hw.kept q hq hne hpq]

def fileName : Str := ⟨[97], nul_a⟩

/-- A root directory in the sectors 2 and 3 with a file of one byte in the sectors 4 and 5. -/
def oneFile : Volume where
  disk := fun s o => if s = 3 then bytesOf (encode [(fileName, 4)]) o else 0
  ballocPtr := 6
  inodes := fun p =>
    if p = 0 then ⟨⟨1, 2, 6, 1, 1, inodeTypeDir⟩, 2, pathbufRoot, none⟩
    else ⟨⟨1, 4, 1, 1, 0, inodeTypeFile⟩, 1, pathbufChild pathbufRoot fileName, some 0⟩
  inodelist := [0, 1]
  nextInode := 2
  freed := []
  junk := fun _ => 0
  tail := fun _ _ => 0
  stray := fileName

theorem oneFile_writeCall : WriteCall oneFile {0, 1} 1 0 [7] (some 0) := by
  refine ⟨⟨by decide, ?_, ?_, ?_, ?_, ?_⟩, Or.inr rfl, ?_, ?_, by decide, by decide, by decide, by decide⟩
  · rintro p (rfl | rfl) <;> decide
  · rintro p (rfl | rfl) <;> decide
  · rintro p (rfl | rfl) <;> decide
  · rintro p (rfl | rfl) <;> decide
  · rintro p (rfl | rfl) q (rfl | rfl) <;> decide
  · rintro p hp
    obtain rfl := Option.some.inj hp
    exact ⟨Or.inl rfl, by decide⟩
  · rintro p hp
    obtain rfl := Option.some.inj hp
    exact @childtableGet_encode [] [] fileName 4 1 (by simp)

theorem readsBack_one :
    ReadsBack oneFile (inodeWrite oneFile 1 0 [7] (some 0)) {0, 1} 1 0 [7] (some 0) 1 5 :=
  (readsBack_iff oneFile {0, 1} 1 0 [7] (some 0) 1 5 oneFile_writeCall (by decide) (by decide)).mpr
    (by decide)

/-- A read at offset 1 of the one-byte file, with the length -1 as a 32-bit word. -/
theorem wrapping_read : ¬ ∀ (s : Volume) (nodes : Set ℕ) (node bytesFrom : ℕ) (buffer : List UInt8)
    (parent : Option ℕ) (f n : ℕ), WriteCall s nodes node bytesFrom buffer parent →
    f ≤ max (s.inodes node).size (bytesFrom + buffer.length) → n < 2 ^ 32 →
    ReadsBack s (inodeWrite s node bytesFrom buffer parent) nodes node bytesFrom buffer parent f n := by
  intro h
  have hr := h oneFile {0, 1} 1 0 [7] (some 0) 1 (2 ^ 32 - 1) oneFile_writeCall (by decide) (by decide)
  have hw := wrote oneFile_writeCall
  generalize inodeWrite oneFile 1 0 [7] (some 0) = t at hr hw
  have hsize : (t.inodes 1).size = 1 := hw.size
  have hlen := congrArg List.length hr.2.1
  rw [length_inodeRead_wrap (by omega) (by omega) (by omega) (by omega), ← hw.bytes] at hlen
  simp only [fileBytes, List.length_take, List.length_drop, length_slice] at hlen
  omega

end Eedox.Fs
