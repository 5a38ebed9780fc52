import Eedox.Fs.Inode

namespace Eedox.Fs

open Util Library.Bytes Ata Pathbuf Childtable

def content (d : Disk) (index : ℕ) : ℕ → UInt8 := fun k => d (index + 1 + k / 512) (k % 512)

structure Fits (h : Header) : Prop where
  disk : h.index + h.alloc < 2 ^ 28
  room : h.size ≤ 512 * h.alloc
  word : h.size < 2 ^ 32

structure Words (h : Header) : Prop where
  isvalid : h.isvalid < 2 ^ 32
  index : h.index < 2 ^ 32
  size : h.size < 2 ^ 32
  alloc : h.alloc < 2 ^ 32
  childCount : h.childCount < 2 ^ 32
  type : h.type < 2 ^ 32

theorem words_fetch (d : Disk) (index : ℕ) : Words (inodeFetch d index) :=
  ⟨wordAt_lt _ _, wordAt_lt _ _, wordAt_lt _ _, wordAt_lt _ _, wordAt_lt _ _, wordAt_lt _ _⟩

theorem inodeFetch_congr {d e : Disk} {index : ℕ} (h : ∀ o, o < 512 → d (lba index) o = e (lba index) o) :
    inodeFetch d index = inodeFetch e index := by
  have hw (k : ℕ) (hk : k + 4 ≤ 512) : wordAt (ataRead d index) k = wordAt (ataRead e index) k :=
    wordAt_congr fun j _ hj => h j (by omega)
  simp only [inodeFetch, hw 0 (by omega), hw 4 (by omega), hw 8 (by omega), hw 12 (by omega),
    hw 16 (by omega), hw 20 (by omega)]

theorem wordAt_inodeImage (tail : InodeT → ℕ → UInt8) (node : InodeT) :
    wordAt (inodeImage tail node) 0 = node.isvalid % 2 ^ 32 ∧
    wordAt (inodeImage tail node) 4 = node.index % 2 ^ 32 ∧
    wordAt (inodeImage tail node) 8 = node.size % 2 ^ 32 ∧
    wordAt (inodeImage tail node) 12 = node.alloc % 2 ^ 32 ∧
    wordAt (inodeImage tail node) 16 = node.childCount % 2 ^ 32 ∧
    wordAt (inodeImage tail node) 20 = node.type % 2 ^ 32 := by
  unfold inodeImage
  simp (disch := omega) only [wordAt_putWord, wordAt_putWord_of_disjoint, and_self]

theorem inodeFetch_of_image {d : Disk} {index : ℕ} {tail : InodeT → ℕ → UInt8} {node : InodeT}
    (hw : Words node.toHeader) (h : ∀ o, o < 512 → d (lba index) o = inodeImage tail node o) :
    inodeFetch d index = node.toHeader := by
  have hi := wordAt_inodeImage tail node
  have he (k : ℕ) (hk : k + 4 ≤ 512) : wordAt (ataRead d index) k = wordAt (inodeImage tail node) k :=
    wordAt_congr fun j _ hj => h j (by omega)
  ext
  · simp only [inodeFetch, he 0 (by omega), hi, Nat.mod_eq_of_lt hw.isvalid]
  · simp only [inodeFetch, he 4 (by omega), hi, Nat.mod_eq_of_lt hw.index]
  · simp only [inodeFetch, he 8 (by omega), hi, Nat.mod_eq_of_lt hw.size]
  · simp only [inodeFetch, he 12 (by omega), hi, Nat.mod_eq_of_lt hw.alloc]
  · simp only [inodeFetch, he 16 (by omega), hi, Nat.mod_eq_of_lt hw.childCount]
  · simp only [inodeFetch, he 20 (by omega), hi, Nat.mod_eq_of_lt hw.type]

theorem inodeUpdate_other {s : Volume} {node sec : ℕ} (hi : (s.inodes node).index < 2 ^ 28)
    (h : sec ≠ (s.inodes node).index) : (inodeUpdate s node).disk sec = s.disk sec :=
  ataWrite_other (by rwa [lba_of_lt hi])

theorem inodeUpdate_self {s : Volume} {node o : ℕ} (hi : (s.inodes node).index < 2 ^ 28) (ho : o < 512) :
    (inodeUpdate s node).disk (s.inodes node).index o = inodeImage s.tail (s.inodes node) o :=
  ataWrite_self hi ho

theorem inodeFetch_inodeUpdate {s : Volume} {node : ℕ} (hi : (s.inodes node).index < 2 ^ 28)
    (hw : Words (s.inodes node).toHeader) :
    inodeFetch (inodeUpdate s node).disk (s.inodes node).index = (s.inodes node).toHeader := by
  apply inodeFetch_of_image hw
  intro o ho
  rw [lba_of_lt hi, inodeUpdate_self hi ho]

theorem sub32_of_le {a b : ℕ} (h : b ≤ a) (ha : a < 2 ^ 32) : sub32 a b = a - b := by
  unfold sub32
  omega

theorem inodeCalculateOperationBounds_eq {n : InodeT} {bytesFrom count : ℕ} (hf : Fits n.toHeader)
    (hfrom : bytesFrom ≤ n.size) (hcount : 0 < count) (hto : bytesFrom + count < 2 ^ 32) :
    inodeCalculateOperationBounds n bytesFrom count =
      { secFrom := n.index + 1 + bytesFrom / 512
        secCount := (bytesFrom + count - 1) / 512 + 1 - bytesFrom / 512
        secOverflow := (bytesFrom + count - 1) / 512 + 1 - n.alloc
        secRead := min ((bytesFrom + count - 1) / 512 + 1) n.alloc - bytesFrom / 512
        bytesOverflow := bytesFrom + count - n.size
        bytesRead := min count (n.size - bytesFrom) } := by
  have hd := hf.disk
  have hr := hf.room
  have hw := hf.word
  have hto' : (bytesFrom + count) % 2 ^ 32 = bytesFrom + count := Nat.mod_eq_of_lt hto
  have hone : sub32 (bytesFrom + count) 1 = bytesFrom + count - 1 := sub32_of_le (by omega) hto
  have hsf : (n.index + 1 + bytesFrom / 512) % 2 ^ 32 = n.index + 1 + bytesFrom / 512 :=
    Nat.mod_eq_of_lt (by omega)
  have hst : (n.index + 1 + (bytesFrom + count - 1) / 512 + 1) % 2 ^ 32 =
      n.index + 1 + (bytesFrom + count - 1) / 512 + 1 := Nat.mod_eq_of_lt (by omega)
  have hse : (n.index + 1 + n.alloc) % 2 ^ 32 = n.index + 1 + n.alloc := Nat.mod_eq_of_lt (by omega)
  have hle : bytesFrom / 512 ≤ (bytesFrom + count - 1) / 512 := Nat.div_le_div_right (by omega)
  have hlea : bytesFrom / 512 ≤ n.alloc := by omega
  simp only [inodeCalculateOperationBounds, hto', hone, hsf, hst, hse, OperationBounds.mk.injEq]
  refine ⟨?_, trivial, ?_, ?_, ?_, ?_⟩
  · split_ifs with h
    · rw [sub32_of_le hfrom hw]
      omega
    · omega
  · rw [sub32_of_le (by omega) (by omega)]
    omega
  · split_ifs with h
    · rw [sub32_of_le (by omega) (by omega)]
      omega
    · omega
  · split_ifs with h
    · rw [sub32_of_le (by omega) (by omega)]
      omega
    · rw [sub32_of_le (by omega) (by omega)]
      omega
  · split_ifs with h
    · rw [sub32_of_le (by omega) hto]
    · omega

/-- The bounds of a write, which may also start behind the end of the file. -/
theorem storeBounds_eq {n : InodeT} {bytesFrom count : ℕ} (hd : n.index + n.alloc < 2 ^ 28)
    (hcount : 0 < count) (hto : bytesFrom + count < 2 ^ 32) :
    let op := inodeCalculateOperationBounds n bytesFrom count
    op.secFrom = n.index + 1 + bytesFrom / 512 ∧
      op.secCount = (bytesFrom + count - 1) / 512 + 1 - bytesFrom / 512 ∧
      op.secOverflow = (bytesFrom + count - 1) / 512 + 1 - n.alloc ∧
      op.bytesOverflow = bytesFrom + count - n.size ∧
      (bytesFrom + count ≤ 512 * n.alloc → op.secRead = op.secCount) := by
  have hto' : (bytesFrom + count) % 2 ^ 32 = bytesFrom + count := Nat.mod_eq_of_lt hto
  have hone : sub32 (bytesFrom + count) 1 = bytesFrom + count - 1 := sub32_of_le (by omega) hto
  have hsf : (n.index + 1 + bytesFrom / 512) % 2 ^ 32 = n.index + 1 + bytesFrom / 512 :=
    Nat.mod_eq_of_lt (by omega)
  have hst : (n.index + 1 + (bytesFrom + count - 1) / 512 + 1) % 2 ^ 32 =
      n.index + 1 + (bytesFrom + count - 1) / 512 + 1 := Nat.mod_eq_of_lt (by omega)
  have hse : (n.index + 1 + n.alloc) % 2 ^ 32 = n.index + 1 + n.alloc := Nat.mod_eq_of_lt (by omega)
  have hle : bytesFrom / 512 ≤ (bytesFrom + count - 1) / 512 := Nat.div_le_div_right (by omega)
  simp only [inodeCalculateOperationBounds, hto', hone, hsf, hst, hse]
  refine ⟨trivial, ?_, ?_, ?_, fun hroom => ?_⟩
  · rw [sub32_of_le (by omega) (by omega)]
    omega
  · split_ifs with h
    · rw [sub32_of_le (by omega) (by omega)]
      omega
    · omega
  · split_ifs with h
    · rw [sub32_of_le (by omega) hto]
    · omega
  · rw [if_neg (by omega)]

theorem inodeRead_eq {s : Volume} {n : InodeT} {bytesFrom count : ℕ} (hf : Fits n.toHeader)
    (hfrom : bytesFrom ≤ n.size) (hto : bytesFrom + count < 2 ^ 32) :
    inodeRead s n bytesFrom count =
      slice (content s.disk n.index) bytesFrom (min count (n.size - bytesFrom)) := by
  unfold inodeRead
  by_cases hc : count = 0
  · subst hc
    simp [slice]
  · have hd := hf.disk
    have hr := hf.room
    rw [if_neg hc]
    simp only [inodeCalculateOperationBounds_eq hf hfrom (Nat.pos_of_ne_zero hc) hto]
    apply List.ext_getElem (by simp)
    intro i hi hi'
    rw [length_slice] at hi
    rw [getElem_slice, getElem_slice, readSectors_inside (by omega) (by omega), content]
    have hq : n.index + 1 + bytesFrom / 512 + (bytesFrom % 512 + i) / 512 =
        n.index + 1 + (bytesFrom + i) / 512 := by omega
    have hm : (bytesFrom % 512 + i) % 512 = (bytesFrom + i) % 512 := by omega
    rw [hq, hm]

theorem inodeRead_all {s : Volume} {n : InodeT} (hf : Fits n.toHeader) :
    inodeRead s n 0 n.size = slice (content s.disk n.index) 0 n.size := by
  have h := @inodeRead_eq s _ 0 _ hf (by omega) (by simpa using hf.word)
  simpa using h

def patchSectors (d : Disk) (junk : ℕ → UInt8) (index bytesFrom : ℕ) (buffer : List UInt8) : Disk :=
  let secFrom := index + 1 + bytesFrom / 512
  let secCount := (bytesFrom + buffer.length - 1) / 512 + 1 - bytesFrom / 512
  writeSectors d secFrom (blit (readSectors d secFrom junk secCount) (bytesFrom % 512)
    (bytesOf buffer) buffer.length) secCount

theorem patchSectors_frame {d : Disk} {junk : ℕ → UInt8} {index alloc bytesFrom sec : ℕ}
    {buffer : List UInt8} (hd : index + alloc < 2 ^ 28) (hbuf : 0 < buffer.length)
    (hroom : bytesFrom + buffer.length ≤ 512 * alloc) (h : sec ≤ index ∨ index + alloc < sec) :
    patchSectors d junk index bytesFrom buffer sec = d sec := by
  have hle : bytesFrom / 512 ≤ (bytesFrom + buffer.length - 1) / 512 :=
    Nat.div_le_div_right (by omega)
  exact writeSectors_outside (by omega) (by omega)

theorem patchSectors_content {d : Disk} {junk : ℕ → UInt8} {index alloc bytesFrom k : ℕ}
    {buffer : List UInt8} (hd : index + alloc < 2 ^ 28) (hbuf : 0 < buffer.length)
    (hroom : bytesFrom + buffer.length ≤ 512 * alloc) (hk : k < 512 * alloc) :
    content (patchSectors d junk index bytesFrom buffer) index k =
      blit (content d index) bytesFrom (bytesOf buffer) buffer.length k := by
  have hle : bytesFrom / 512 ≤ (bytesFrom + buffer.length - 1) / 512 :=
    Nat.div_le_div_right (by omega)
  rw [content, patchSectors]
  by_cases hin : bytesFrom / 512 ≤ k / 512 ∧ k / 512 ≤ (bytesFrom + buffer.length - 1) / 512
  · -- The sector is one of those rewritten, and byte `k` is this byte of the blocks.
    have hj : (index + 1 + k / 512 - (index + 1 + bytesFrom / 512)) * 512 + k % 512 =
        k - bytesFrom / 512 * 512 := by omega
    rw [writeSectors_inside (by omega) (by omega) (by omega) (Nat.mod_lt k (by omega)), hj]
    by_cases hb : bytesFrom ≤ k ∧ k < bytesFrom + buffer.length
    · rw [blit_inside (by omega) (by omega), blit_inside hb.1 hb.2]
      congr 1
      omega
    · rw [blit_outside (by omega), blit_outside (by omega), readSectors_inside (by omega) (by omega),
        content]
      have hq : index + 1 + bytesFrom / 512 + (k - bytesFrom / 512 * 512) / 512 =
          index + 1 + k / 512 := by omega
      have hm : (k - bytesFrom / 512 * 512) % 512 = k % 512 := by omega
      rw [hq, hm]
  · rw [writeSectors_outside (by omega) (by omega), blit_outside (by omega), content]

def withSize (n : InodeT) (size : ℕ) : InodeT := { n with size := size }

structure Stored (s t : Volume) (node bytesFrom : ℕ) (buffer : List UInt8) : Prop where
  inodes : t.inodes = Function.update s.inodes node
    (withSize (s.inodes node) (max (s.inodes node).size (bytesFrom + buffer.length)))
  content : ∀ k, k < 512 * (s.inodes node).alloc → content t.disk (s.inodes node).index k =
    blit (content s.disk (s.inodes node).index) bytesFrom (bytesOf buffer) buffer.length k
  header : Words (s.inodes node).toHeader →
    inodeFetch s.disk (s.inodes node).index = (s.inodes node).toHeader →
    inodeFetch t.disk (s.inodes node).index = (t.inodes node).toHeader
  frame : ∀ sec, sec < (s.inodes node).index ∨ (s.inodes node).index + (s.inodes node).alloc < sec →
    t.disk sec = s.disk sec
  ballocPtr : t.ballocPtr = s.ballocPtr
  inodelist : t.inodelist = s.inodelist

theorem sizeUpdate_spec {s : Volume} {node more : ℕ} (hi : (s.inodes node).index < 2 ^ 28)
    (hsize : (s.inodes node).size + more < 2 ^ 32) :
    ∃ d inodes, (if more ≠ 0 then inodeUpdate (setInode s node fun n =>
        { n with size := (n.size + more) % 2 ^ 32 }) node else s) =
        { s with disk := d, inodes := inodes } ∧
      inodes = Function.update s.inodes node (withSize (s.inodes node) ((s.inodes node).size + more)) ∧
      (∀ sec, sec ≠ (s.inodes node).index → d sec = s.disk sec) ∧
      (Words (s.inodes node).toHeader →
        inodeFetch s.disk (s.inodes node).index = (s.inodes node).toHeader →
        inodeFetch d (s.inodes node).index = (inodes node).toHeader) := by
  by_cases hover : more = 0
  · subst hover
    refine ⟨s.disk, s.inodes, by simp, ?_, fun _ _ => rfl, fun _ h => h⟩
    exact (Function.update_eq_self node s.inodes).symm
  · have he : setInode s node (fun n => { n with size := (n.size + more) % 2 ^ 32 }) =
        setInode s node fun n => withSize n (n.size + more) := by
      simp only [setInode, withSize, Nat.mod_eq_of_lt hsize]
    rw [if_pos hover, he]
    refine ⟨_, _, rfl, rfl, fun sec hs => ?_, fun hw _ => ?_⟩
    · refine inodeUpdate_other ?_ ?_ <;> simpa [withSize]
    · have hw' : Words ((setInode s node fun n => withSize n (n.size + more)).inodes node).toHeader := by
        rw [setInode_self]
        exact ⟨hw.isvalid, hw.index, hsize, hw.alloc, hw.childCount, hw.type⟩
      have h := inodeFetch_inodeUpdate (by simpa [withSize] using hi) hw'
      change inodeFetch (inodeUpdate _ node).disk _ =
        ((setInode s node fun n => withSize n (n.size + more)).inodes node).toHeader
      simp only [setInode_self] at h
      rw [setInode_self]
      exact h

theorem storeBytes_stored {s : Volume} {node bytesFrom : ℕ} {buffer : List UInt8}
    (hf : Fits (s.inodes node).toHeader) (hbuf : 0 < buffer.length)
    (hto : bytesFrom + buffer.length < 2 ^ 32)
    (hroom : bytesFrom + buffer.length ≤ 512 * (s.inodes node).alloc) :
    Stored s (storeBytes s node bytesFrom buffer) node bytesFrom buffer := by
  have hd := hf.disk
  have hw := hf.word
  obtain ⟨hfrom, hcount, -, hover, hread⟩ := storeBounds_eq hd hbuf hto
  have hread := hread hroom
  rw [hcount] at hread
  have hmax : (s.inodes node).size + (bytesFrom + buffer.length - (s.inodes node).size) =
      max (s.inodes node).size (bytesFrom + buffer.length) := by omega
  obtain ⟨d, inodes, hu, hinodes, hdisk, hheader⟩ := @sizeUpdate_spec s node
    (bytesFrom + buffer.length - (s.inodes node).size) (by omega) (by omega)
  have he : storeBytes s node bytesFrom buffer =
      { s with disk := patchSectors d s.junk (s.inodes node).index bytesFrom buffer, inodes := inodes } := by
    simp only [storeBytes, hfrom, hcount, hover, hread, hu, patchSectors]
  have hcontent (k : ℕ) : content d (s.inodes node).index k = content s.disk (s.inodes node).index k :=
    congrFun (hdisk _ (by omega)) _
  rw [he]
  refine ⟨by rw [hinodes, hmax], fun k hk => ?_, fun hwords hh => ?_, fun sec hs => ?_, rfl, rfl⟩
  · rw [patchSectors_content hd hbuf hroom hk]
    unfold blit
    rw [hcontent]
  · rw [← hheader hwords hh]
    apply inodeFetch_congr
    intro o _
    rw [lba_of_lt (by omega)]
    exact congrFun (patchSectors_frame hd hbuf hroom (by omega)) o
  · exact (patchSectors_frame hd hbuf hroom (by omega)).trans (hdisk sec (by omega))

def withExtent (n : InodeT) (index alloc : ℕ) : InodeT := { n with index := index, alloc := alloc }

structure Moved (s t : Volume) (node sectors : ℕ) : Prop where
  inodes : t.inodes = Function.update s.inodes node (withExtent (s.inodes node) s.ballocPtr sectors)
  content : ∀ k, k < 512 * (s.inodes node).alloc →
    content t.disk s.ballocPtr k = content s.disk (s.inodes node).index k
  header : Words (s.inodes node).toHeader → inodeFetch t.disk s.ballocPtr = (t.inodes node).toHeader
  frame : ∀ sec, sec ≠ 0 → sec < s.ballocPtr ∨ s.ballocPtr + sectors < sec → t.disk sec = s.disk sec
  ballocPtr : t.ballocPtr = s.ballocPtr + (sectors + 1)
  inodelist : t.inodelist = s.inodelist

theorem moveExtent_moved {s : Volume} {node sectors : ℕ} (hpos : 0 < s.ballocPtr)
    (hbelow : (s.inodes node).index + (s.inodes node).alloc < s.ballocPtr)
    (hgrow : (s.inodes node).alloc ≤ sectors) (hroom : s.ballocPtr + sectors < 2 ^ 28) :
    Moved s (moveExtent s node sectors) node sectors := by
  have hp : (s.ballocPtr + (sectors + 1) % 2 ^ 32) % 2 ^ 32 = s.ballocPtr + (sectors + 1) := by omega
  obtain ⟨u, hu, hinodes, hptr, hlist, hdisk⟩ : ∃ u : Volume,
      moveExtent s node sectors = inodeUpdate u node ∧
      u.inodes = Function.update s.inodes node (withExtent (s.inodes node) s.ballocPtr sectors) ∧
      u.ballocPtr = s.ballocPtr + (sectors + 1) ∧ u.inodelist = s.inodelist ∧
      u.disk = copySectors (ataWrite s.disk 0 (putWord s.junk 0 (s.ballocPtr + (sectors + 1))))
        ((s.inodes node).index + 1) (s.ballocPtr + 1) (s.inodes node).alloc := by
    refine ⟨_, rfl, rfl, ?_, rfl, ?_⟩
    · exact hp
    · rw [← hp]
      rfl
  have hnode : u.inodes node = withExtent (s.inodes node) s.ballocPtr sectors := by simp [hinodes]
  have hindex : (u.inodes node).index = s.ballocPtr := by rw [hnode]; rfl
  have hframe (sec : ℕ) (h0 : sec ≠ 0) (hs : sec < s.ballocPtr + 1 ∨ s.ballocPtr + 1 + (s.inodes node).alloc ≤ sec) :
      u.disk sec = s.disk sec := by
    rw [hdisk, copySectors_outside (by omega) hs, ataWrite_other (by simpa [lba] using h0)]
  rw [hu]
  refine ⟨hinodes, fun k hk => ?_, fun hw => ?_, fun sec h0 hs => ?_, hptr, hlist⟩
  · have hcopy := @copySectors_inside
      (ataWrite s.disk 0 (putWord s.junk 0 (s.ballocPtr + (sectors + 1)))) ((s.inodes node).index + 1)
      (s.ballocPtr + 1) (s.inodes node).alloc (k / 512) (k % 512)
      (by omega) (by omega) (by omega) (Nat.mod_lt k (by omega))
    rw [content, inodeUpdate_other (by omega) (by omega), hdisk, hcopy,
      ataWrite_other (by simp [lba]), content]
  · have hw' : Words (u.inodes node).toHeader := by
      rw [hnode]
      have hp' : s.ballocPtr < 2 ^ 32 := by omega
      have hs' : sectors < 2 ^ 32 := by omega
      exact ⟨hw.isvalid, hp', hw.size, hs', hw.childCount, hw.type⟩
    rw [← hindex]
    exact inodeFetch_inodeUpdate (by omega) hw'
  · rw [inodeUpdate_other (by omega) (by omega), hframe sec h0 (by omega)]

theorem inodeWrite_nil (s : Volume) (node bytesFrom : ℕ) (parent : Option ℕ) :
    inodeWrite s node bytesFrom [] parent = s := by
  rw [inodeWrite]
  rfl

theorem inodeWrite_within {s : Volume} {node bytesFrom : ℕ} {buffer : List UInt8} {parent : Option ℕ}
    (hf : Fits (s.inodes node).toHeader) (hbuf : 0 < buffer.length)
    (hto : bytesFrom + buffer.length < 2 ^ 32)
    (hroom : bytesFrom + buffer.length ≤ 512 * (s.inodes node).alloc) :
    Stored s (inodeWrite s node bytesFrom buffer parent) node bytesFrom buffer := by
  obtain ⟨-, -, hover, -, -⟩ := storeBounds_eq hf.disk hbuf hto
  have hz : (bytesFrom + buffer.length - 1) / 512 + 1 - (s.inodes node).alloc = 0 := by omega
  have he : inodeWrite s node bytesFrom buffer parent = storeBytes s node bytesFrom buffer := by
    rw [inodeWrite, if_neg (by omega)]
    simp only [hover, hz, ne_eq, not_true_eq_false, if_false]
  rw [he]
  exact storeBytes_stored hf hbuf hto hroom

theorem inodeWrite_stored {s : Volume} {node bytesFrom : ℕ} {buffer : List UInt8} {parent : Option ℕ}
    (hf : Fits (s.inodes node).toHeader) (hfrom : bytesFrom ≤ (s.inodes node).size)
    (hto : bytesFrom + buffer.length < 2 ^ 32)
    (hroom : bytesFrom + buffer.length ≤ 512 * (s.inodes node).alloc) :
    Stored s (inodeWrite s node bytesFrom buffer parent) node bytesFrom buffer := by
  by_cases hbuf : buffer.length = 0
  · obtain rfl : buffer = [] := List.length_eq_zero_iff.mp hbuf
    rw [inodeWrite_nil]
    have hmax : max (s.inodes node).size (bytesFrom + 0) = (s.inodes node).size := by omega
    refine ⟨?_, fun k _ => (blit_outside (by simp; omega)).symm, fun _ h => h, fun _ _ => rfl, rfl, rfl⟩
    rw [List.length_nil, hmax]
    exact (Function.update_eq_self node s.inodes).symm
  · exact inodeWrite_within hf (Nat.pos_of_ne_zero hbuf) hto hroom

theorem inodeWrite_over {s : Volume} {node bytesFrom : ℕ} {buffer : List UInt8} {parent : Option ℕ}
    (hf : Fits (s.inodes node).toHeader) (hbuf : 0 < buffer.length)
    (hto : bytesFrom + buffer.length < 2 ^ 32)
    (hover : 512 * (s.inodes node).alloc < bytesFrom + buffer.length) :
    inodeWrite s node bytesFrom buffer parent =
      storeBytes (inodeRealloc s node ((bytesFrom + buffer.length - 1) / 512 + 1) parent) node bytesFrom
        buffer := by
  obtain ⟨-, -, hsec, -, -⟩ := storeBounds_eq hf.disk hbuf hto
  have hne : (bytesFrom + buffer.length - 1) / 512 + 1 - (s.inodes node).alloc ≠ 0 := by omega
  have hsum : ((bytesFrom + buffer.length - 1) / 512 + 1 - (s.inodes node).alloc +
      (s.inodes node).alloc) % 2 ^ 32 = (bytesFrom + buffer.length - 1) / 512 + 1 := by omega
  rw [inodeWrite, if_neg (by omega)]
  simp only [hsec, hne, ne_eq, not_false_eq_true, if_true, hsum]

def tableAfter (s : Volume) (node : ℕ) (op : ChildOperation) : List UInt8 :=
  (op.table ⟨slice (content s.disk (s.inodes node).index) 0 (s.inodes node).size,
    (s.inodes node).alloc⟩).data

def withCount (n : InodeT) (childCount : ℕ) : InodeT := { n with childCount := childCount }

structure Retabled (s t : Volume) (node : ℕ) (op : ChildOperation) (data : List UInt8) : Prop where
  inodes : t.inodes = Function.update s.inodes node
    (withCount (withSize (s.inodes node) (max (s.inodes node).size data.length))
      (op.count (s.inodes node).childCount))
  content : ∀ k, k < 512 * (s.inodes node).alloc → content t.disk (s.inodes node).index k =
    blit (content s.disk (s.inodes node).index) 0 (bytesOf data) data.length k
  header : Words (t.inodes node).toHeader →
    inodeFetch t.disk (s.inodes node).index = (t.inodes node).toHeader
  frame : ∀ sec, sec < (s.inodes node).index ∨ (s.inodes node).index + (s.inodes node).alloc < sec →
    t.disk sec = s.disk sec
  ballocPtr : t.ballocPtr = s.ballocPtr
  inodelist : t.inodelist = s.inodelist

theorem inodeChildSet_eq {s : Volume} {node : ℕ} (op : ChildOperation) (parent : Option ℕ)
    (hf : Fits (s.inodes node).toHeader) :
    inodeChildSet s node op parent = inodeUpdate (inodeWrite
      (setInode s node fun n => withCount n (op.count n.childCount)) node 0 (tableAfter s node op)
        parent) node := by
  rw [inodeChildSet, inodeRead_all hf]
  rfl

theorem inodeChildSet_retabled {s : Volume} {node : ℕ} {op : ChildOperation} {parent : Option ℕ}
    (hf : Fits (s.inodes node).toHeader) (hto : (tableAfter s node op).length < 2 ^ 32)
    (hroom : (tableAfter s node op).length ≤ 512 * (s.inodes node).alloc) :
    Retabled s (inodeChildSet s node op parent) node op (tableAfter s node op) := by
  have hd := hf.disk
  rw [inodeChildSet_eq op parent hf]
  generalize hu : setInode s node (fun n => withCount n (op.count n.childCount)) = u
  have hnode : u.inodes node = withCount (s.inodes node) (op.count (s.inodes node).childCount) := by
    rw [← hu, setInode_self]
  have hdisk : u.disk = s.disk := by rw [← hu]; rfl
  have hfu : Fits (u.inodes node).toHeader := by
    rw [hnode]
    exact ⟨hd, hf.room, hf.word⟩
  have hst := @inodeWrite_stored _ _ _ (tableAfter s node op) parent hfu (Nat.zero_le _)
    (by omega) (by rw [hnode, Nat.zero_add]; exact hroom)
  generalize inodeWrite u node 0 (tableAfter s node op) parent = w at hst ⊢
  have hw : w.inodes = Function.update s.inodes node
      (withCount (withSize (s.inodes node) (max (s.inodes node).size (tableAfter s node op).length))
        (op.count (s.inodes node).childCount)) := by
    rw [hst.inodes, hnode, ← hu]
    simp [setInode, withCount, withSize]
  have hindex : (w.inodes node).index = (s.inodes node).index := by
    rw [hw, Function.update_self]
    rfl
  refine ⟨hw, fun k hk => ?_, fun hwords => ?_, fun sec hs => ?_, ?_, ?_⟩
  · have hk' := hst.content k (by rw [hnode]; exact hk)
    rw [hnode, hdisk] at hk'
    rw [content, inodeUpdate_other (by omega) (by omega)]
    exact hk'
  · rw [← hindex]
    exact inodeFetch_inodeUpdate (by omega) hwords
  · have hs' := hst.frame sec (by rw [hnode]; exact hs)
    rw [hdisk] at hs'
    rw [inodeUpdate_other (by omega) (by omega), hs']
  · have hptr : u.ballocPtr = s.ballocPtr := by rw [← hu]; rfl
    exact hst.ballocPtr.trans hptr
  · have hlist : u.inodelist = s.inodelist := by rw [← hu]; rfl
    exact hst.inodelist.trans hlist

/-- The record of `node` in the table of its parent `p`, renamed to a new index. -/
def relocate (s : Volume) (node index : ℕ) : ChildOperation := .reloc (nodeName s node) index

@[simp] theorem length_tableAfter_relocate (s : Volume) (p node index : ℕ) :
    (tableAfter s p (relocate s node index)).length = (s.inodes p).size := by
  simp [tableAfter, relocate, ChildOperation.table]

/-- What a write needs to know of the parent: it is another inode, below the allocation pointer. -/
structure Above (s : Volume) (p node : ℕ) : Prop where
  ne : p ≠ node
  fits : Fits (s.inodes p).toHeader
  pos : 0 < (s.inodes p).index
  below : (s.inodes p).index + (s.inodes p).alloc < s.ballocPtr

/-- `t` is `s` after `inode_realloc`: the extent of `node` has moved, and the record in the table of the
parent, or the root sector, names the new place. -/
structure Relocated (s t : Volume) (node : ℕ) (parent : Option ℕ) (sectors : ℕ) : Prop where
  inodes : t.inodes = Function.update s.inodes node (withExtent (s.inodes node) s.ballocPtr sectors)
  content : ∀ k, k < 512 * (s.inodes node).alloc →
    content t.disk s.ballocPtr k = content s.disk (s.inodes node).index k
  header : Words (s.inodes node).toHeader → inodeFetch t.disk s.ballocPtr = (t.inodes node).toHeader
  frame : ∀ sec, sec ≠ 0 → sec < s.ballocPtr ∨ s.ballocPtr + sectors < sec →
    (∀ p, parent = some p → sec < (s.inodes p).index ∨ (s.inodes p).index + (s.inodes p).alloc < sec) →
    (parent = none → sec ≠ 1) → t.disk sec = s.disk sec
  table : ∀ p, parent = some p → ∀ k, k < 512 * (s.inodes p).alloc →
    Fs.content t.disk (s.inodes p).index k = blit (Fs.content s.disk (s.inodes p).index) 0
      (bytesOf (tableAfter s p (relocate s node s.ballocPtr))) (s.inodes p).size k
  above : ∀ p, parent = some p → Words (s.inodes p).toHeader →
    inodeFetch t.disk (s.inodes p).index = (s.inodes p).toHeader
  root : parent = none → wordAt (t.disk 1) 0 = s.ballocPtr
  ballocPtr : t.ballocPtr = s.ballocPtr + (sectors + 1)
  inodelist : t.inodelist = s.inodelist

theorem inodeRealloc_root {s : Volume} {node sectors : ℕ} (hpos : 1 < s.ballocPtr)
    (hbelow : (s.inodes node).index + (s.inodes node).alloc < s.ballocPtr)
    (hgrow : (s.inodes node).alloc ≤ sectors) (hroom : s.ballocPtr + sectors < 2 ^ 28) :
    Relocated s (inodeRealloc s node sectors none) node none sectors := by
  have hm := moveExtent_moved (by omega) hbelow hgrow hroom
  obtain ⟨hinodes, hptr, hlist, hdisk⟩ :
      (inodeRealloc s node sectors none).inodes = (moveExtent s node sectors).inodes ∧
      (inodeRealloc s node sectors none).ballocPtr = (moveExtent s node sectors).ballocPtr ∧
      (inodeRealloc s node sectors none).inodelist = (moveExtent s node sectors).inodelist ∧
      (inodeRealloc s node sectors none).disk = ataWrite (moveExtent s node sectors).disk 1
        (putWord (moveExtent s node sectors).junk 0 ((moveExtent s node sectors).inodes node).index) := by
    rw [inodeRealloc]
    exact ⟨rfl, rfl, rfl, rfl⟩
  generalize inodeRealloc s node sectors none = t at *
  generalize moveExtent s node sectors = m at *
  have hindex : (m.inodes node).index = s.ballocPtr := by
    rw [hm.inodes, Function.update_self]
    rfl
  have hother (sec : ℕ) (h : sec ≠ 1) : t.disk sec = m.disk sec := by
    rw [hdisk, ataWrite_other (by simpa [lba] using h)]
  refine ⟨hinodes.trans hm.inodes, fun k hk => ?_, fun hw => ?_, fun sec h0 hs _ h1 => ?_, by simp, by simp,
    fun _ => ?_, hptr.trans hm.ballocPtr, hlist.trans hm.inodelist⟩
  · rw [← hm.content k hk, content, hother _ (by omega), content]
  · rw [hinodes, ← hm.header hw]
    apply inodeFetch_congr
    intro o _
    rw [lba_of_lt (by omega), hother _ (by omega)]
  · rw [hother _ (h1 rfl), hm.frame sec h0 hs]
  · have hw := wordAt_congr (b := t.disk 1) (c := putWord m.junk 0 (m.inodes node).index) (k := 0)
      fun j _ hj => by rw [hdisk, ataWrite_self (by omega) (by omega)]
    rw [hw, wordAt_putWord, hindex]
    omega

theorem inodeRealloc_some (s : Volume) (node sectors p : ℕ) : inodeRealloc s node sectors (some p) =
    inodeChildSet (moveExtent s node sectors) p (relocate s node s.ballocPtr) none := by
  have hinodes : (moveExtent s node sectors).inodes = Function.update s.inodes node
      (withExtent (s.inodes node) s.ballocPtr sectors) := rfl
  have hname : nodeName (moveExtent s node sectors) node = nodeName s node := by
    rw [nodeName, hinodes, Function.update_self]
    rfl
  rw [inodeRealloc, hname]
  rfl

theorem inodeRealloc_child {s : Volume} {node p sectors : ℕ} (hpos : 1 < s.ballocPtr)
    (hbelow : (s.inodes node).index + (s.inodes node).alloc < s.ballocPtr)
    (hgrow : (s.inodes node).alloc ≤ sectors) (hroom : s.ballocPtr + sectors < 2 ^ 28)
    (habove : Above s p node) :
    Relocated s (inodeRealloc s node sectors (some p)) node (some p) sectors := by
  have hm := moveExtent_moved (by omega) hbelow hgrow hroom
  have hpb := habove.below
  have hpp := habove.pos
  have hpr := habove.fits.room
  rw [inodeRealloc_some]
  generalize moveExtent s node sectors = m at hm
  have hp : m.inodes p = s.inodes p := by rw [hm.inodes, Function.update_of_ne habove.ne]
  have hcontent (k : ℕ) (hk : k < 512 * (s.inodes p).alloc) :
      content m.disk (s.inodes p).index k = content s.disk (s.inodes p).index k := by
    rw [content, hm.frame _ (by omega) (by omega), content]
  have htable : tableAfter m p (relocate s node s.ballocPtr) =
      tableAfter s p (relocate s node s.ballocPtr) := by
    rw [tableAfter, tableAfter, hp, slice_congr fun k _ hk => hcontent k (by omega)]
  have hlen := length_tableAfter_relocate s p node s.ballocPtr
  have hr := @inodeChildSet_retabled m _ _ none (by rw [hp]; exact habove.fits)
    (by rw [htable, hlen]; exact habove.fits.word) (by rw [htable, hlen, hp]; exact hpr)
  rw [htable] at hr
  generalize inodeChildSet m p (relocate s node s.ballocPtr) none = t at hr
  have hsame : withCount (withSize (s.inodes p)
      (max (s.inodes p).size (tableAfter s p (relocate s node s.ballocPtr)).length))
      ((relocate s node s.ballocPtr).count (s.inodes p).childCount) = s.inodes p := by
    rw [hlen, max_self]
    rfl
  have hinodes : t.inodes = m.inodes := by
    rw [hr.inodes, hp, hsame, ← hp, Function.update_eq_self]
  have hframe := hr.frame
  rw [hp] at hframe
  refine ⟨hinodes.trans hm.inodes, fun k hk => ?_, fun hw => ?_, fun sec h0 hs ha _ => ?_, ?_, ?_,
    by simp, hr.ballocPtr.trans hm.ballocPtr, hr.inodelist.trans hm.inodelist⟩
  · rw [← hm.content k hk, content, hframe _ (by omega), content]
  · rw [hinodes, ← hm.header hw]
    apply inodeFetch_congr
    intro o _
    rw [lba_of_lt (by omega), hframe _ (by omega)]
  · rw [hframe sec (ha p rfl), hm.frame sec h0 hs]
  · rintro q hq k hk
    obtain rfl := Option.some.inj hq
    have hk' := hr.content k (by rw [hp]; exact hk)
    rw [hp, hlen] at hk'
    rw [hk']
    unfold blit
    rw [hcontent k hk]
  · rintro q hq hw
    obtain rfl := Option.some.inj hq
    have hh := hr.header (by rw [hinodes, hp]; exact hw)
    rwa [hinodes, hp] at hh

theorem inodeRealloc_relocated {s : Volume} {node sectors : ℕ} {parent : Option ℕ}
    (hpos : 1 < s.ballocPtr)
    (hbelow : (s.inodes node).index + (s.inodes node).alloc < s.ballocPtr)
    (hgrow : (s.inodes node).alloc ≤ sectors) (hroom : s.ballocPtr + sectors < 2 ^ 28)
    (habove : ∀ p, parent = some p → Above s p node) :
    Relocated s (inodeRealloc s node sectors parent) node parent sectors := by
  cases parent with
  | none => exact inodeRealloc_root hpos hbelow hgrow hroom
  | some p => exact inodeRealloc_child hpos hbelow hgrow hroom (habove p rfl)

def sectorsFor (bytesFrom count : ℕ) : ℕ := (bytesFrom + count - 1) / 512 + 1

theorem inodeWrite_relocated {s : Volume} {node bytesFrom : ℕ} {buffer : List UInt8}
    {parent : Option ℕ} (hpos : 1 < s.ballocPtr) (hf : Fits (s.inodes node).toHeader)
    (hbelow : (s.inodes node).index + (s.inodes node).alloc < s.ballocPtr)
    (hbuf : 0 < buffer.length) (hto : bytesFrom + buffer.length < 2 ^ 32)
    (hover : 512 * (s.inodes node).alloc < bytesFrom + buffer.length)
    (hroom : s.ballocPtr + sectorsFor bytesFrom buffer.length < 2 ^ 28)
    (habove : ∀ p, parent = some p → Above s p node) :
    ∃ r, Relocated s r node parent (sectorsFor bytesFrom buffer.length) ∧
      Stored r (inodeWrite s node bytesFrom buffer parent) node bytesFrom buffer := by
  have hr := hf.room
  have hrel := inodeRealloc_relocated hpos hbelow
    (by unfold sectorsFor; omega) hroom habove
  refine ⟨_, hrel, ?_⟩
  rw [inodeWrite_over hf hbuf hto hover, ← sectorsFor]
  generalize inodeRealloc s node (sectorsFor bytesFrom buffer.length) parent = r at hrel
  have hnode : r.inodes node = withExtent (s.inodes node) s.ballocPtr (sectorsFor bytesFrom buffer.length) := by
    rw [hrel.inodes, Function.update_self]
  unfold sectorsFor at hnode hroom
  apply storeBytes_stored
  · rw [hnode]
    exact ⟨hroom, by simp only [withExtent]; omega, hf.word⟩
  · exact hbuf
  · exact hto
  · rw [hnode]
    simp only [withExtent]
    omega

end Eedox.Fs
