import Eedox.Fs.Walk
import Eedox.Fs.ReadWrite

namespace Eedox.Fs

open Util Library.Bytes Ata Pathbuf Childtable

/-- What a failing call may not change: the disk and the cached inodes' state. -/
def Unchanged (s t : Volume) : Prop :=
  t.disk = s.disk ∧ ∀ p ∈ s.inodelist,
    (t.inodes p).isvalid = (s.inodes p).isvalid ∧ (t.inodes p).size = (s.inodes p).size ∧
    (t.inodes p).alloc = (s.inodes p).alloc ∧ (t.inodes p).childCount = (s.inodes p).childCount

def Allocated (s : Volume) : Prop := ∀ p ∈ s.inodelist, p < s.nextInode

def HasChild (n : InodeT) : Prop := n.type = inodeTypeDir ∧ n.childCount > 0

def truncated (n : InodeT) : InodeT := { n with alloc := 0, size := 0 }

/-- The inode found is empty already, if it was cached, and its header sector holds the bytes that a
truncation writes. -/
def Emptied (s w : Volume) (node : ℕ) : Prop :=
  (node ∈ s.inodelist → (w.inodes node).size = 0 ∧ (w.inodes node).alloc = 0) ∧
  ∀ i, i < 512 → w.disk (lba (w.inodes node).index) i = inodeImage w.tail (truncated (w.inodes node)) i

/-- If the path leads to a valid inode, it is not deleted, and a truncation has nothing to do. -/
def Harmless (s : Volume) (pathbuf : PathbufT) (truncate unlink : Bool) : Prop :=
  ∀ w o, fsNodeOpen s pathbuf = some (w, some o) → (w.inodes o.node).isvalid % 256 ≠ 0 →
    (unlink = true → HasChild (w.inodes o.node)) ∧ (truncate = true → Emptied s w o.node)

/-- If neither the inode found nor its parent was cached, the inode's header is marked valid on the
disk and lies outside its parent's extent. -/
def Located (s w : Volume) (o : Opened) : Prop :=
  o.node ∉ s.inodelist → (∀ p, o.parent = some p → p ∉ s.inodelist) →
    wordAt (w.disk (lba (w.inodes o.node).index)) 0 ≠ 0 ∧
    ∀ p, o.parent = some p → Fits (w.inodes p).toHeader ∧
      (lba (w.inodes o.node).index < (w.inodes p).index ∨
        (w.inodes p).index + (w.inodes p).alloc < lba (w.inodes o.node).index)

structure Steady (s t : Volume) : Prop where
  isvalid : ∀ p, (t.inodes p).isvalid = (s.inodes p).isvalid
  childCount : ∀ p, (t.inodes p).childCount = (s.inodes p).childCount

theorem Steady.refl (s : Volume) : Steady s s := ⟨fun _ => rfl, fun _ => rfl⟩

theorem Steady.trans {s t u : Volume} (h : Steady s t) (h' : Steady t u) : Steady s u :=
  ⟨fun p => (h'.isvalid p).trans (h.isvalid p), fun p => (h'.childCount p).trans (h.childCount p)⟩

theorem steady_update {s t : Volume} {node : ℕ} {n : InodeT}
    (h : t.inodes = Function.update s.inodes node n) (hv : n.isvalid = (s.inodes node).isvalid)
    (hc : n.childCount = (s.inodes node).childCount) : Steady s t := by
  constructor <;> intro p <;> by_cases hp : p = node
  · subst hp
    rw [h, Function.update_self, hv]
  · rw [h, Function.update_of_ne hp]
  · subst hp
    rw [h, Function.update_self, hc]
  · rw [h, Function.update_of_ne hp]

theorem steady_storeBytes (s : Volume) (node bytesFrom : ℕ) (buffer : List UInt8) :
    Steady s (storeBytes s node bytesFrom buffer) := by
  unfold storeBytes
  simp only
  split_ifs
  · exact steady_update (s := s) rfl rfl rfl
  · exact ⟨fun _ => rfl, fun _ => rfl⟩

theorem steady_moveExtent (s : Volume) (node sectors : ℕ) : Steady s (moveExtent s node sectors) :=
  steady_update rfl rfl rfl

theorem steady_write {s : Volume} {node bytesFrom : ℕ} {buffer : List UInt8} {parent : Option ℕ}
    (h : ∀ sectors, Steady s (inodeRealloc s node sectors parent)) :
    Steady s (inodeWrite s node bytesFrom buffer parent) := by
  rw [inodeWrite]
  split_ifs
  · exact Steady.refl s
  · simp only
    split_ifs
    · exact (h _).trans (steady_storeBytes _ _ _ _)
    · exact steady_storeBytes _ _ _ _

theorem steady_realloc_none (s : Volume) (node sectors : ℕ) : Steady s (inodeRealloc s node sectors none) := by
  rw [inodeRealloc]
  exact ⟨(steady_moveExtent s node sectors).isvalid, (steady_moveExtent s node sectors).childCount⟩

theorem steady_childSet (s : Volume) (node : ℕ) (op : ChildOperation) :
    Steady (setInode s node fun n => withCount n (op.count n.childCount)) (inodeChildSet s node op none) := by
  rw [inodeChildSet]
  have h := @steady_write _ _ 0 ((op.table ⟨inodeRead s (s.inodes node) 0
    (s.inodes node).size, (s.inodes node).alloc⟩).data) _ fun sectors => steady_realloc_none
      (setInode s node fun n => withCount n (op.count n.childCount)) node sectors
  refine ⟨fun p => ?_, fun p => ?_⟩
  · simp only [inodeUpdate_inodes]
    exact h.isvalid p
  · simp only [inodeUpdate_inodes]
    exact h.childCount p

theorem inodeDelete_isvalid (s : Volume) (node : ℕ) (parent : Option ℕ) :
    ((inodeDelete s node parent).inodes node).isvalid = 0 := by
  unfold inodeDelete
  cases parent with
  | none => simp
  | some p =>
    have h := (steady_childSet (inodeUpdate (setInode s node fun n => { n with isvalid := 0 }) node) p
      (.rem s.stray)).isvalid node
    refine h.trans ?_
    by_cases hp : node = p
    · subst hp
      simp [withCount]
    · rw [setInode_other _ hp]
      simp

theorem inodeDelete_childCount (s : Volume) (node p : ℕ) :
    ((inodeDelete s node (some p)).inodes p).childCount = sub32 (s.inodes p).childCount 1 := by
  unfold inodeDelete
  have h := (steady_childSet (inodeUpdate (setInode s node fun n => { n with isvalid := 0 }) node) p
    (.rem s.stray)).childCount p
  refine h.trans ?_
  rw [setInode_self, inodeUpdate_inodes]
  by_cases hp : p = node
  · subst hp
    rw [setInode_self]
    rfl
  · rw [setInode_other _ hp]
    rfl

theorem ataWrite_word {d : Disk} {sector : ℕ} {b : ℕ → UInt8} :
    wordAt (ataWrite d sector b (lba sector)) 0 = wordAt b 0 :=
  wordAt_congr fun j _ hj => if_pos ⟨rfl, by omega⟩

theorem inodeDelete_disk {s : Volume} {node : ℕ} {parent : Option ℕ}
    (h : ∀ p, parent = some p → Fits (s.inodes p).toHeader ∧
      (lba (s.inodes node).index < (s.inodes p).index ∨
        (s.inodes p).index + (s.inodes p).alloc < lba (s.inodes node).index)) :
    wordAt ((inodeDelete s node parent).disk (lba (s.inodes node).index)) 0 = 0 := by
  obtain ⟨u, hu, hinodes, hdisk⟩ : ∃ u,
      u = inodeUpdate (setInode s node fun n => { n with isvalid := 0 }) node ∧
      u.inodes = Function.update s.inodes node { s.inodes node with isvalid := 0 } ∧
      wordAt (u.disk (lba (s.inodes node).index)) 0 = 0 := by
    refine ⟨_, rfl, inodeUpdate_inodes _ _, ?_⟩
    have hi : ((setInode s node fun n => { n with isvalid := 0 }).inodes node).index =
        (s.inodes node).index := by rw [setInode_self]
    unfold inodeUpdate
    simp only
    rw [hi, ataWrite_word, (wordAt_inodeImage _ _).1, setInode_self]
    rfl
  unfold inodeDelete
  rw [← hu]
  cases parent with
  | none => exact hdisk
  | some p =>
    obtain ⟨hf, hout⟩ := h p rfl
    have hfields : (u.inodes p).index = (s.inodes p).index ∧ (u.inodes p).size = (s.inodes p).size ∧
        (u.inodes p).alloc = (s.inodes p).alloc := by
      rw [hinodes]
      by_cases hp : p = node
      · subst hp
        simp
      · simp [hp]
    obtain ⟨hi, hz, ha⟩ := hfields
    have hfu : Fits (u.inodes p).toHeader :=
      ⟨by rw [hi, ha]; exact hf.disk, by rw [hz, ha]; exact hf.room, by rw [hz]; exact hf.word⟩
    have hlen : (tableAfter u p (.rem u.stray)).length ≤ (u.inodes p).size := by
      refine (childtableRemove_length_le _ _).trans ?_
      simp
    have hr := @inodeChildSet_retabled _ _ _ none hfu (hlen.trans_lt hfu.word) (hlen.trans hfu.room)
    change wordAt ((inodeChildSet u p (.rem u.stray) none).disk _) 0 = 0
    rw [hr.frame _ (by rw [hi, ha]; exact hout)]
    exact hdisk

theorem sub32_one_ne (c : ℕ) : sub32 c 1 ≠ c := by
  unfold sub32
  omega

theorem unchanged_close {s u : Volume} (o : Opened) : Unchanged s (fsNodeClose
    (setInode u o.node fun n => { n with parent := o.parent }) o.gparent) ↔ Unchanged s u := by
  have hh (p : ℕ) := (fsNodeClose_header (setInode u o.node fun n => { n with parent := o.parent })
    o.gparent p).trans (setInode_header rfl p)
  simp only [Unchanged, fsNodeClose_disk, hh]
  exact Iff.rfl

theorem Quiet.unchanged {s t : Volume} (h : Quiet s t) (ha : Allocated s) : Unchanged s t := by
  refine ⟨h.disk, fun p hp => ?_⟩
  rw [h.header p (ha p hp)]
  exact ⟨rfl, rfl, rfl, rfl⟩

theorem unchanged_truncate {s w : Volume} {node : ℕ} (h : Quiet s w) (ha : Allocated s) :
    Unchanged s (inodeTruncate w node) ↔ Emptied s w node := by
  have hself : (inodeTruncate w node).inodes node = truncated (w.inodes node) := by
    unfold inodeTruncate
    rw [inodeUpdate_inodes, setInode_self]
    rfl
  have hother (p : ℕ) (hp : p ≠ node) : (inodeTruncate w node).inodes p = w.inodes p := by
    unfold inodeTruncate
    rw [inodeUpdate_inodes, setInode_other _ hp]
  have hdisk : (inodeTruncate w node).disk = ataWrite w.disk (w.inodes node).index
      (inodeImage w.tail (truncated (w.inodes node))) := by
    unfold inodeTruncate inodeUpdate
    simp only [setInode_self]
    rfl
  constructor
  · rintro ⟨hd, hp⟩
    refine ⟨fun hn => ?_, fun i hi => ?_⟩
    · obtain ⟨-, hsize, halloc, -⟩ := hp node hn
      rw [hself] at hsize halloc
      have hw := h.header node (ha node hn)
      rw [congrArg Header.size hw, congrArg Header.alloc hw]
      exact ⟨hsize.symm, halloc.symm⟩
    · have hs := congrFun (congrFun hd (lba (w.inodes node).index)) i
      rw [hdisk, ataWrite, if_pos ⟨rfl, hi⟩] at hs
      rw [hs, h.disk]
  · rintro ⟨hn, hi⟩
    refine ⟨?_, fun p hp => ?_⟩
    · rw [hdisk, ← h.disk]
      funext sec i
      unfold ataWrite
      split_ifs with hc
      · rw [hc.1, hi i hc.2]
      · rfl
    · have hw := h.header p (ha p hp)
      by_cases hpn : p = node
      · subst hpn
        obtain ⟨hz, hal⟩ := hn hp
        rw [hself]
        refine ⟨(congrArg Header.isvalid hw :), ?_, ?_, (congrArg Header.childCount hw :)⟩
        · exact hz.symm.trans (congrArg Header.size hw)
        · exact hal.symm.trans (congrArg Header.alloc hw)
      · rw [hother p hpn, hw]
        exact ⟨rfl, rfl, rfl, rfl⟩

def afterDelete (u : Volume) (node : ℕ) (truncate : Bool) : Volume :=
  if truncate then inodeTruncate u node else u

theorem afterDelete_steady (u : Volume) (node : ℕ) (truncate : Bool) :
    Steady u (afterDelete u node truncate) := by
  unfold afterDelete
  split_ifs
  · exact steady_update (inodeUpdate_inodes _ _) rfl rfl
  · exact Steady.refl u

theorem afterDelete_disk {u : Volume} {node sec : ℕ} (truncate : Bool)
    (hu : (u.inodes node).isvalid = 0) (h : wordAt (u.disk (lba sec)) 0 = 0) :
    wordAt ((afterDelete u node truncate).disk (lba sec)) 0 = 0 := by
  unfold afterDelete
  split_ifs
  · unfold inodeTruncate inodeUpdate
    simp only
    by_cases hc : lba sec =
        lba ((setInode u node fun n => { n with alloc := 0, size := 0 }).inodes node).index
    · rw [hc, ataWrite_word, (wordAt_inodeImage _ _).1, setInode_self]
      change (u.inodes node).isvalid % 2 ^ 32 = 0
      rw [hu, Nat.zero_mod]
    · rw [ataWrite_other hc]
      exact h
  · exact h

theorem not_unchanged_delete {s w : Volume} {o : Opened} (h : Quiet s w) (ha : Allocated s)
    (truncate : Bool) (hvalid : (w.inodes o.node).isvalid % 256 ≠ 0) (hplace : Located s w o) :
    ¬ Unchanged s (afterDelete (inodeDelete w o.node o.parent) o.node truncate) := by
  rintro ⟨hd, hp⟩
  have hinv := inodeDelete_isvalid w o.node o.parent
  have hsteady := afterDelete_steady (inodeDelete w o.node o.parent) o.node truncate
  by_cases hn : o.node ∈ s.inodelist
  · have hv := (hp _ hn).1
    rw [hsteady.isvalid, hinv, ← h.header _ (ha _ hn)] at hv
    simp [← hv] at hvalid
  by_cases hpar : ∃ p, o.parent = some p ∧ p ∈ s.inodelist
  · obtain ⟨p, hop, hps⟩ := hpar
    have hc := (hp p hps).2.2.2
    rw [hsteady.childCount, hop, inodeDelete_childCount, ← h.header _ (ha _ hps)] at hc
    exact sub32_one_ne _ hc
  · push Not at hpar
    obtain ⟨hword, hfits⟩ := hplace hn hpar
    apply hword
    rw [h.disk, ← hd]
    exact afterDelete_disk truncate hinv (inodeDelete_disk hfits)

theorem openExisting_delete {w : Volume} {o : Opened} (truncate : Bool) (dir : ℕ)
    (hc : ¬ HasChild (w.inodes o.node)) : (openExisting w truncate dir true o).1 =
      afterDelete (inodeDelete w o.node o.parent) o.node truncate := by
  have hn : ¬ ((if (w.inodes o.node).type = inodeTypeDir then 1 else 0) ≠ 0 ∧
      (w.inodes o.node).childCount > 0) := by
    rintro ⟨ht, hcc⟩
    refine hc ⟨?_, hcc⟩
    by_contra hne
    rw [if_neg hne] at ht
    exact ht rfl
  simp only [openExisting, if_true, if_neg hn, afterDelete]
  cases truncate <;> rfl

theorem openExisting_keep {w : Volume} {o : Opened} (truncate : Bool) (dir : ℕ) {unlink : Bool}
    (hc : unlink = true → HasChild (w.inodes o.node)) : (openExisting w truncate dir unlink o).1 =
      if truncate then inodeTruncate w o.node else w := by
  cases unlink with
  | false => cases truncate <;> rfl
  | true =>
    obtain ⟨ht, hcc⟩ := hc rfl
    simp only [openExisting, ht, hcc, if_true, ne_eq, Nat.one_ne_zero, not_false_eq_true, and_self]
    cases truncate <;> rfl

theorem openMissing_fails {w u : Volume} {o : Opened} {pathbuf : PathbufT} {create : Bool} {dir : ℕ}
    {result : ℤ} (h : openMissing w pathbuf create dir o = some (u, result)) (hfail : result ≠ 0) :
    u = w := by
  unfold openMissing at h
  split_ifs at h
  · split at h
    · obtain ⟨v, -, hv⟩ := Option.map_eq_some_iff.mp h
      rw [Prod.mk.injEq] at hv
      exact absurd hv.2.symm hfail
    · cases h
  · rw [Option.some.injEq, Prod.mk.injEq] at h
    exact h.1.symm

/-- A failing open leaves the disk and the cached inodes alone if it is harmless, and only then. -/
theorem failing_open (s t : Volume) (pathbuf : PathbufT) (create truncate : Bool) (dir : ℕ)
    (unlink : Bool) (node : Option ℕ) (result : ℤ) (ha : Allocated s)
    (hopen : fsOpen s pathbuf create truncate dir unlink = some (t, node, result)) (hfail : result ≠ 0) :
    (Harmless s pathbuf truncate unlink → Unchanged s t) ∧
    ((∀ w o, fsNodeOpen s pathbuf = some (w, some o) → unlink = true → Located s w o) →
      Unchanged s t → Harmless s pathbuf truncate unlink) := by
  unfold fsOpen at hopen
  rcases hwalk : fsNodeOpen s pathbuf with _ | ⟨w, _ | o⟩
  · rw [hwalk] at hopen
    cases hopen
  · -- The walk fails: no later branch is reached.
    have hq := quiet_fsNodeOpen hwalk
    rw [hwalk] at hopen
    simp only [Option.some.injEq, Prod.mk.injEq] at hopen
    obtain ⟨rfl, -, -⟩ := hopen
    refine ⟨fun _ => hq.unchanged ha, fun _ _ w' o ho => ?_⟩
    rw [hwalk] at ho
    cases ho
  · have hq := quiet_fsNodeOpen hwalk
    have hharm : Harmless s pathbuf truncate unlink ↔ ((w.inodes o.node).isvalid % 256 ≠ 0 →
        (unlink = true → HasChild (w.inodes o.node)) ∧ (truncate = true → Emptied s w o.node)) := by
      constructor
      · exact fun h => h w o hwalk
      · rintro h w' o' ho
        rw [hwalk, Option.some.injEq, Prod.mk.injEq, Option.some.injEq] at ho
        obtain ⟨rfl, rfl⟩ := ho
        exact h
    rw [hharm]
    rw [hwalk] at hopen
    obtain ⟨⟨u, r⟩, hbranch, hres⟩ := Option.map_eq_some_iff.mp hopen
    simp only [Prod.mk.injEq] at hres
    obtain ⟨rfl, -, rfl⟩ := hres
    rw [unchanged_close]
    by_cases hvalid : (w.inodes o.node).isvalid % 256 = 0
    · rw [if_pos hvalid] at hbranch
      obtain rfl := openMissing_fails hbranch hfail
      exact ⟨fun _ => hq.unchanged ha, fun _ _ hv => absurd hvalid hv⟩
    · rw [if_neg hvalid, Option.some.injEq] at hbranch
      obtain rfl : (openExisting w truncate dir unlink o).1 = u := by rw [hbranch]
      by_cases hc : unlink = true → HasChild (w.inodes o.node)
      · rw [openExisting_keep truncate dir hc]
        cases truncate with
        | false => exact ⟨fun _ => hq.unchanged ha, fun _ _ _ => ⟨hc, by simp⟩⟩
        | true =>
          rw [if_pos rfl, unchanged_truncate hq ha]
          exact ⟨fun h => (h hvalid).2 rfl, fun _ h _ => ⟨hc, fun _ => h⟩⟩
      · push Not at hc
        obtain ⟨rfl, hc⟩ := hc
        rw [openExisting_delete truncate dir hc]
        refine ⟨fun h => absurd ((h hvalid).1 rfl) hc, fun hl hu => ?_⟩
        exact absurd hu (not_unchanged_delete hq ha truncate hvalid (hl w o rfl rfl))

theorem oneFile_allocated : Allocated oneFile := by
  unfold Allocated
  decide

theorem failing_open_through_file : ∃ t, fsOpen oneFile (pathbufChild (pathbufChild pathbufRoot fileName)
    fileName) true true 0 true = some (t, none, fsErrInvalidPath) ∧ Unchanged oneFile t :=
  ⟨_, rfl, (failing_open oneFile _ (pathbufChild (pathbufChild pathbufRoot fileName) fileName) true true 0
    true none fsErrInvalidPath oneFile_allocated rfl (by decide)).1 fun _ _ ho => nomatch ho⟩

/-- Truncating the root as if it were a file is reported as an error after the root has been emptied. -/
theorem truncated_root : ¬ ∀ (s t : Volume) (pathbuf : PathbufT) (create truncate : Bool) (dir : ℕ)
    (unlink : Bool) (node : Option ℕ) (result : ℤ), Allocated s →
    fsOpen s pathbuf create truncate dir unlink = some (t, node, result) → result ≠ 0 →
    Unchanged s t := by
  intro h
  have hu := h oneFile _ pathbufRoot false true 0 false (some 0) fsErrInvalidPath oneFile_allocated rfl
    (by decide)
  exact absurd (hu.2 0 (by decide)).2.1 (by decide)

end Eedox.Fs
