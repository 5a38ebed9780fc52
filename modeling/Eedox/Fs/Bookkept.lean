import Eedox.Fs.Node

namespace Eedox.Fs

open Util Library.Bytes Ata Pathbuf Childtable

structure Bookkept (s t : Volume) : Prop where
  inodelist : t.inodelist = s.inodelist
  freed : t.freed = s.freed
  nextInode : t.nextInode = s.nextInode
  refs : ∀ p, (t.inodes p).refs = (s.inodes p).refs
  pathbuf : ∀ p, (t.inodes p).pathbuf = (s.inodes p).pathbuf
  parent : ∀ p, (t.inodes p).parent = (s.inodes p).parent

theorem Bookkept.refl (s : Volume) : Bookkept s s :=
  ⟨rfl, rfl, rfl, fun _ => rfl, fun _ => rfl, fun _ => rfl⟩

theorem Bookkept.trans {s t u : Volume} (h : Bookkept s t) (h' : Bookkept t u) : Bookkept s u :=
  ⟨h'.inodelist.trans h.inodelist, h'.freed.trans h.freed, h'.nextInode.trans h.nextInode,
    fun p => (h'.refs p).trans (h.refs p), fun p => (h'.pathbuf p).trans (h.pathbuf p),
    fun p => (h'.parent p).trans (h.parent p)⟩

variable {s t : Volume}

theorem Bookkept.setInode (h : Bookkept s t) (node : ℕ) {f : InodeT → InodeT}
    (hf : ∀ n, (f n).refs = n.refs ∧ (f n).pathbuf = n.pathbuf ∧ (f n).parent = n.parent) :
    Bookkept s (setInode t node f) := by
  have hfield {β : Type} (g : InodeT → β) (hg : ∀ n, g (f n) = g n) (p : ℕ) :
      g ((Fs.setInode t node f).inodes p) = g (t.inodes p) := by
    by_cases hp : p = node
    · subst hp
      rw [setInode_self, hg]
    · rw [setInode_other _ hp]
  refine h.trans ⟨rfl, rfl, rfl, ?_, ?_, ?_⟩
  · exact hfield (fun n => n.refs) fun n => (hf n).1
  · exact hfield (fun n => n.pathbuf) fun n => (hf n).2.1
  · exact hfield (fun n => n.parent) fun n => (hf n).2.2

theorem Bookkept.setDisk (h : Bookkept s t) (disk : Disk) : Bookkept s { t with disk := disk } :=
  h.trans ⟨rfl, rfl, rfl, fun _ => rfl, fun _ => rfl, fun _ => rfl⟩

theorem Bookkept.update (h : Bookkept s t) (node : ℕ) : Bookkept s (inodeUpdate t node) :=
  h.setDisk _

theorem Bookkept.balloc (h : Bookkept s t) (size : ℕ) : Bookkept s (balloc t size) :=
  h.trans ⟨rfl, rfl, rfl, fun _ => rfl, fun _ => rfl, fun _ => rfl⟩

theorem Bookkept.storeBytes (h : Bookkept s t) (node bytesFrom : ℕ) (buffer : List UInt8) :
    Bookkept s (storeBytes t node bytesFrom buffer) := by
  unfold Fs.storeBytes
  simp only
  refine Bookkept.setDisk ?_ _
  split_ifs
  · exact (h.setInode node (by exact fun _ => ⟨rfl, rfl, rfl⟩)).update node
  · exact h

theorem Bookkept.moveExtent (h : Bookkept s t) (node sectors : ℕ) :
    Bookkept s (moveExtent t node sectors) := by
  unfold Fs.moveExtent
  exact (((h.balloc _).setDisk _).setInode node (by exact fun _ => ⟨rfl, rfl, rfl⟩)).update node

theorem bookkept_inodeWrite_of {node bytesFrom : ℕ} {buffer : List UInt8} {parent : Option ℕ}
    (h : ∀ sectors, Bookkept s (inodeRealloc s node sectors parent)) :
    Bookkept s (inodeWrite s node bytesFrom buffer parent) := by
  rw [inodeWrite]
  by_cases hb : buffer.length = 0
  · rw [if_pos hb]
    exact Bookkept.refl s
  · rw [if_neg hb]
    apply Bookkept.storeBytes
    split_ifs
    · exact h _
    · exact Bookkept.refl s

theorem bookkept_inodeChildSet_of {node : ℕ} {op : ChildOperation} {parent : Option ℕ}
    (h : ∀ s bytesFrom buffer, Bookkept s (inodeWrite s node bytesFrom buffer parent)) :
    Bookkept s (inodeChildSet s node op parent) := by
  rw [inodeChildSet]
  exact (((Bookkept.refl s).setInode node (by exact fun _ => ⟨rfl, rfl, rfl⟩)).trans (h _ _ _)).update node

theorem bookkept_inodeRealloc_none (s : Volume) (node sectors : ℕ) :
    Bookkept s (inodeRealloc s node sectors none) := by
  rw [inodeRealloc]
  exact ((Bookkept.refl s).moveExtent node sectors).setDisk _

theorem bookkept_inodeChildSet_none (s : Volume) (node : ℕ) (op : ChildOperation) :
    Bookkept s (inodeChildSet s node op none) :=
  bookkept_inodeChildSet_of fun s _ _ => bookkept_inodeWrite_of (bookkept_inodeRealloc_none s node)

theorem bookkept_inodeRealloc (s : Volume) (node sectors : ℕ) (parent : Option ℕ) :
    Bookkept s (inodeRealloc s node sectors parent) := by
  cases parent with
  | none => exact bookkept_inodeRealloc_none s node sectors
  | some p =>
    rw [inodeRealloc]
    exact ((Bookkept.refl s).moveExtent node sectors).trans (bookkept_inodeChildSet_none _ p _)

theorem bookkept_inodeChildSet (s : Volume) (node : ℕ) (op : ChildOperation) (parent : Option ℕ) :
    Bookkept s (inodeChildSet s node op parent) :=
  bookkept_inodeChildSet_of fun s _ _ => bookkept_inodeWrite_of fun sectors =>
    bookkept_inodeRealloc s node sectors parent

theorem bookkept_inodeCreate {dir parent node : ℕ} {name : Str} {gparent : Option ℕ}
    (h : inodeCreate s dir parent name node gparent = some t) : Bookkept s t := by
  unfold inodeCreate at h
  by_cases hn : strlen name.chars > 256
  · rw [if_pos hn] at h
    cases h
  rw [if_neg hn] at h
  obtain rfl := Option.some.inj h
  refine Bookkept.trans ?_ (bookkept_inodeChildSet _ parent _ gparent)
  exact (((Bookkept.refl s).balloc 1).setInode node (by exact fun _ => ⟨rfl, rfl, rfl⟩)).update node

theorem bookkept_inodeTruncate (s : Volume) (node : ℕ) : Bookkept s (inodeTruncate s node) :=
  ((Bookkept.refl s).setInode node (by exact fun _ => ⟨rfl, rfl, rfl⟩)).update node

theorem bookkept_openMissing {pathbuf : PathbufT} {create : Bool} {dir : ℕ} {o : Opened}
    {result : ℤ} (h : openMissing s pathbuf create dir o = some (t, result)) : Bookkept s t := by
  unfold openMissing at h
  split_ifs at h
  · split at h
    · obtain ⟨u, hu, he⟩ := Option.map_eq_some_iff.mp h
      cases he
      exact bookkept_inodeCreate hu
    · cases h
  · cases h
    exact Bookkept.refl s

theorem bookkept_inodeDelete (s : Volume) (node : ℕ) (parent : Option ℕ) :
    Bookkept s (inodeDelete s node parent) := by
  have h := ((Bookkept.refl s).setInode node (f := fun n => { n with isvalid := 0 })
    (by exact fun _ => ⟨rfl, rfl, rfl⟩)).update node
  unfold inodeDelete
  cases parent with
  | none => exact h
  | some p => exact h.trans (bookkept_inodeChildSet _ p _ none)

theorem bookkept_openExisting (s : Volume) (truncate : Bool) (dir : ℕ) (unlink : Bool) (o : Opened) :
    Bookkept s (openExisting s truncate dir unlink o).1 := by
  have hcut (u : Volume × ℤ) (h : Bookkept s u.1) : Bookkept s
      (if truncate then (inodeTruncate u.1 o.node, u.2) else u).1 := by
    cases truncate
    · exact h
    · exact h.trans (bookkept_inodeTruncate u.1 o.node)
  unfold openExisting
  apply hcut
  cases unlink with
  | false => exact Bookkept.refl s
  | true => split_ifs <;> first
      | exact Bookkept.refl s
      | exact bookkept_inodeDelete s o.node o.parent

end Eedox.Fs
