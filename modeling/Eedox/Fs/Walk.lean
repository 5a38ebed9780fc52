import Eedox.Fs.Node

namespace Eedox.Fs

open Util Library.Bytes Ata Pathbuf Childtable

/-- Nothing that lives on the disk has changed from `s` to `t`, and no header of an inode that `s` knows. -/
structure Quiet (s t : Volume) : Prop where
  disk : t.disk = s.disk
  tail : t.tail = s.tail
  next : s.nextInode ≤ t.nextInode
  header : ∀ p, p < s.nextInode → (t.inodes p).toHeader = (s.inodes p).toHeader

theorem Quiet.refl (s : Volume) : Quiet s s := ⟨rfl, rfl, le_rfl, fun _ _ => rfl⟩

theorem Quiet.trans {s t u : Volume} (h : Quiet s t) (h' : Quiet t u) : Quiet s u :=
  ⟨h'.disk.trans h.disk, h'.tail.trans h.tail, h.next.trans h'.next,
    fun p hp => (h'.header p (hp.trans_le h.next)).trans (h.header p hp)⟩

theorem setInode_header {s : Volume} {node : ℕ} {f : InodeT → InodeT}
    (hf : (f (s.inodes node)).toHeader = (s.inodes node).toHeader) (p : ℕ) :
    ((setInode s node f).inodes p).toHeader = (s.inodes p).toHeader := by
  by_cases hp : p = node
  · subst hp
    rw [setInode_self, hf]
  · rw [setInode_other f hp]

theorem fsNodeClose_header (s : Volume) (node : Option ℕ) (p : ℕ) :
    ((fsNodeClose s node).inodes p).toHeader = (s.inodes p).toHeader := by
  cases node with
  | none => rfl
  | some node =>
    have h := @setInode_header s node (fun n => { n with refs := sub32 n.refs 1 }) rfl p
    unfold fsNodeClose
    simp only
    split_ifs
    · exact h
    · exact h

theorem closeAll_header (nodes : List ℕ) (s : Volume) (p : ℕ) :
    ((nodes.foldl (fun s node => fsNodeClose s (some node)) s).inodes p).toHeader = (s.inodes p).toHeader := by
  induction nodes generalizing s with
  | nil => rfl
  | cons node nodes ih => exact (ih _).trans (fsNodeClose_header s (some node) p)

@[simp] theorem fsNodeClose_disk (s : Volume) (node : Option ℕ) : (fsNodeClose s node).disk = s.disk := by
  cases node with
  | none => rfl
  | some node =>
    unfold fsNodeClose
    simp only
    split_ifs <;> rfl

theorem quiet_fsNodeClose (s : Volume) (node : Option ℕ) : Quiet s (fsNodeClose s node) := by
  refine ⟨fsNodeClose_disk s node, ?_, ?_, fun p _ => fsNodeClose_header s node p⟩
  · cases node with
    | none => rfl
    | some node =>
      unfold fsNodeClose
      simp only
      split_ifs <;> rfl
  · cases node with
    | none => exact le_rfl
    | some node =>
      unfold fsNodeClose
      simp only
      split_ifs <;> exact le_rfl

theorem quiet_closeAll (s : Volume) (nodes : List ℕ) :
    Quiet s (nodes.foldl (fun s node => fsNodeClose s (some node)) s) := by
  induction nodes generalizing s with
  | nil => exact Quiet.refl s
  | cons node nodes ih => exact (quiet_fsNodeClose s (some node)).trans (ih _)

theorem quiet_fsNodeRoot {s t : Volume} {root : ℕ} (h : fsNodeRoot s = some (t, root)) : Quiet s t := by
  obtain ⟨node, -, he⟩ := Option.map_eq_some_iff.mp h
  rw [Prod.mk.injEq] at he
  rw [← he.1]
  exact ⟨rfl, rfl, le_rfl, fun p _ => setInode_header rfl p⟩

theorem quiet_fsNodeChild (s : Volume) (node : ℕ) (name : Str) : Quiet s (fsNodeChild s node name).1 := by
  unfold fsNodeChild
  simp only
  split
  · exact Quiet.refl s
  · refine ⟨rfl, rfl, Nat.le_succ _, fun p hp => ?_⟩
    have hne : p ≠ s.nextInode := hp.ne
    rw [setInode_other _ hne, inodeNew_other hne]

theorem quiet_walk {pathbuf : PathbufT} {fuel : ℕ} {s t : Volume} {ptr : ℕ} {loaded : List ℕ}
    {node : ℕ} {nodes : List ℕ} {found : Bool}
    (h : walk pathbuf fuel s ptr loaded = some (t, node, nodes, found)) : Quiet s t := by
  induction fuel generalizing s ptr loaded with
  | zero => cases h
  | succ fuel ih =>
    unfold walk at h
    split_ifs at h
    · rw [Option.some.injEq, Prod.mk.injEq] at h
      rw [← h.1]
      exact Quiet.refl s
    · rw [Option.some.injEq, Prod.mk.injEq] at h
      rw [← h.1]
      exact Quiet.refl s
    · rw [Option.some.injEq, Prod.mk.injEq] at h
      rw [← h.1]
      exact Quiet.refl s
    · split at h
      · cases h
      · exact (quiet_fsNodeChild s ptr _).trans (ih h)

theorem quiet_fsNodeOpen {s t : Volume} {pathbuf : PathbufT} {o : Option Opened}
    (h : fsNodeOpen s pathbuf = some (t, o)) : Quiet s t := by
  unfold fsNodeOpen at h
  split at h
  · cases h
  · rename_i u root hroot
    have hq := quiet_fsNodeRoot hroot
    split at h
    · cases h
    · rename_i v ptr loaded hwalk
      rw [Option.some.injEq, Prod.mk.injEq] at h
      rw [← h.1]
      exact hq.trans ((quiet_walk hwalk).trans (quiet_closeAll v _))
    · rename_i v ptr loaded hwalk
      rw [Option.some.injEq, Prod.mk.injEq] at h
      rw [← h.1]
      exact hq.trans ((quiet_walk hwalk).trans (quiet_closeAll v _))

theorem fsNodeChild_path (s : Volume) (node : ℕ) (name : Str) :
    ((fsNodeChild s node name).1.inodes (fsNodeChild s node name).2).pathbuf =
      pathbufChild (s.inodes node).pathbuf name := by
  unfold fsNodeChild
  simp only
  cases hget : inodelistGet s (pathbufChild (s.inodes node).pathbuf name) with
  | some child =>
    have hcmp := List.find?_some hget
    exact pathbufCmp_eq.mp hcmp
  | none =>
    simp only
    rw [setInode_self, inodeChild]
    split_ifs <;> simp [inodeNew]

/-- The part of a path that a walk has reached after `k` fields. -/
def upTo (pathbuf : PathbufT) (k : ℕ) : PathbufT := { pathbuf with fields := pathbuf.fields.take k }

theorem upTo_succ {pathbuf : PathbufT} {k : ℕ} {name : Str} (h : pathbuf.fields[k]? = some name) :
    pathbufChild (upTo pathbuf k) name = upTo pathbuf (k + 1) := by
  unfold pathbufChild upTo
  rw [List.take_add_one, h]
  rfl

theorem pathbufLen_upTo {pathbuf : PathbufT} {k : ℕ} (h : k ≤ pathbufLen pathbuf) :
    pathbufLen (upTo pathbuf k) = k := by
  unfold pathbufLen upTo at *
  rw [List.length_take, min_eq_left h]

theorem upTo_len (pathbuf : PathbufT) : upTo pathbuf (pathbufLen pathbuf) = pathbuf := by
  unfold upTo pathbufLen
  rw [List.take_length]

/-- Each round of the loop goes one field further, and the last one finds the whole path. -/
theorem walk_total {pathbuf : PathbufT} {fuel k : ℕ} {s : Volume} {ptr : ℕ} {loaded : List ℕ}
    (hpath : (s.inodes ptr).pathbuf = upTo pathbuf k) (hk : k ≤ pathbufLen pathbuf)
    (hfuel : pathbufLen pathbuf - k < fuel) : ∃ r, walk pathbuf fuel s ptr loaded = some r := by
  induction fuel generalizing s ptr loaded k with
  | zero => omega
  | succ fuel ih =>
    unfold walk
    split_ifs with hcmp
    · exact ⟨_, rfl⟩
    · exact ⟨_, rfl⟩
    · exact ⟨_, rfl⟩
    · have hlt : k < pathbufLen pathbuf := by
        apply lt_of_le_of_ne hk
        rintro rfl
        rw [hpath, upTo_len] at hcmp
        exact hcmp (pathbufCmp_eq.mpr rfl)
      obtain ⟨name, hname⟩ : ∃ name, pathbuf.fields[k]? = some name := ⟨_, List.getElem?_eq_getElem hlt⟩
      rw [hpath, pathbufLen_upTo hk, hname]
      apply ih (k := k + 1)
      · rw [fsNodeChild_path, hpath, upTo_succ hname]
      · exact hlt
      · omega

/-- The list of cached inodes starts with the root directory. -/
def RootCached (s : Volume) : Prop :=
  ∃ root, s.inodelist.head? = some root ∧ (s.inodes root).pathbuf = pathbufRoot

theorem rootWalk_total {s : Volume} {pathbuf : PathbufT} (hs : RootCached s) (hp : Rooted pathbuf) :
    ∃ t root r, fsNodeRoot s = some (t, root) ∧ walk pathbuf (pathbufLen pathbuf + 1) t root [] = some r := by
  obtain ⟨root, hfirst, hpath⟩ := hs
  have hstart : pathbufRoot = upTo pathbuf 0 := by
    unfold upTo pathbufRoot
    rw [hp.1, hp.2, List.take_zero]
  obtain ⟨r, hwalk⟩ := @walk_total pathbuf (pathbufLen pathbuf + 1) 0
    (setInode s root fun n => { n with refs := (n.refs + 1) % 2 ^ 32 }) root []
    (by rw [setInode_self, ← hstart, hpath]) (Nat.zero_le _) (by omega)
  refine ⟨_, root, r, ?_, hwalk⟩
  rw [fsNodeRoot, hfirst, Option.map_some]

theorem fsNodeOpen_total {s : Volume} {pathbuf : PathbufT} (hs : RootCached s) (hp : Rooted pathbuf) :
    ∃ r, fsNodeOpen s pathbuf = some r := by
  obtain ⟨t, root, ⟨u, node, loaded, found⟩, hroot, hwalk⟩ := rootWalk_total hs hp
  unfold fsNodeOpen
  rw [hroot]
  simp only
  rw [hwalk]
  cases found
  · exact ⟨_, rfl⟩
  · exact ⟨_, rfl⟩

/-- A call that creates nothing comes to an end as soon as its lookup does. -/
theorem fsOpen_total {s : Volume} {pathbuf : PathbufT} (hs : RootCached s) (hp : Rooted pathbuf)
    (truncate : Bool) (dir : ℕ) (unlink : Bool) : ∃ r, fsOpen s pathbuf false truncate dir unlink = some r := by
  obtain ⟨⟨t, o⟩, hopen⟩ := fsNodeOpen_total hs hp
  unfold fsOpen
  rw [hopen]
  cases o with
  | none => exact ⟨_, rfl⟩
  | some o =>
    simp only [openMissing, Bool.false_eq_true, if_false]
    by_cases hv : (t.inodes o.node).isvalid % 256 = 0
    · rw [if_pos hv]
      exact ⟨_, rfl⟩
    · rw [if_neg hv]
      exact ⟨_, rfl⟩

end Eedox.Fs
