import Eedox.FsCalls
import Eedox.Fs.References

namespace Eedox.CachedPaths

open Library.Runs Pathbuf Fs FsCalls

/-- No two entries of the inode list have equal paths. -/
def Distinct (v : Volume) : Prop :=
  v.inodelist.Pairwise fun p q => pathbufCmp (v.inodes p).pathbuf (v.inodes q).pathbuf = false

/-- Entries may have left the list, and no path has changed. -/
structure Trimmed (v w : Volume) : Prop where
  inodelist : w.inodelist.Sublist v.inodelist
  pathbuf : ∀ p, (w.inodes p).pathbuf = (v.inodes p).pathbuf

theorem Trimmed.refl (v : Volume) : Trimmed v v := ⟨List.Sublist.refl _, fun _ => rfl⟩

theorem Trimmed.trans {v w x : Volume} (h : Trimmed v w) (h' : Trimmed w x) : Trimmed v x :=
  ⟨h'.inodelist.trans h.inodelist, fun p => (h'.pathbuf p).trans (h.pathbuf p)⟩

theorem Trimmed.distinct {v w : Volume} (h : Trimmed v w) (hv : Distinct v) : Distinct w := by
  unfold Distinct
  simp only [h.pathbuf]
  exact hv.sublist h.inodelist

theorem inodelistRemove_sublist (node : ℕ) (nodes : List ℕ) :
    (inodelistRemove node nodes).Sublist nodes := by
  induction nodes using inodelistRemove.induct node with
  | case1 => exact List.Sublist.refl _
  | case2 =>
    rw [inodelistRemove, if_pos rfl]
    exact List.nil_sublist _
  | case3 q rest ih =>
    rw [inodelistRemove, if_pos rfl]
    exact (ih.cons_cons q).cons node
  | case4 p rest hne ih =>
    rw [inodelistRemove.eq_def]
    simp only [hne, ↓reduceIte]
    exact ih.cons_cons p

theorem trimmed_setInode (v : Volume) (node : ℕ) {f : InodeT → InodeT}
    (hf : ∀ n, (f n).pathbuf = n.pathbuf) : Trimmed v (setInode v node f) := by
  refine ⟨List.Sublist.refl _, fun p => ?_⟩
  by_cases hp : p = node
  · subst hp
    rw [setInode_self, hf]
  · rw [setInode_other f hp]

theorem trimmed_fsNodeRoot {v : Volume} {r : Volume × ℕ} (h : fsNodeRoot v = some r) :
    Trimmed v r.1 := by
  obtain ⟨node, -, rfl⟩ := Option.map_eq_some_iff.mp h
  exact trimmed_setInode (f := fun n => { n with refs := (n.refs + 1) % 2 ^ 32 }) v node fun _ => rfl

theorem trimmed_fsNodeClose (v : Volume) (node : Option ℕ) : Trimmed v (fsNodeClose v node) := by
  refine ⟨?_, fun p => (fsNodeClose_pathbuf v node p).1⟩
  cases node with
  | none => exact List.Sublist.refl _
  | some node =>
    unfold fsNodeClose
    simp only
    split_ifs
    · exact inodelistRemove_sublist node v.inodelist
    · exact List.Sublist.refl _

theorem trimmed_closeAll (v : Volume) (nodes : List ℕ) : Trimmed v (closeAll v nodes) := by
  unfold closeAll
  induction nodes generalizing v with
  | nil => exact Trimmed.refl v
  | cons node nodes ih => exact (trimmed_fsNodeClose v (some node)).trans (ih _)

theorem trimmed_effect (e : Effect) (v : Volume) : Trimmed v (e.apply v) :=
  ⟨List.Sublist.refl _, fun _ => rfl⟩

/-- An inode has been added for a path that no cached inode has. -/
def Added (v w : Volume) : Prop :=
  ∃ path address, inodelistGet v path = none ∧ address ∉ v.inodelist ∧
    w = inodeNew { v with nextInode := address } path

theorem Added.distinct {v w : Volume} (h : Added v w) (hv : Distinct v) : Distinct w := by
  obtain ⟨path, address, hget, hfresh, rfl⟩ := h
  have hself : ((inodeNew { v with nextInode := address } path).inodes address).pathbuf = path := by
    simp [inodeNew, setInode]
  have hother (p : ℕ) (hp : p ∈ v.inodelist) :
      (inodeNew { v with nextInode := address } path).inodes p = v.inodes p := by
    have hne : p ≠ address := fun he => hfresh (he ▸ hp)
    exact inodeNew_other hne
  apply List.pairwise_append.mpr
  refine ⟨?_, List.pairwise_singleton _ _, fun p hp q hq => ?_⟩
  · apply List.Pairwise.imp_of_mem _ hv
    intro p q hp hq hpq
    rw [hother p hp, hother q hq]
    exact hpq
  · have hq : q = address := List.mem_singleton.mp hq
    have hcmp := List.find?_eq_none.mp hget p hp
    rw [hother p hp, hq, hself]
    simpa using hcmp

section Step

variable {T : Type} [DecidableEq T] {s s' : State T}

theorem fsNodeChildLocked_volume {t : T} {pathbuf path : PathbufT} {node address : ℕ} {loaded : List ℕ}
    (h : fsNodeChildLocked s t pathbuf node path loaded address = some s') :
    Trimmed s.volume s'.volume ∨ Added s.volume s'.volume := by
  unfold fsNodeChildLocked at h
  split at h
  · obtain rfl := Option.some.inj h
    exact Or.inl (Trimmed.refl _)
  · rename_i hget
    split_ifs at h with hfresh
    obtain rfl := Option.some.inj h
    exact Or.inr ⟨path, address, hget, hfresh, rfl⟩

theorem fsNodeChild_volume (s : State T) (t : T) (pathbuf : PathbufT) (node : ℕ) (name : Util.Str)
    (loaded : List ℕ) : (FsCalls.fsNodeChild s t pathbuf node name loaded).volume = s.volume := by
  unfold FsCalls.fsNodeChild
  simp only
  split <;> rfl

theorem walkLocked_volume {t : T} {pathbuf : PathbufT} {ptr : ℕ} {loaded : List ℕ}
    (h : walkLocked s t pathbuf ptr loaded = some s') : Trimmed s.volume s'.volume := by
  unfold walkLocked at h
  simp only at h
  split_ifs at h
  · obtain rfl := Option.some.inj h
    exact trimmed_closeAll s.volume (loaded ++ [ptr])
  · split at h
    · cases h
    · obtain rfl := Option.some.inj h
      rw [fsNodeChild_volume]
      exact Trimmed.refl _

theorem walkHead_volume (s : State T) (t : T) (pathbuf : PathbufT) (ptr : ℕ) (loaded : List ℕ) :
    Trimmed s.volume (walkHead s t pathbuf ptr loaded).volume := by
  unfold walkHead
  split_ifs
  · exact trimmed_closeAll s.volume loaded.dropLast.dropLast
  · exact Trimmed.refl _

theorem unlocked_volume (s : State T) (t : T) (w : Work) : Trimmed s.volume (unlocked s t w).volume := by
  cases w with
  | opened o =>
    have h := (trimmed_setInode s.volume o.node (f := fun n => { n with parent := o.parent })
      fun _ => rfl).trans (trimmed_fsNodeClose _ o.gparent)
    unfold unlocked
    simp only [fsNodeUnlock_volume]
    exact h
  | write node parent =>
    unfold unlocked
    rw [fsNodeUnlock_volume]
    exact Trimmed.refl _
  | read node =>
    unfold unlocked
    rw [fsNodeUnlock_volume]
    exact Trimmed.refl _

theorem call_volume {t : T} {c : Call} (h : call s t c = some s') : Trimmed s.volume s'.volume := by
  cases c with
  | opened pathbuf =>
    obtain ⟨r, hr, rfl⟩ := Option.map_eq_some_iff.mp h
    exact trimmed_fsNodeRoot hr
  | close node =>
    obtain rfl := Option.some.inj h
    exact (trimmed_fsNodeClose s.volume node).trans (trimmed_fsNodeClose _ _)
  | write node =>
    obtain rfl := Option.some.inj h
    exact Trimmed.refl _
  | read node =>
    obtain rfl := Option.some.inj h
    exact Trimmed.refl _
  | readdir node =>
    obtain rfl := Option.some.inj h
    exact Trimmed.refl _

theorem go_volume {t : T} {address : ℕ} (h : go s t address = some s') :
    Trimmed s.volume s'.volume ∨ Added s.volume s'.volume := by
  unfold go at h
  split at h
  · obtain rfl := Option.some.inj h
    exact Or.inl (walkHead_volume s t _ _ _)
  · split_ifs at h
    · obtain rfl := Option.some.inj h
      exact Or.inl (Trimmed.refl _)
    · have hw := walkLocked_volume h
      exact Or.inl hw
  · split_ifs at h
    · obtain rfl := Option.some.inj h
      exact Or.inl (Trimmed.refl _)
    · have hc := fsNodeChildLocked_volume h
      exact hc
  · obtain rfl := Option.some.inj h
    exact Or.inl (Trimmed.refl _)
  · split_ifs at h
    · obtain rfl := Option.some.inj h
      exact Or.inl (Trimmed.refl _)
    · obtain rfl := Option.some.inj h
      exact Or.inl (Trimmed.refl _)
  · cases h

omit [DecidableEq T] in
theorem disk_volume {t : T} {e : Effect} (h : disk s t e = some s') : Trimmed s.volume s'.volume := by
  unfold disk at h
  split at h
  · obtain rfl := Option.some.inj h
    exact Trimmed.refl _
  · obtain rfl := Option.some.inj h
    exact trimmed_effect e s.volume
  · cases h

theorem finish_volume {t : T} {e : Effect} (h : finish s t e = some s') :
    Trimmed s.volume s'.volume := by
  unfold finish at h
  split at h
  · rename_i child _ _
    obtain rfl := Option.some.inj h
    exact trimmed_setInode (f := fun n => { n with toHeader := e.header child }) s.volume child
      fun _ => rfl
  · rename_i w _
    obtain rfl := Option.some.inj h
    have hw := unlocked_volume { s with volume := e.apply s.volume } t w
    exact (trimmed_effect e s.volume).trans hw
  · cases h

/-- A step adds at most one entry to the list, for a path that the list does not have at that moment. -/
theorem step_volume {a : Action T} (h : step s a = some s') :
    Trimmed s.volume s'.volume ∨ Added s.volume s'.volume := by
  cases a with
  | call t c =>
    simp only [step] at h
    split at h
    · exact Or.inl (call_volume h)
    · cases h
  | dispatch t =>
    simp only [step] at h
    split at h
    · cases h
    · split_ifs at h
      obtain rfl := Option.some.inj h
      exact Or.inl (Trimmed.refl _)
    · cases h
  | go t address =>
    simp only [step, Option.ite_none_right_eq_some] at h
    exact go_volume h.2
  | disk t e =>
    simp only [step, Option.ite_none_right_eq_some] at h
    exact Or.inl (disk_volume h.2)
  | finish t e =>
    simp only [step, Option.ite_none_right_eq_some] at h
    exact Or.inl (finish_volume h.2)

theorem distinct_step {a : Action T} (hd : Distinct s.volume) (h : step s a = some s') :
    Distinct s'.volume := by
  rcases step_volume h with h | h
  · exact h.distinct hd
  · exact h.distinct hd

theorem fsInit_inodelist (v : Volume) : (fsInit v).inodelist = [v.nextInode] := by
  have hbinit : (binit v).nextInode = v.nextInode := by
    unfold binit
    simp only
    split_ifs <;> rfl
  unfold fsInit
  simp only
  split_ifs <;> simp [inodeNew, setInode, balloc, ballocUpdate, hbinit]

/-- From the start of the file system on, however the calls are interleaved, no path is cached twice. -/
theorem distinct_exec (v : Volume) (as : List (Action T)) (s : State T)
    (h : exec step (init T (fsInit v)) as = some s) : Distinct s.volume := by
  apply exec_invariant (fun _ _ _ hi _ hs => distinct_step hi hs) _ (meets_true _ _) h
  change Distinct (fsInit v)
  rw [Distinct, fsInit_inodelist]
  exact List.pairwise_singleton _ _

end Step

/-- Two tasks open the same path, and the second finds what the first is still fetching. -/
theorem distinct_second_open : ∃ s, exec step (init ℕ (fsInit blankVolume))
    [.call 0 (.opened (pathbufChild pathbufRoot ⟨[97], by decide⟩)), .go 0 0, .go 0 0, .go 0 1,
      .disk 0 ⟨fun _ _ => 0, 3, fun _ => ⟨0, 0, 0, 0, 0, 0⟩⟩,
      .call 1 (.opened (pathbufChild pathbufRoot ⟨[97], by decide⟩)), .go 1 0, .go 1 0] = some s ∧
      Distinct s.volume :=
  ⟨_, rfl, distinct_exec blankVolume
    [.call 0 (.opened (pathbufChild pathbufRoot ⟨[97], by decide⟩)), .go 0 0, .go 0 0, .go 0 1,
      .disk 0 ⟨fun _ _ => 0, 3, fun _ => ⟨0, 0, 0, 0, 0, 0⟩⟩,
      .call 1 (.opened (pathbufChild pathbufRoot ⟨[97], by decide⟩)), .go 1 0, .go 1 0] _ rfl⟩

end Eedox.CachedPaths
