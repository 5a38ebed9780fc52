import Eedox.Endpoints
import Eedox.Fs.Lookup
import Mathlib.Data.List.Perm.Basic

namespace Eedox.InodeReferences

open Util Library.Runs Pathbuf Fs Descriptor Syscall

def inodeOf (fd : Fd) : Option ℕ :=
  match fd.target with
  | .disk node | .dir node => some node
  | .stdin | .stdout | .pipe _ | .mq _ => none

/-- What a descriptor refers to: its inode and that inode's parent. -/
def heldBy (s : Volume) (fd : Fd) : List ℕ :=
  match inodeOf fd with
  | some node => node :: (s.inodes node).parent.toList
  | none => []

/-- The references of the descriptors are counted, and `m` more to the root, which nobody gives back. -/
structure Held (s : Volume) (root : ℕ) (fds : List Fd) : Prop where
  counted : ∃ m, Counted s root (List.replicate m root ++ fds.flatMap (heldBy s))
  linked : ∀ fd ∈ fds, ∀ node, inodeOf fd = some node → Linked s node

variable {s t : Volume} {root node : ℕ} {fds : List Fd} {fd : Fd} {pathbuf : PathbufT}

theorem heldBy_some (h : inodeOf fd = some node) (s : Volume) :
    heldBy s fd = node :: (s.inodes node).parent.toList := by
  rw [heldBy, h]

theorem heldBy_none (h : inodeOf fd = none) (s : Volume) : heldBy s fd = [] := by
  rw [heldBy, h]

theorem flatMap_heldBy (h : ∀ fd ∈ fds, ∀ node, inodeOf fd = some node →
    (t.inodes node).parent = (s.inodes node).parent) : fds.flatMap (heldBy t) = fds.flatMap (heldBy s) := by
  rw [List.flatMap_def, List.flatMap_def]
  congr 1
  apply List.map_congr_left
  intro fd hfd
  cases ho : inodeOf fd with
  | none => rw [heldBy_none ho, heldBy_none ho]
  | some node => rw [heldBy_some ho, heldBy_some ho, h fd hfd node ho]

theorem linked_congr {p : ℕ} (hl : Linked s p) (hpath : (t.inodes p).pathbuf = (s.inodes p).pathbuf)
    (hparent : (t.inodes p).parent = (s.inodes p).parent)
    (habove : ∀ q, (s.inodes p).parent = some q → (t.inodes q).pathbuf = (s.inodes q).pathbuf) : Linked t p := by
  unfold Linked at *
  rw [hparent, hpath]
  cases hq : (s.inodes p).parent with
  | none => rwa [hq] at hl
  | some q =>
    rw [hq] at hl
    simp only at hl ⊢
    rw [habove q hq]
    exact hl

theorem Held.mem {p : ℕ} (h : Held s root fds) (hfd : fd ∈ fds) (hp : p ∈ heldBy s fd) : p ∈ s.inodelist := by
  obtain ⟨m, hc⟩ := h.counted
  exact hc.mem (List.mem_cons_of_mem root
    (List.mem_append_right _ (List.mem_flatMap.mpr ⟨fd, hfd, hp⟩)))

theorem mem_heldBy_self (h : inodeOf fd = some node) : node ∈ heldBy s fd := by
  rw [heldBy_some h]
  exact List.mem_cons_self

theorem mem_heldBy_parent {q : ℕ} (h : inodeOf fd = some node) (hq : (s.inodes node).parent = some q) :
    q ∈ heldBy s fd := by
  rw [heldBy_some h, hq]
  simp

theorem Held.perm {fds' : List Fd} (h : Held s root fds) (hp : fds.Perm fds') : Held s root fds' := by
  obtain ⟨m, hc⟩ := h.counted
  exact ⟨⟨m, hc.perm ((hp.flatMap_right _).append_left _)⟩,
    fun fd hfd => h.linked fd (hp.mem_iff.mpr hfd)⟩

/-- What the descriptors refer to is the same in a volume where parents and paths are. -/
theorem Held.keeps (h : Held s root fds)
    (hpath : ∀ p ∈ s.inodelist, (t.inodes p).pathbuf = (s.inodes p).pathbuf)
    (hparent : ∀ fd ∈ fds, ∀ node, inodeOf fd = some node → (t.inodes node).parent = (s.inodes node).parent) :
    fds.flatMap (heldBy t) = fds.flatMap (heldBy s) ∧
      ∀ fd ∈ fds, ∀ node, inodeOf fd = some node → Linked t node := by
  refine ⟨flatMap_heldBy hparent, fun fd hfd node ho => ?_⟩
  apply linked_congr (h.linked fd hfd node ho)
  · exact hpath node (h.mem hfd (mem_heldBy_self ho))
  · exact hparent fd hfd node ho
  · intro q hq
    exact hpath q (h.mem hfd (mem_heldBy_parent ho hq))

/-- The inode that `fs_open` has found already had the parent that it gets. -/
theorem Held.parent_reached {held' : List ℕ} (h : Held s root fds) (hr : Reached s t root pathbuf node)
    (ht : Counted t root held') (hsub : ∀ p ∈ s.inodelist, p ∈ t.inodelist)
    (habove : ∀ q, (t.inodes node).parent = some q → q ∈ t.inodelist) (hfd : fd ∈ fds) {p : ℕ}
    (ho : inodeOf fd = some p) : (t.inodes p).parent = (s.inodes p).parent := by
  have hmem := h.mem hfd (mem_heldBy_self ho)
  by_cases hne : p ≠ node
  · exact hr.parents p hmem hne
  · rw [not_not] at hne
    subst hne
    have hl := h.linked fd hfd p ho
    have hl' := hr.linked
    have hpath := hr.pathbufs p hmem
    unfold Linked at hl hl'
    rw [hpath] at hl'
    cases hq : (s.inodes p).parent with
    | none =>
      cases hq' : (t.inodes p).parent with
      | none => rfl
      | some q' =>
        rw [hq] at hl
        rw [hq'] at hl'
        obtain ⟨name, hname⟩ := hl'
        rw [hname] at hl
        simp [pathbufChild] at hl
    | some q =>
      rw [hq] at hl
      obtain ⟨name, hname⟩ := hl
      cases hq' : (t.inodes p).parent with
      | none =>
        rw [hq'] at hl'
        rw [hname] at hl'
        simp [pathbufChild] at hl'
      | some q' =>
        rw [hq'] at hl'
        obtain ⟨name', hname'⟩ := hl'
        have hqm := h.mem hfd (mem_heldBy_parent ho hq)
        have hsame : (s.inodes q).pathbuf = (t.inodes q').pathbuf := by
          have he := hname.symm.trans hname'
          simp only [pathbufChild, PathbufT.mk.injEq] at he
          have hf := List.append_inj' he.1 rfl
          cases hs : (s.inodes q).pathbuf
          cases hs' : (t.inodes q').pathbuf
          simp_all
        have he := ht.distinct q (hsub q hqm) q' (habove q' hq') ((hr.pathbufs q hqm).trans hsame)
        rw [he]

/-- What a call leaves that takes no reference for good, but for one to the root. -/
structure Forgot (s t : Volume) (root : ℕ) (fds : List Fd) : Prop where
  held : Held t root fds
  same : fds.flatMap (heldBy t) = fds.flatMap (heldBy s)
  refs : (t.inodes root).refs ≤ (s.inodes root).refs + 1

theorem Held.dropped {m : ℕ} (h : Held s root fds) (hr : Reached s t root pathbuf node)
    (hs : Counted s root (List.replicate m root ++ fds.flatMap (heldBy s))) (hpath : Rooted pathbuf)
    (hends : EndCached s pathbuf)
    (ht : Counted t root (leftover root pathbuf ++ (List.replicate m root ++ fds.flatMap (heldBy s)))) :
    Forgot s t root fds := by
  have hsub (p : ℕ) (hp : p ∈ s.inodelist) : p ∈ t.inodelist :=
    hs.held_mem ht (fun q hq => List.mem_append_right _ hq) hp
  have habove (q : ℕ) (hq : (t.inodes node).parent = some q) : q ∈ t.inodelist := by
    apply hsub
    rw [hr.above q hq]
    rcases Nat.lt_or_ge 1 (pathbufLen pathbuf) with hlt | hle
    · have he : pathbufLen pathbuf - 2 + 1 = pathbufLen pathbuf - 1 := by omega
      rw [← he]
      exact (hends (pathbufLen pathbuf - 2) (by omega)).mpr (by omega)
    · have he : pathbufLen pathbuf - 1 = 0 := by omega
      rw [he, cachedAt_iff]
      refine ⟨root, hs.root_mem, hs.rootPath.trans ?_⟩
      unfold upTo pathbufRoot
      rw [hpath.1, hpath.2, List.take_zero]
  have hkeep := h.keeps hr.pathbufs fun fd hfd p ho => h.parent_reached hr ht hsub habove hfd ho
  have hrefs := ht.balanced.counted root ht.root_mem
  rw [List.count_cons_self] at hrefs
  have hrefs' := hs.balanced.counted root hs.root_mem
  rw [List.count_cons_self] at hrefs'
  unfold leftover at ht hrefs
  split_ifs at ht hrefs
  · rw [List.count_append, List.count_singleton_self] at hrefs
    refine ⟨⟨⟨m + 1, ?_⟩, hkeep.2⟩, hkeep.1, by omega⟩
    rw [hkeep.1]
    exact ht
  · rw [List.nil_append] at hrefs
    refine ⟨⟨⟨m, ?_⟩, hkeep.2⟩, hkeep.1, by omega⟩
    rw [hkeep.1]
    exact ht

/-- A new descriptor holds the references that `fs_open` has taken. -/
theorem Held.opened {m : ℕ} (fd : Fd) (h : Held s root fds) (hr : Reached s t root pathbuf node)
    (hs : Counted s root (List.replicate m root ++ fds.flatMap (heldBy s)))
    (ht : Counted t root (node :: ((t.inodes node).parent.toList ++
      (List.replicate m root ++ fds.flatMap (heldBy s))))) (ho : inodeOf fd = some node) :
    Held t root (fd :: fds) := by
  have hsub (p : ℕ) (hp : p ∈ s.inodelist) : p ∈ t.inodelist :=
    hs.held_mem ht (fun q hq => List.mem_cons_of_mem node (List.mem_append_right _ hq)) hp
  have habove (q : ℕ) (hq : (t.inodes node).parent = some q) : q ∈ t.inodelist := by
    apply ht.mem
    rw [hq]
    simp
  have hkeep := h.keeps hr.pathbufs fun fd hfd p ho => h.parent_reached hr ht hsub habove hfd ho
  constructor
  · refine ⟨m, ht.perm ?_⟩
    rw [List.flatMap_cons, heldBy_some ho, hkeep.1]
    exact (List.perm_append_comm_assoc (node :: (t.inodes node).parent.toList) (List.replicate m root)
      (fds.flatMap (heldBy s)))
  · intro fd' hfd' p hp
    rcases List.mem_cons.mp hfd' with rfl | hfd'
    · obtain rfl : node = p := Option.some.inj (ho.symm.trans hp)
      exact hr.linked
    · exact hkeep.2 fd' hfd' p hp

theorem fsClose_fields (s : Volume) (node : Option ℕ) (p : ℕ) :
    ((fsClose s node).inodes p).pathbuf = (s.inodes p).pathbuf ∧
      ((fsClose s node).inodes p).parent = (s.inodes p).parent := by
  have h1 := fsNodeClose_pathbuf s node p
  have h2 := fsNodeClose_pathbuf (fsNodeClose s node) (node.bind fun node => (s.inodes node).parent) p
  exact ⟨h2.1.trans h1.1, h2.2.trans h1.2⟩

theorem Held.fsClosed (h : Held s root (fd :: fds)) (ho : inodeOf fd = some node) :
    Held (fsClose s (some node)) root fds := by
  obtain ⟨m, hc⟩ := h.counted
  have hfields := fsClose_fields s (some node)
  constructor
  · refine ⟨m, ?_⟩
    rw [flatMap_heldBy fun fd _ p _ => (hfields p).2]
    apply counted_fsClose
    apply hc.perm
    rw [List.flatMap_cons, heldBy_some ho]
    exact List.perm_append_comm_assoc _ _ _
  · intro fd' hfd' p hp
    exact linked_congr (h.linked fd' (List.mem_cons_of_mem fd hfd') p hp) (hfields p).1 (hfields p).2
      fun q _ => (hfields q).1

section calls

variable {m dir : ℕ} {create truncate : Bool} {o : Option ℕ} {res : ℤ}

theorem Held.stopped (h : Held s root fds)
    (hs : Counted s root (List.replicate m root ++ fds.flatMap (heldBy s))) (hpath : Rooted pathbuf)
    (hroom : (s.inodes root).refs + 1 < 2 ^ 32) (hclear : Clear s root pathbuf)
    (hopen : fsOpen s pathbuf create truncate dir false = some (t, none, res)) : Forgot s t root fds := by
  obtain ⟨-, -, hkept, hcount⟩ := fsOpen_stopped hs hpath hroom hopen
  have hkeep := h.keeps (fun p hp => (hkept p hp).1) fun fd hfd p ho =>
    (hkept p (h.mem hfd (mem_heldBy_self ho))).2
  have ht := hcount hclear
  refine ⟨⟨⟨m, ?_⟩, hkeep.2⟩, hkeep.1, ?_⟩
  · rw [hkeep.1]
    exact ht
  · rw [ht.balanced.counted root ht.root_mem, hs.balanced.counted root hs.root_mem]
    exact Nat.le_succ _

/-- `fs_open` and `fs_close`, as `mkdir` and `setcwd` call them. -/
theorem Held.openClose (h : Held s root fds) (hpath : Rooted pathbuf)
    (hroom : (s.inodes root).refs + 1 < 2 ^ 32) (hclear : Clear s root pathbuf)
    (hopen : fsOpen s pathbuf create truncate dir false = some (t, o, res)) :
    Held (fsClose t o) root fds := by
  obtain ⟨m, hs⟩ := h.counted
  cases o with
  | none => exact (h.stopped hs hpath hroom hclear hopen).held
  | some node =>
    obtain ⟨hr, -, hcount, -⟩ := fsOpen_found hs hpath hroom hopen
    exact (h.opened ⟨.disk node, 0, true, 0⟩ hr hs (hcount hclear) rfl).fsClosed rfl

theorem Held.opens_iff (h : Held s root fds) (hpath : Rooted pathbuf)
    (hroom : (s.inodes root).refs + 1 < 2 ^ 32)
    (hopen : fsOpen s pathbuf create truncate dir false = some (t, o, res)) :
    res = 0 ↔ Opens s root pathbuf create dir := by
  obtain ⟨m, hs⟩ := h.counted
  cases o with
  | none =>
    obtain ⟨hstop, hres, -, -⟩ := fsOpen_stopped hs hpath hroom hopen
    exact ⟨fun he => absurd he hres, fun ho => absurd ho.1 hstop⟩
  | some node => exact (fsOpen_found hs hpath hroom hopen).2.1

def rootNode (s : Volume) : ℕ := s.inodelist.headD 0

theorem rootNode_eq {held : List ℕ} (h : Counted s root held) : rootNode s = root := by
  rw [rootNode, List.headD_eq_head?_getD, h.first]
  rfl

/-- What keeps the counts right in a call of `fs_open`: a lookup that finds nothing in the cache but the
root, where the references are kept or given back; where the call forgets the inode, one that finds just
the inode and its parent there. -/
def Even (s : Volume) (pathbuf : PathbufT) (kept : Prop) : Prop :=
  (Comes s (rootNode s) pathbuf (pathbufLen pathbuf) ∧ ¬ kept → EndCached s pathbuf) ∧
    (¬ (Comes s (rootNode s) pathbuf (pathbufLen pathbuf) ∧ ¬ kept) → Clear s (rootNode s) pathbuf)

instance (s : Volume) (pathbuf : PathbufT) (kept : Prop) [Decidable kept] : Decidable (Even s pathbuf kept) :=
  inferInstanceAs (Decidable (_ ∧ _))

/-- A call that forgets the inode. -/
theorem Held.forgets (h : Held s root fds) (hpath : Rooted pathbuf)
    (hroom : (s.inodes root).refs + 1 < 2 ^ 32) {kept : Prop} (heven : Even s pathbuf kept) (hk : ¬ kept)
    (hopen : fsOpen s pathbuf create truncate dir false = some (t, o, res)) : Forgot s t root fds := by
  obtain ⟨m, hs⟩ := h.counted
  unfold Even at heven
  rw [rootNode_eq hs] at heven
  cases o with
  | none =>
    have hstop := (fsOpen_stopped hs hpath hroom hopen).1
    exact h.stopped hs hpath hroom (heven.2 fun hc => hstop hc.1) hopen
  | some node =>
    obtain ⟨hr, -, -, hcount⟩ := fsOpen_found hs hpath hroom hopen
    have hends := heven.1 ⟨hr.comes, hk⟩
    exact h.dropped hr hs hpath hends (hcount hends)

end calls

/-- One more reference, as `fd_table_clone_entry` takes it. -/
def addRef (s : Volume) (p : ℕ) : Volume := setInode s p fun n => { n with refs := (n.refs + 1) % 2 ^ 32 }

theorem addRef_fields (s : Volume) (p q : ℕ) : ((addRef s p).inodes q).pathbuf = (s.inodes q).pathbuf ∧
    ((addRef s p).inodes q).parent = (s.inodes q).parent := by
  unfold addRef
  by_cases hq : q = p
  · subst hq
    rw [setInode_self]
    exact ⟨rfl, rfl⟩
  · rw [setInode_other _ hq]
    exact ⟨rfl, rfl⟩

theorem addRefs_fields (ps : List ℕ) (s : Volume) (q : ℕ) :
    ((ps.foldl addRef s).inodes q).pathbuf = (s.inodes q).pathbuf ∧
      ((ps.foldl addRef s).inodes q).parent = (s.inodes q).parent := by
  induction ps generalizing s with
  | nil => exact ⟨rfl, rfl⟩
  | cons p ps ih =>
    have h := addRef_fields s p q
    exact ⟨(ih _).1.trans h.1, (ih _).2.trans h.2⟩

theorem counted_addRefs {held ps : List ℕ} (h : Counted s root held) (hps : ∀ p ∈ ps, p ∈ s.inodelist)
    (hroom : ∀ p ∈ ps, (s.inodes p).refs + ps.count p < 2 ^ 32) : Counted (ps.foldl addRef s) root (ps ++ held) := by
  induction ps generalizing s held with
  | nil => exact h
  | cons p ps ih =>
    have hroom1 := hroom p List.mem_cons_self
    rw [List.count_cons_self] at hroom1
    have h1 := counted_addRef h (hps p List.mem_cons_self) (by omega)
    have h2 := ih h1 (fun q hq => hps q (List.mem_cons_of_mem p hq)) fun q hq => by
      have hroomq := hroom q (List.mem_cons_of_mem p hq)
      by_cases he : q = p
      · subst he
        rw [setInode_self]
        change ((s.inodes q).refs + 1) % 2 ^ 32 + ps.count q < 2 ^ 32
        rw [Nat.mod_eq_of_lt (by omega)]
        omega
      · rw [setInode_other _ he]
        rw [List.count_cons_of_ne (Ne.symm he)] at hroomq
        exact hroomq
    exact h2.perm List.perm_middle

/-- The parent's reference is taken first. -/
def takes (s : Volume) (fd : Fd) : List ℕ := (heldBy s fd).reverse

theorem cloneEntry_fs (o : Objects) (fd : Fd) :
    (fdTableCloneEntry o fd).fs = (takes o.fs fd).foldl addRef o.fs := by
  unfold fdTableCloneEntry takes heldBy inodeOf
  cases fd.target with
  | stdin => rfl
  | stdout => rfl
  | pipe ptr => rfl
  | mq ptr => rfl
  | disk node => cases hp : (o.fs.inodes node).parent <;> simp [hp, addRef]
  | dir node => cases hp : (o.fs.inodes node).parent <;> simp [hp, addRef]

theorem takes_congr (h : ∀ p, (t.inodes p).parent = (s.inodes p).parent) (fd : Fd) : takes t fd = takes s fd := by
  unfold takes heldBy
  cases inodeOf fd with
  | none => rfl
  | some node => simp only [h]

theorem cloneEntries_fs (es : List Fd) (o : Objects) :
    (es.foldl fdTableCloneEntry o).fs = (es.flatMap (takes o.fs)).foldl addRef o.fs := by
  induction es generalizing o with
  | nil => rfl
  | cons e es ih =>
    rw [List.foldl_cons, ih, List.flatMap_cons, List.foldl_append, cloneEntry_fs]
    congr 1
    rw [List.flatMap_def, List.flatMap_def]
    congr 1
    apply List.map_congr_left
    intro fd _
    exact takes_congr (fun p => (addRefs_fields _ _ p).2) fd

theorem takes_perm (s : Volume) (es : List Fd) : (es.flatMap (takes s)).Perm (es.flatMap (heldBy s)) :=
  List.Perm.flatMap_left es fun _ _ => List.reverse_perm _

/-- Descriptors that are copied take as many references as they hold. -/
theorem Held.cloned {o : Objects} {es : List Fd} (h : Held o.fs root fds) (hes : es ⊆ fds)
    (hroom : ∀ p ∈ es.flatMap (heldBy o.fs), (o.fs.inodes p).refs + (es.flatMap (heldBy o.fs)).count p < 2 ^ 32) :
    Held (es.foldl fdTableCloneEntry o).fs root (es ++ fds) := by
  obtain ⟨m, hc⟩ := h.counted
  have hperm := takes_perm o.fs es
  have hadd := @counted_addRefs o.fs root _ (es.flatMap (takes o.fs)) hc
    (fun p hp => by
      obtain ⟨fd, hfd, hp⟩ := List.mem_flatMap.mp (hperm.mem_iff.mp hp)
      exact h.mem (hes hfd) hp)
    fun p hp => by
      rw [hperm.count_eq]
      exact hroom p (hperm.mem_iff.mp hp)
  have hfields := addRefs_fields (es.flatMap (takes o.fs)) o.fs
  rw [cloneEntries_fs]
  constructor
  · refine ⟨m, hadd.perm ?_⟩
    rw [flatMap_heldBy fun fd _ p _ => (hfields p).2, List.flatMap_append]
    exact (hperm.append_right _).trans (List.perm_append_comm_assoc _ _ _)
  · intro fd hfd p hp
    have hmem : fd ∈ fds := (List.mem_append.mp hfd).elim (fun he => hes he) id
    exact linked_congr (h.linked fd hmem p hp) (hfields p).1 (hfields p).2 fun q _ => (hfields q).1

theorem held_cons_of_none (ho : inodeOf fd = none) : Held s root (fd :: fds) ↔ Held s root fds := by
  have hflat : (fd :: fds).flatMap (heldBy s) = fds.flatMap (heldBy s) := by
    rw [List.flatMap_cons, heldBy_none ho, List.nil_append]
  constructor
  · intro h
    refine ⟨?_, fun fd' hfd' => h.linked fd' (List.mem_cons_of_mem fd hfd')⟩
    rw [← hflat]
    exact h.counted
  · intro h
    refine ⟨?_, fun fd' hfd' p hp => ?_⟩
    · rw [hflat]
      exact h.counted
    · rcases List.mem_cons.mp hfd' with rfl | hfd'
      · rw [ho] at hp
        cases hp
      · exact h.linked fd' hfd' p hp

theorem Held.closeTarget {o : Objects} (h : Held o.fs root (fd :: fds)) :
    Held (Descriptor.closeTarget o fd).fs root fds := by
  cases ho : inodeOf fd with
  | some node =>
    have hfs : (Descriptor.closeTarget o fd).fs = fsClose o.fs (some node) := by
      unfold inodeOf at ho
      unfold Descriptor.closeTarget
      split at ho <;> cases ho <;> simp_all
    rw [hfs]
    exact h.fsClosed ho
  | none =>
    have hfs : (Descriptor.closeTarget o fd).fs = o.fs := by
      unfold inodeOf at ho
      unfold Descriptor.closeTarget
      split at ho
      · cases ho
      · cases ho
      · simp_all
      · simp_all
      · rename_i ht
        rw [ht]
        simp only
        split_ifs <;> rfl
      · rename_i ht
        rw [ht]
        rfl
    rw [hfs]
    exact (held_cons_of_none ho).mp h

theorem Held.closeAll {rest : List Fd} (indices : List ℕ) {o : Objects} {table : FdTable}
    (h : Held o.fs root (openFds table ++ rest)) :
    let closed := indices.foldl (fun s i => fdTableClose s.1 s.2 i) (o, table)
    Held closed.1.fs root (openFds closed.2 ++ rest) := by
  induction indices generalizing o table with
  | nil => exact h
  | cons i indices ih =>
    rw [List.foldl_cons]
    rcases fdTableClose_cases o table i with he | ⟨fd, -, hp, he⟩
    · rw [he]
      exact ih h
    · rw [he]
      exact ih (h.perm (hp.append_right rest)).closeTarget

theorem length_flatMap_heldBy (s : Volume) (fds : List Fd) : (fds.flatMap (heldBy s)).length ≤ 2 * fds.length := by
  induction fds with
  | nil => exact le_rfl
  | cons fd fds ih =>
    have hfd : (heldBy s fd).length ≤ 2 := by
      unfold heldBy
      split
      · rename_i node _
        cases (s.inodes node).parent <;> simp
      · simp
    rw [List.flatMap_cons, List.length_append, List.length_cons]
    omega

/-- Only the root's counter can overflow, since the heap has no room for so many descriptors. -/
theorem Held.clone_room {es : List Fd} (h : Held s root fds) (hlen : (es ++ fds).length ≤ heapRecords)
    (hes : es ⊆ fds)
    (hroot : (s.inodes root).refs + (es.flatMap (heldBy s)).count root < 2 ^ 32) :
    ∀ p ∈ es.flatMap (heldBy s), (s.inodes p).refs + (es.flatMap (heldBy s)).count p < 2 ^ 32 := by
  intro p hp
  by_cases hpr : p = root
  · rw [hpr]
    exact hroot
  · obtain ⟨m, hc⟩ := h.counted
    obtain ⟨fd, hfd, hpf⟩ := List.mem_flatMap.mp hp
    have hrefs := hc.balanced.counted p (h.mem (hes hfd) hpf)
    rw [List.count_cons_of_ne (Ne.symm hpr), List.count_append, List.count_replicate,
      if_neg (by simpa using Ne.symm hpr)] at hrefs
    have h1 := (length_flatMap_heldBy s es).trans' (List.count_le_length (a := p))
    have h2 := (length_flatMap_heldBy s fds).trans' (List.count_le_length (a := p))
    rw [List.length_append] at hlen
    unfold heapRecords at hlen
    omega

/-- `exec_open` looks in the working directory first and then in `/bin`, and the inode that it finds is
forgotten by `syscall_exec`. -/
def EvenExec (s : Volume) (cwd path : PathbufT) : Prop :=
  if path.isAbsolute then Even s path False
  else Even s (pathbufJoin cwd path) False ∧
    (¬ Opens s (rootNode s) (pathbufJoin cwd path) false 0 → Even s (pathbufJoin binDir path) False)

instance (s : Volume) (cwd path : PathbufT) : Decidable (EvenExec s cwd path) :=
  inferInstanceAs (Decidable (if path.isAbsolute then Even s path False else
    Even s (pathbufJoin cwd path) False ∧
      (¬ Opens s (rootNode s) (pathbufJoin cwd path) false 0 → Even s (pathbufJoin binDir path) False)))

/-- The calls whose lookups keep the counts right. -/
def Proper (s : Volume) (cwd : PathbufT) : Call → Prop
  | .open path flags =>
    let path := resolvePath cwd (pathbufParse path)
    Even s path (Opens s (rootNode s) path (flags % 2 = 1) 0)
  | .opendir path =>
    let path := resolvePath cwd (pathbufParse path)
    Even s path (Opens s (rootNode s) path false 1)
  | .mkdir path | .setcwd path => Clear s (rootNode s) (resolvePath cwd (pathbufParse path))
  | .stat path => Even s (resolvePath cwd (pathbufParse path)) False
  | .exec path => EvenExec s cwd (pathbufParse path)
  | .close _ | .dup _ | .fork | .exit | .pipe | .mqopen _ => True

instance (s : Volume) (cwd : PathbufT) : (c : Call) → Decidable (Proper s cwd c)
  | .open _ _ | .opendir _ | .stat _ => inferInstanceAs (Decidable (Even _ _ _))
  | .mkdir _ | .setcwd _ => inferInstanceAs (Decidable (Clear _ _ _))
  | .exec _ => inferInstanceAs (Decidable (EvenExec _ _ _))
  | .close _ | .dup _ | .fork | .exit | .pipe | .mqopen _ => .isTrue trivial

/-- How often a call adds one to the counter of the root. -/
def rootGain (s : Volume) (table : FdTable) : Call → ℕ
  | .open _ _ | .opendir _ | .mkdir _ | .setcwd _ | .stat _ => 1
  | .exec _ => 2
  | .dup index => (table.records[index]?.toList.flatMap (heldBy s)).count (rootNode s)
  | .fork => ((openFds table).flatMap (heldBy s)).count (rootNode s)
  | .close _ | .exit | .pipe | .mqopen _ => 0

/-- The condition on a call: a proper lookup, and no overflow of the root's counter. -/
def Fair (k : Kernel) (a : ℕ × Call) : Prop :=
  ∀ task ∈ k.tasks[a.1]?, Proper k.objects.fs task.cwd a.2 ∧
    (k.objects.fs.inodes (rootNode k.objects.fs)).refs + rootGain k.objects.fs task.table a.2 < 2 ^ 32

instance (k : Kernel) (a : ℕ × Call) : Decidable (Fair k a) :=
  inferInstanceAs (Decidable (∀ task ∈ k.tasks[a.1]?, _ ∧ _))

structure Inv (k : Kernel) : Prop where
  held : ∃ root, Held k.objects.fs root (descriptors k)
  rooted : ∀ task ∈ k.tasks, Rooted task.cwd

section calls

variable {k k' : Kernel} {task : Task} {i : ℕ}

theorem Inv.volume (h : Inv k) {fs : Volume} (hfs : ∃ root, Held fs root (descriptors k)) : Inv (setFs k fs) :=
  ⟨hfs, h.rooted⟩

theorem Inv.added (h : Inv k) (ht : k.tasks[i]? = some task) {fs : Volume} (hopen : fd.isopen = true)
    (hfs : ∃ root, Held fs root (fd :: descriptors k)) : Inv (addFd (setFs k fs) i task fd).1 := by
  obtain ⟨root, hroot⟩ := hfs
  have hd := Endpoints.descriptors_addFd ht fs fd
  rw [show { fd with isopen := true } = fd by rw [← hopen]] at hd
  refine ⟨⟨root, hroot.perm hd.symm⟩, fun other hother => ?_⟩
  rcases List.mem_or_eq_of_mem_set hother with hother | rfl
  · exact h.rooted other hother
  · exact h.rooted task (List.mem_of_getElem? ht)

/-- `syscall_open` and `syscall_opendir` after `fs_open`. -/
theorem Inv.descriptor {fs : Volume} {create truncate : Bool} {dir : ℕ} {o : Option ℕ} {res : ℤ}
    (target : ℕ → Target) (access : ℕ) (h : Inv k) (ht : k.tasks[i]? = some task) (hpath : Rooted pathbuf)
    (htarget : ∀ node pos, inodeOf ⟨target node, pos, true, access⟩ = some node)
    (heven : Even k.objects.fs pathbuf (Opens k.objects.fs (rootNode k.objects.fs) pathbuf create dir))
    (hroom : (k.objects.fs.inodes (rootNode k.objects.fs)).refs + 1 < 2 ^ 32)
    (hopen : fsOpen k.objects.fs pathbuf create truncate dir false = some (fs, o, res)) :
    (res ≠ 0 → Inv (setFs k fs)) ∧ (res = 0 → ∀ node, o = some node →
      Inv (addFd (setFs k fs) i task ⟨target node, 0, true, access⟩).1) := by
  obtain ⟨root, hroot⟩ := h.held
  obtain ⟨m, hs⟩ := hroot.counted
  rw [rootNode_eq hs] at heven hroom
  have hopens := hroot.opens_iff hpath hroom hopen
  constructor
  · intro hres
    exact h.volume ⟨root, (hroot.forgets hpath hroom heven (fun ho => hres (hopens.mpr ho)) hopen).held⟩
  · rintro hres node rfl
    have ho := hopens.mp hres
    have hclear := heven.2 fun hc => hc.2 ho
    rw [rootNode_eq hs] at hclear
    obtain ⟨hr, -, hcount, -⟩ := fsOpen_found hs hpath hroom hopen
    exact h.added ht rfl ⟨root, hroot.opened _ hr hs (hcount hclear) (htarget node 0)⟩

theorem inv_open {path : Str} {flags : ℕ} (h : Inv k) (ht : k.tasks[i]? = some task)
    (hf : Fair k (i, .open path flags)) (hp : perform k i task (.open path flags) = some k') : Inv k' := by
  obtain ⟨heven, hroom⟩ := hf task ht
  obtain ⟨⟨_, reply⟩, hr, rfl⟩ := Option.map_eq_some_iff.mp hp
  obtain ⟨⟨fs, node, res⟩, hopen, hr⟩ := Option.bind_eq_some_iff.mp hr
  have hpath := rooted_resolvePath (h.rooted task (List.mem_of_getElem? ht)) path
  obtain ⟨hfail, hok⟩ := h.descriptor .disk (fdAccessWrite + fdAccessRead) ht hpath
    (fun _ _ => rfl) heven hroom hopen
  simp only at hr
  split_ifs at hr with hres
  · cases hr
    exact hfail hres
  · obtain ⟨node, hn, hr⟩ := Option.map_eq_some_iff.mp hr
    rw [← hr]
    exact hok (not_not.mp hres) node hn

theorem inv_opendir {path : Str} (h : Inv k) (ht : k.tasks[i]? = some task)
    (hf : Fair k (i, .opendir path)) (hp : perform k i task (.opendir path) = some k') : Inv k' := by
  obtain ⟨heven, hroom⟩ := hf task ht
  obtain ⟨⟨_, reply⟩, hr, rfl⟩ := Option.map_eq_some_iff.mp hp
  obtain ⟨⟨fs, node, res⟩, hopen, hr⟩ := Option.bind_eq_some_iff.mp hr
  have hpath := rooted_resolvePath (h.rooted task (List.mem_of_getElem? ht)) path
  obtain ⟨hfail, hok⟩ := h.descriptor .dir fdAccessRead ht hpath
    (fun _ _ => rfl) heven hroom hopen
  simp only at hr
  split_ifs at hr with hres
  · cases hr
    exact hfail hres
  · obtain ⟨node, hn, hr⟩ := Option.map_eq_some_iff.mp hr
    rw [← hr]
    exact hok (not_not.mp hres) node hn

theorem Inv.opened_closed {fs : Volume} {create : Bool} {o : Option ℕ} {res : ℤ} (h : Inv k)
    (hpath : Rooted pathbuf) (hclear : Clear k.objects.fs (rootNode k.objects.fs) pathbuf)
    (hroom : (k.objects.fs.inodes (rootNode k.objects.fs)).refs + 1 < 2 ^ 32)
    (hopen : fsOpen k.objects.fs pathbuf create false 1 false = some (fs, o, res)) :
    Inv (setFs k (fsClose fs o)) := by
  obtain ⟨root, hroot⟩ := h.held
  obtain ⟨m, hs⟩ := hroot.counted
  rw [rootNode_eq hs] at hclear hroom
  exact h.volume ⟨root, hroot.openClose hpath hroom hclear hopen⟩

theorem inv_mkdir {path : Str} (h : Inv k) (ht : k.tasks[i]? = some task)
    (hf : Fair k (i, .mkdir path)) (hp : perform k i task (.mkdir path) = some k') : Inv k' := by
  obtain ⟨hclear, hroom⟩ := hf task ht
  obtain ⟨⟨_, reply⟩, hr, rfl⟩ := Option.map_eq_some_iff.mp hp
  obtain ⟨⟨fs, node, res⟩, hopen, hr⟩ := Option.map_eq_some_iff.mp hr
  cases hr
  exact h.opened_closed (rooted_resolvePath (h.rooted task (List.mem_of_getElem? ht)) path) hclear hroom hopen

theorem inv_setcwd {path : Str} (h : Inv k) (ht : k.tasks[i]? = some task)
    (hf : Fair k (i, .setcwd path)) (hp : perform k i task (.setcwd path) = some k') : Inv k' := by
  obtain ⟨hclear, hroom⟩ := hf task ht
  obtain ⟨⟨_, reply⟩, hr, rfl⟩ := Option.map_eq_some_iff.mp hp
  obtain ⟨⟨fs, dir, res⟩, hopen, hr⟩ := Option.map_eq_some_iff.mp hr
  have hpath := rooted_resolvePath (h.rooted task (List.mem_of_getElem? ht)) path
  have hclosed := h.opened_closed hpath hclear hroom hopen
  simp only at hr
  split_ifs at hr
  · cases hr
    exact hclosed
  · cases hr
    obtain ⟨root, hroot⟩ := hclosed.held
    have hd := Endpoints.descriptors_setcwd ht (fsClose fs dir) (resolvePath task.cwd (pathbufParse path))
    refine ⟨⟨root, hroot.perm hd.symm⟩, fun other hother => ?_⟩
    rcases List.mem_or_eq_of_mem_set hother with hother | rfl
    · exact h.rooted other hother
    · exact hpath

theorem inv_stat {path : Str} (h : Inv k) (ht : k.tasks[i]? = some task)
    (hf : Fair k (i, .stat path)) (hp : perform k i task (.stat path) = some k') : Inv k' := by
  obtain ⟨heven, hroom⟩ := hf task ht
  obtain ⟨⟨_, reply⟩, hr, rfl⟩ := Option.map_eq_some_iff.mp hp
  obtain ⟨⟨fs, node, res⟩, hopen, hr⟩ := Option.map_eq_some_iff.mp hr
  have hpath := rooted_resolvePath (h.rooted task (List.mem_of_getElem? ht)) path
  obtain ⟨root, hroot⟩ := h.held
  obtain ⟨m, hs⟩ := hroot.counted
  rw [rootNode_eq hs] at hroom
  have hforgot := hroot.forgets hpath hroom heven not_false hopen
  simp only at hr
  split_ifs at hr
  · cases hr
    exact h.volume ⟨root, hforgot.held⟩
  · cases hr
    exact h.volume ⟨root, hforgot.held⟩

/-- The second lookup of `exec_open` meets what it would have met before the first. -/
theorem held_execOpen {s t : Volume} {cwd path : PathbufT} {o : Option ℕ} {res : ℤ} {fds : List Fd}
    (h : Held s root fds) (hcwd : Rooted cwd) (hpath : path.isAbsolute = true → Rooted path)
    (heven : EvenExec s cwd path) (hroom : (s.inodes root).refs + 2 < 2 ^ 32)
    (hopen : execOpen s cwd path = some (t, o, res)) : Held t root fds := by
  obtain ⟨m, hs⟩ := h.counted
  unfold execOpen at hopen
  unfold EvenExec at heven
  rw [rootNode_eq hs] at heven
  by_cases habs : path.isAbsolute = true
  · rw [if_neg (by simp [habs])] at hopen
    rw [if_pos habs] at heven
    obtain ⟨⟨u, b, r⟩, hu, he⟩ := Option.map_eq_some_iff.mp hopen
    cases he
    exact (h.forgets (hpath habs) (by omega) heven not_false hu).held
  · rw [if_pos (by simpa using habs)] at hopen
    rw [if_neg habs] at heven
    have hjoin := rooted_join hcwd path
    have hbin : Rooted (pathbufJoin binDir path) := rooted_join ⟨rfl, rfl⟩ path
    obtain ⟨⟨u, b, r⟩, hu, he⟩ := Option.bind_eq_some_iff.mp hopen
    have hfirst := h.forgets hjoin (by omega) heven.1 not_false hu
    simp only at he
    split_ifs at he with hr
    · obtain ⟨⟨v, b', r'⟩, hv, he⟩ := Option.map_eq_some_iff.mp he
      cases he
      obtain ⟨m', hu'⟩ := hfirst.held.counted
      have halike := fsOpen_alike hs hjoin (by omega) hu hu' fun p => by
        rw [hfirst.same]
        simp only [List.mem_cons, List.mem_append, List.mem_replicate]
        constructor
        · rintro (hp | ⟨-, hp⟩ | hp)
          · exact Or.inl hp
          · exact Or.inl hp
          · exact Or.inr (Or.inr hp)
        · rintro (hp | ⟨-, hp⟩ | hp)
          · exact Or.inl hp
          · exact Or.inl hp
          · exact Or.inr (Or.inr hp)
      have hopens := (h.opens_iff hjoin (by omega) hu).not.mp hr
      have hsecond : Even u (pathbufJoin binDir path) False := by
        have hbase := heven.2 hopens
        unfold Even at hbase ⊢
        rw [rootNode_eq hs] at hbase
        rw [rootNode_eq hu', halike.comes hs hu', halike.clear hs hu', halike.endCached hs hu']
        exact hbase
      have hrefs := hfirst.refs
      exact (hfirst.held.forgets hbin (by omega) hsecond not_false hv).held
    · cases he
      exact hfirst.held

theorem inv_exec {path : Str} (h : Inv k) (ht : k.tasks[i]? = some task)
    (hf : Fair k (i, .exec path)) (hp : perform k i task (.exec path) = some k') : Inv k' := by
  obtain ⟨heven, hroom⟩ := hf task ht
  obtain ⟨⟨_, reply⟩, hr, rfl⟩ := Option.map_eq_some_iff.mp hp
  obtain ⟨⟨fs, node, res⟩, hopen, hr⟩ := Option.map_eq_some_iff.mp hr
  have hcwd := h.rooted task (List.mem_of_getElem? ht)
  have hpath := rooted_resolvePath hcwd path
  obtain ⟨root, hroot⟩ := h.held
  obtain ⟨m, hs⟩ := hroot.counted
  rw [rootNode_eq hs] at hroom
  cases hr
  refine h.volume ⟨root, held_execOpen hroot hcwd (fun habs => ?_) heven hroom hopen⟩
  rwa [resolvePath, if_pos habs] at hpath

theorem inv_dup {index : ℕ} (h : Inv k) (ht : k.tasks[i]? = some task)
    (hf : Fair k (i, .dup index)) (hp : perform k i task (.dup index) = some k')
    (hfew : (descriptors k').length ≤ heapRecords) : Inv k' := by
  obtain ⟨-, hroom⟩ := hf task ht
  obtain rfl := Option.some.inj hp
  unfold rootGain at hroom
  unfold syscallDup fdTableDup at hfew ⊢
  cases hi : task.table.records[index]? with
  | none => exact h
  | some fd =>
    simp only [hi, Option.toList_some, List.flatMap_singleton] at hroom hfew ⊢
    split_ifs at hfew ⊢ with hopen
    · exact h
    · have hfd : fd.isopen = true := by simpa using hopen
      obtain ⟨root, hroot⟩ := h.held
      obtain ⟨m, hs⟩ := hroot.counted
      rw [rootNode_eq hs] at hroom
      obtain ⟨rest, hold, hnew⟩ := descriptors_split ht
      have hmem : [fd] ⊆ descriptors k := fun fd' hfd' => by
        rw [List.mem_singleton.mp hfd']
        exact hold.mem_iff.mpr (List.mem_append_left rest (List.mem_filter.mpr ⟨List.mem_of_getElem? hi, hfd⟩))
      have hadd := openFds_add task.table fd
      rw [show { fd with isopen := true } = fd by rw [← hfd]] at hadd
      have hd := (hnew (fdTableCloneEntry k.objects fd) (fdTableAdd task.table fd).1).trans
        ((hadd.append_right rest).trans (hold.symm.cons fd))
      rw [hd.length_eq] at hfew
      have hclone := hroot.cloned hmem (hroot.clone_room hfew hmem (by simpa using hroom))
      refine ⟨⟨root, hclone.perm hd.symm⟩, fun other hother => ?_⟩
      rcases List.mem_or_eq_of_mem_set hother with hother | rfl
      · exact h.rooted other hother
      · exact h.rooted task (List.mem_of_getElem? ht)

theorem inv_fork (h : Inv k) (ht : k.tasks[i]? = some task) (hf : Fair k (i, .fork))
    (hp : perform k i task .fork = some k') (hfew : (descriptors k').length ≤ heapRecords) : Inv k' := by
  obtain ⟨-, hroom⟩ := hf task ht
  obtain rfl := Option.some.inj hp
  obtain ⟨hobjects, hopen⟩ := fdTableClone_eq k.unset k.objects task.table
  have hsub : openFds task.table ⊆ descriptors k := fun fd hfd =>
    List.mem_flatMap.mpr ⟨task, List.mem_of_getElem? ht, hfd⟩
  have hd : (descriptors (taskFork k task).1).Perm (openFds task.table ++ descriptors k) := by
    rw [descriptors, taskFork, List.flatMap_append, List.flatMap_singleton, hopen]
    exact List.perm_append_comm
  have hfs : (taskFork k task).1.objects.fs = ((openFds task.table).foldl fdTableCloneEntry k.objects).fs :=
    congrArg Objects.fs hobjects
  obtain ⟨root, hroot⟩ := h.held
  obtain ⟨m, hs⟩ := hroot.counted
  rw [rootNode_eq hs, rootGain, rootNode_eq hs] at hroom
  rw [hd.length_eq] at hfew
  refine ⟨⟨root, ?_⟩, fun other hother => ?_⟩
  · rw [hfs]
    exact (hroot.cloned hsub (hroot.clone_room hfew hsub hroom)).perm hd.symm
  · rcases List.mem_append.mp hother with hother | hother
    · exact h.rooted other hother
    · rw [List.mem_singleton.mp hother]
      exact h.rooted task (List.mem_of_getElem? ht)

theorem Inv.table (h : Inv k) (ht : k.tasks[i]? = some task) {objects : Objects} {table : FdTable}
    (hfs : ∃ root, Held objects.fs root (descriptors (setTable k i task objects table))) :
    Inv (setTable k i task objects table) := by
  refine ⟨hfs, fun other hother => ?_⟩
  rcases List.mem_or_eq_of_mem_set hother with hother | rfl
  · exact h.rooted other hother
  · exact h.rooted task (List.mem_of_getElem? ht)

theorem inv_closeAll (h : Inv k) (ht : k.tasks[i]? = some task) (indices : List ℕ) :
    let closed := indices.foldl (fun s i => fdTableClose s.1 s.2 i) (k.objects, task.table)
    Inv (setTable k i task closed.1 closed.2) := by
  obtain ⟨rest, hold, hnew⟩ := descriptors_split ht
  obtain ⟨root, hroot⟩ := h.held
  exact h.table ht ⟨root, ((hroot.perm hold).closeAll indices).perm (hnew _ _).symm⟩

theorem inv_close {fdId : ℕ} (h : Inv k) (ht : k.tasks[i]? = some task)
    (hp : perform k i task (.close fdId) = some k') : Inv k' := by
  obtain rfl := Option.some.inj hp
  unfold syscallClose
  split
  · exact h
  · split_ifs
    · exact h
    · exact inv_closeAll h ht [fdId]

theorem inv_addEnds (h : Inv k) (ht : k.tasks[i]? = some task) {objects : Objects} (target : Target)
    (hfs : objects.fs = k.objects.fs) (htarget : ∀ pos access, inodeOf ⟨target, pos, true, access⟩ = none) :
    Inv (setTable k i task objects (addEnds task.table target).1) := by
  obtain ⟨rest, hold, hnew⟩ := descriptors_split ht
  obtain ⟨root, hroot⟩ := h.held
  have hd := (Endpoints.openFds_addEnds task.table target).append_right rest
  refine h.table ht ⟨root, Held.perm ?_ (hd.symm.trans (hnew objects _).symm)⟩
  have hread : inodeOf (Endpoints.readEnd target) = none := htarget 0 _
  have hwrite : inodeOf (Endpoints.writeEnd target) = none := htarget 0 _
  rw [hfs, List.cons_append, List.cons_append, held_cons_of_none hwrite, held_cons_of_none hread]
  exact hroot.perm hold

theorem mqlistOpen_fs (o : Objects) (list : Mq.Mqlist) (name : Str) : (Mq.mqlistOpen o list name).1.fs = o.fs := by
  unfold Mq.mqlistOpen
  split
  · rfl
  · simp only
    split_ifs <;> rfl

/-- Each call keeps the counts, where its lookups are proper. -/
theorem inv_step {a : ℕ × Call} (h : Inv k) (hf : Fair k a) (hs : step k a = some k') : Inv k' := by
  obtain ⟨i, c⟩ := a
  obtain ⟨task, ht, hp, hfew⟩ := step_eq_some.mp hs
  cases c with
  | «open» path flags => exact inv_open h ht hf hp
  | opendir path => exact inv_opendir h ht hf hp
  | mkdir path => exact inv_mkdir h ht hf hp
  | stat path => exact inv_stat h ht hf hp
  | setcwd path => exact inv_setcwd h ht hf hp
  | exec path => exact inv_exec h ht hf hp
  | close fdId => exact inv_close h ht hp
  | dup index => exact inv_dup h ht hf hp hfew
  | fork => exact inv_fork h ht hf hp hfew
  | exit =>
    obtain rfl := Option.some.inj hp
    exact inv_closeAll h ht (List.range task.table.records.length)
  | pipe =>
    obtain rfl := Option.some.inj hp
    exact inv_addEnds h ht _ rfl fun _ _ => rfl
  | mqopen name =>
    obtain rfl := Option.some.inj hp
    have hk := inv_addEnds h ht (.mq (Mq.mqlistOpen k.objects k.mqlist name).2.2)
      (mqlistOpen_fs k.objects k.mqlist name) fun _ _ => rfl
    exact ⟨hk.held, hk.rooted⟩

end calls

theorem inv_boot {objects : Objects} {unset : Fd} (hfreed : objects.fs.freed = []) :
    Inv (boot objects unset) := by
  obtain ⟨root, hroot⟩ := counted_fsInit objects.fs hfreed
  have hfds : descriptors (boot objects unset) =
      [⟨.stdin, unset.pos, true, fdAccessRead⟩, ⟨.stdout, unset.pos, true, fdAccessWrite⟩] := rfl
  refine ⟨⟨root, ?_⟩, fun task htask => ?_⟩
  · rw [hfds, held_cons_of_none rfl, held_cons_of_none rfl]
    exact ⟨⟨0, hroot⟩, fun fd hfd => absurd hfd List.not_mem_nil⟩
  · rw [List.mem_singleton.mp htask]
    exact rooted_root

/-- The counters, the life and the users of the cached inodes. -/
structure RefsRight (k : Kernel) : Prop where
  counts : ∀ p ∈ k.objects.fs.inodelist, p ≠ rootNode k.objects.fs → (k.objects.fs.inodes p).refs =
    ((descriptors k).countP fun fd => inodeOf fd = some p) +
      (descriptors k).countP fun fd => ((inodeOf fd).bind fun node => (k.objects.fs.inodes node).parent) = some p
  needed : ∀ p ∈ k.objects.fs.inodelist, p ≠ rootNode k.objects.fs →
    ∃ fd ∈ descriptors k, p ∈ heldBy k.objects.fs fd
  cached : ∀ fd ∈ descriptors k, ∀ p ∈ heldBy k.objects.fs fd, p ∈ k.objects.fs.inodelist
  freedOnce : (k.objects.fs.inodelist ++ k.objects.fs.freed).Nodup
  gone : ∀ p, rootNode k.objects.fs ≤ p → p < k.objects.fs.nextInode →
    p ∈ k.objects.fs.inodelist ∨ p ∈ k.objects.fs.freed

theorem count_heldBy (s : Volume) (fds : List Fd) (p : ℕ) : (fds.flatMap (heldBy s)).count p =
    (fds.countP fun fd => inodeOf fd = some p) +
      fds.countP fun fd => ((inodeOf fd).bind fun node => (s.inodes node).parent) = some p := by
  induction fds with
  | nil => rfl
  | cons fd fds ih =>
    rw [List.flatMap_cons, List.count_append, ih, List.countP_cons, List.countP_cons]
    cases ho : inodeOf fd with
    | none => simp [heldBy_none ho]
    | some node =>
      rw [heldBy_some ho, List.count_cons]
      cases hq : (s.inodes node).parent with
      | none =>
        simp [hq]
        omega
      | some q =>
        simp [hq, List.count_singleton]
        omega

theorem Inv.refsRight {k : Kernel} (h : Inv k) : RefsRight k := by
  obtain ⟨root, hroot⟩ := h.held
  obtain ⟨m, hs⟩ := hroot.counted
  have hne (p : ℕ) (hp : p ≠ rootNode k.objects.fs) : p ≠ root := by rwa [rootNode_eq hs] at hp
  refine ⟨fun p hp hpr => ?_, fun p hp hpr => ?_, fun fd hfd p hp => hroot.mem hfd hp, hs.nodup, fun p h1 h2 => ?_⟩
  · have hrefs := hs.balanced.counted p hp
    rw [List.count_cons_of_ne (hne p hpr).symm, List.count_append, List.count_replicate,
      if_neg (by simpa using (hne p hpr).symm), count_heldBy, Nat.zero_add] at hrefs
    exact hrefs
  · have hmem := (List.mem_cons.mp (hs.needed p hp)).resolve_left (hne p hpr)
    rcases List.mem_append.mp hmem with hmem | hmem
    · exact absurd (List.eq_of_mem_replicate hmem) (hne p hpr)
    · obtain ⟨fd, hfd, hpf⟩ := List.mem_flatMap.mp hmem
      exact ⟨fd, hfd, hpf⟩
  · rw [rootNode_eq hs] at h1
    exact List.mem_append.mp ((hs.known p).mpr ⟨h1, h2⟩)

/-- In a run whose lookups are proper, the counter of every cached inode below the root is the number of
its users, and just the inodes without a user have been freed. -/
theorem refsRight_run (objects : Objects) (unset : Fd) (calls : List (ℕ × Call)) (k : Kernel)
    (hfreed : objects.fs.freed = []) (hfair : Meets step Fair (boot objects unset) calls)
    (hrun : exec step (boot objects unset) calls = some k) : RefsRight k :=
  (exec_invariant (fun _ _ _ hi hg hs => inv_step hi hg hs) (inv_boot hfreed) hfair hrun).refsRight

/-- A directory that does not exist, the root directory, a copy of its descriptor, and `stat` of the root. -/
def rootRun : List (ℕ × Call) :=
  [(0, .setcwd ⟨[97], nul_a⟩), (0, .opendir ⟨[47], by decide⟩), (0, .dup 2), (0, .stat ⟨[47], by decide⟩),
    (0, .fork), (1, .close 2)]

theorem refsRight_rootRun : ∃ k, exec step (boot blankObjects blankFd) rootRun = some k ∧ RefsRight k := by
  obtain ⟨k, hk⟩ := Option.isSome_iff_exists.mp
    (by decide +kernel : (exec step (boot blankObjects blankFd) rootRun).isSome = true)
  exact ⟨k, hk, refsRight_run blankObjects blankFd rootRun k rfl (by decide +kernel) hk⟩

def statRun : List (ℕ × Call) := [(0, .stat ⟨[97], nul_a⟩)]

/-- After `stat` of a path that does not exist, its inode stays in the cache with a reference that is
nobody's. -/
theorem stat_leaks : ¬ ∀ (objects : Objects) (unset : Fd) (calls : List (ℕ × Call)) (k : Kernel),
    objects.fs.freed = [] → exec step (boot objects unset) calls = some k → RefsRight k := by
  intro h
  obtain ⟨k, hk⟩ := Option.isSome_iff_exists.mp
    (by decide +kernel : (exec step (boot blankObjects blankFd) statRun).isSome = true)
  have hr := h blankObjects blankFd statRun k rfl hk
  have hlist : (exec step (boot blankObjects blankFd) statRun).map
      (fun k => (k.objects.fs.inodelist, (descriptors k).map inodeOf)) = some ([0, 1], [none, none]) := by
    decide +kernel
  rw [hk, Option.map_some, Option.some.injEq, Prod.mk.injEq] at hlist
  obtain ⟨hlist, hfds⟩ := hlist
  obtain ⟨fd, hfd, hp⟩ := hr.needed 1 (by simp [hlist]) (by simp [rootNode, hlist])
  have ho : inodeOf fd ∈ (descriptors k).map inodeOf := List.mem_map_of_mem hfd
  rw [hfds] at ho
  rw [heldBy_none (by simpa using ho)] at hp
  cases hp

end Eedox.InodeReferences
