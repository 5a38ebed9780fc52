import Eedox.Library.RefCount
import Eedox.Fs.Bookkept
import Eedox.Fs.Walk
import Mathlib.Data.List.Nodup

namespace Eedox.Fs

open Util Library.Bytes Library.RefCount Ata Pathbuf Childtable

/-- Every cached inode is needed by a reference in `held`, or by the one that `fs_init` keeps to the root,
and `_refs` counts these references. -/
structure Counted (s : Volume) (root : ℕ) (held : List ℕ) : Prop where
  first : s.inodelist.head? = some root
  nodup : (s.inodelist ++ s.freed).Nodup
  known : ∀ p, p ∈ s.inodelist ++ s.freed ↔ root ≤ p ∧ p < s.nextInode
  rootPath : (s.inodes root).pathbuf = pathbufRoot
  distinct : ∀ p ∈ s.inodelist, ∀ q ∈ s.inodelist,
    (s.inodes p).pathbuf = (s.inodes q).pathbuf → p = q
  balanced : Balanced (· ∈ s.inodelist) (fun p => (s.inodes p).refs) (root :: held)
  needed : ∀ p ∈ s.inodelist, p ∈ root :: held
  word : ∀ p ∈ s.inodelist, (s.inodes p).refs < 2 ^ 32

variable {s t : Volume} {root : ℕ} {held : List ℕ}

theorem Counted.perm (h : Counted s root held) {held' : List ℕ} (hp : held.Perm held') :
    Counted s root held' :=
  { h with
    balanced := h.balanced.perm (hp.cons root)
    needed := fun p hm => (hp.cons root).mem_iff.mp (h.needed p hm) }

theorem Counted.congr (h : Counted s root held) (hl : t.inodelist = s.inodelist) (hf : t.freed = s.freed)
    (hn : t.nextInode = s.nextInode) (hr : ∀ p, (t.inodes p).refs = (s.inodes p).refs)
    (hp : ∀ p, (t.inodes p).pathbuf = (s.inodes p).pathbuf) : Counted t root held where
  first := by rw [hl, h.first]
  nodup := by rw [hl, hf]; exact h.nodup
  known := by rw [hl, hf, hn]; exact h.known
  rootPath := (hp root).trans h.rootPath
  distinct := by
    rw [hl]
    intro p hpm q hqm he
    rw [hp p, hp q] at he
    exact h.distinct p hpm q hqm he
  balanced := by
    rw [hl]
    exact h.balanced.congr fun p _ => hr p
  needed := by rw [hl]; exact h.needed
  word := by
    rw [hl]
    intro p hpm
    rw [hr p]
    exact h.word p hpm

theorem Counted.bookkept (h : Counted s root held) (hb : Bookkept s t) : Counted t root held :=
  h.congr hb.inodelist hb.freed hb.nextInode hb.refs hb.pathbuf

theorem Counted.mem (h : Counted s root held) {p : ℕ} (hp : p ∈ root :: held) : p ∈ s.inodelist :=
  h.balanced.refsLive p hp

theorem Counted.root_mem (h : Counted s root held) : root ∈ s.inodelist :=
  h.mem List.mem_cons_self

theorem Counted.lt (h : Counted s root held) {p : ℕ} (hp : p ∈ s.inodelist) : p < s.nextInode :=
  ((h.known p).mp (List.mem_append_left s.freed hp)).2

theorem sub32_one {a : ℕ} (h0 : 0 < a) (h : a < 2 ^ 32) : sub32 a 1 = a - 1 := by
  unfold sub32
  omega

theorem inodelistRemove_eq_erase {node : ℕ} {nodes : List ℕ} (h : nodes.Nodup) :
    inodelistRemove node nodes = nodes.erase node := by
  induction nodes using inodelistRemove.induct node with
  | case1 => rfl
  | case2 => simp [inodelistRemove]
  | case3 q rest ih =>
    have hn := (List.nodup_cons.mp h).1
    have hrest := (List.nodup_cons.mp (List.nodup_cons.mp h).2).2
    have hnr : node ∉ rest := fun hm => hn (List.mem_cons_of_mem q hm)
    rw [inodelistRemove, if_pos rfl, ih hrest, List.erase_cons_head, List.erase_of_not_mem hnr]
  | case4 p rest hne ih =>
    rw [inodelistRemove.eq_def]
    simp only [hne, ↓reduceIte]
    rw [ih (List.nodup_cons.mp h).2, List.erase_cons_tail (by simpa using hne)]

theorem fsNodeClose_pathbuf (s : Volume) (node : Option ℕ) (p : ℕ) :
    ((fsNodeClose s node).inodes p).pathbuf = (s.inodes p).pathbuf ∧
      ((fsNodeClose s node).inodes p).parent = (s.inodes p).parent := by
  cases node with
  | none => exact ⟨rfl, rfl⟩
  | some node =>
    unfold fsNodeClose
    simp only
    by_cases hp : p = node
    · subst hp
      split_ifs <;> simp
    · split_ifs <;> simp [setInode_other _ hp]

theorem counted_fsNodeClose {p : ℕ} (h : Counted s root (p :: held)) :
    Counted (fsNodeClose s (some p)) root held := by
  have hb := h.balanced.perm (List.Perm.swap p root held)
  have hpm : p ∈ s.inodelist := hb.refsLive p List.mem_cons_self
  have hpos : 0 < (s.inodes p).refs := hb.pos List.mem_cons_self
  have hsub := sub32_one hpos (h.word p hpm)
  have hrefs : (fun q => ((setInode s p fun n => { n with refs := sub32 n.refs 1 }).inodes q).refs) =
      Function.update (fun q => (s.inodes q).refs) p ((s.inodes p).refs - 1) := by
    funext q
    by_cases hq : q = p
    · subst hq
      simp [hsub]
    · simp [setInode_other _ hq, hq]
  have hrel := hb.release
  rw [← hrefs] at hrel
  have hpath : ∀ q, ((setInode s p fun n => { n with refs := sub32 n.refs 1 }).inodes q).pathbuf =
      (s.inodes q).pathbuf := by
    intro q
    by_cases hq : q = p
    · subst hq
      rw [setInode_self]
    · rw [setInode_other _ hq]
  have hother : ∀ q ∈ s.inodelist, q ≠ p → q ∈ root :: held := fun q hq hne =>
    (List.mem_cons.mp ((List.Perm.swap p root held).mem_iff.mp (h.needed q hq))).resolve_left hne
  have hword : ∀ q ∈ s.inodelist,
      ((setInode s p fun n => { n with refs := sub32 n.refs 1 }).inodes q).refs < 2 ^ 32 := by
    intro q hq
    by_cases hqp : q = p
    · subst hqp
      rw [setInode_self]
      change sub32 (s.inodes q).refs 1 < 2 ^ 32
      have := h.word q hq
      omega
    · rw [setInode_other _ hqp]
      exact h.word q hq
  have hself : ((setInode s p fun n => { n with refs := sub32 n.refs 1 }).inodes p).refs = 0 ↔
      p ∉ root :: held := hrel.eq_zero_iff hpm
  unfold fsNodeClose
  simp only
  generalize hu : (setInode s p fun n => { n with refs := sub32 n.refs 1 }) = u at *
  have hul : u.inodelist = s.inodelist := by rw [← hu]; rfl
  have huf : u.freed = s.freed := by rw [← hu]; rfl
  have hun : u.nextInode = s.nextInode := by rw [← hu]; rfl
  by_cases hz : (u.inodes p).refs = 0
  · have hp0 := hself.mp hz
    have hpr : p ≠ root := fun he => hp0 (he ▸ List.mem_cons_self)
    rw [if_pos hz, hul, huf]
    have hnl : s.inodelist.Nodup := (List.nodup_append.mp h.nodup).1
    rw [inodelistRemove_eq_erase hnl]
    have herase : (s.inodelist.erase p ++ (s.freed ++ [p])).Perm (s.inodelist ++ s.freed) := by
      rw [← List.append_assoc]
      refine List.perm_append_comm.trans ?_
      exact ((List.perm_cons_erase hpm).append_right s.freed).symm
    have hmem : ∀ q, q ∈ s.inodelist.erase p ↔ q ≠ p ∧ q ∈ s.inodelist := fun q => hnl.mem_erase_iff
    refine ⟨?_, herase.nodup_iff.mpr h.nodup, ?_, ?_, ?_, ?_, ?_, ?_⟩
    · have hfirst := h.first
      cases hs : s.inodelist with
      | nil =>
        rw [hs] at hfirst
        cases hfirst
      | cons r rest =>
        rw [hs] at hfirst
        obtain rfl : r = root := by simpa using hfirst
        rw [List.erase_cons_tail (by simpa using hpr.symm)]
        rfl
    · intro q
      rw [herase.mem_iff, h.known, hun]
    · exact (hpath root).trans h.rootPath
    · intro q hq r hr he
      rw [hpath q, hpath r] at he
      exact h.distinct q ((hmem q).mp hq).2 r ((hmem r).mp hr).2 he
    · exact hrel.destroy hp0 (fun q hq => ((hmem q).mp hq).2) fun q hq hqp => (hmem q).mpr ⟨hqp, hq⟩
    · intro q hq
      exact hother q ((hmem q).mp hq).2 ((hmem q).mp hq).1
    · exact fun q hq => hword q ((hmem q).mp hq).2
  · rw [if_neg hz]
    refine ⟨hul ▸ h.first, by rw [hul, huf]; exact h.nodup, ?_, (hpath root).trans h.rootPath, ?_, ?_, ?_, ?_⟩
    · rw [hul, huf, hun]
      exact h.known
    · rw [hul]
      intro q hq r hr he
      rw [hpath q, hpath r] at he
      exact h.distinct q hq r hr he
    · rw [hul]
      exact hrel
    · rw [hul]
      intro q hq
      by_cases hqp : q = p
      · subst hqp
        exact not_not.mp fun hn => hz (hself.mpr hn)
      · exact hother q hq hqp
    · rw [hul]
      exact hword

theorem counted_closeAll {nodes : List ℕ} (h : Counted s root (nodes ++ held)) :
    Counted (nodes.foldl (fun s node => fsNodeClose s (some node)) s) root held := by
  induction nodes generalizing s with
  | nil => exact h
  | cons node nodes ih => exact ih (counted_fsNodeClose h)

theorem closeAll_pathbuf (nodes : List ℕ) (s : Volume) (p : ℕ) :
    ((nodes.foldl (fun s node => fsNodeClose s (some node)) s).inodes p).pathbuf = (s.inodes p).pathbuf ∧
      ((nodes.foldl (fun s node => fsNodeClose s (some node)) s).inodes p).parent =
        (s.inodes p).parent := by
  induction nodes generalizing s with
  | nil => exact ⟨rfl, rfl⟩
  | cons node nodes ih =>
    rw [List.foldl_cons]
    have h := fsNodeClose_pathbuf s (some node) p
    exact ⟨(ih _).1.trans h.1, (ih _).2.trans h.2⟩

theorem counted_addRef {p : ℕ} (h : Counted s root held) (hp : p ∈ s.inodelist)
    (hroom : (s.inodes p).refs + 1 < 2 ^ 32) :
    Counted (setInode s p fun n => { n with refs := (n.refs + 1) % 2 ^ 32 }) root (p :: held) := by
  have hpath : ∀ q, ((setInode s p fun n => { n with refs := (n.refs + 1) % 2 ^ 32 }).inodes q).pathbuf =
      (s.inodes q).pathbuf := by
    intro q
    by_cases hq : q = p
    · subst hq
      rw [setInode_self]
    · rw [setInode_other _ hq]
  have hrefs : (fun q => ((setInode s p fun n => { n with refs := (n.refs + 1) % 2 ^ 32 }).inodes q).refs) =
      Function.update (fun q => (s.inodes q).refs) p ((s.inodes p).refs + 1) := by
    funext q
    by_cases hq : q = p
    · subst hq
      rw [setInode_self, Function.update_self]
      exact Nat.mod_eq_of_lt hroom
    · simp [setInode_other _ hq, hq]
  refine ⟨h.first, h.nodup, h.known, (hpath root).trans h.rootPath, ?_, ?_, ?_, ?_⟩
  · intro q hq r hr he
    rw [hpath q, hpath r] at he
    exact h.distinct q hq r hr he
  · rw [hrefs]
    exact (h.balanced.acquire hp).perm (List.Perm.swap root p held)
  · intro q hq
    exact (List.Perm.swap root p held).mem_iff.mp (List.mem_cons_of_mem p (h.needed q hq))
  · intro q hq
    have hq' : ((setInode s p fun n => { n with refs := (n.refs + 1) % 2 ^ 32 }).inodes q).refs = _ :=
      congrFun hrefs q
    rw [hq']
    by_cases hqp : q = p
    · subst hqp
      rw [Function.update_self]
      exact hroom
    · rw [Function.update_of_ne hqp]
      exact h.word q hq

theorem fsNodeChild_new {node : ℕ} {name : Str}
    (hget : inodelistGet s (pathbufChild (s.inodes node).pathbuf name) = none) :
    fsNodeChild s node name =
      let u := inodeNew s (pathbufChild (s.inodes node).pathbuf name)
      (setInode u s.nextInode (inodeChild u (u.inodes node) name), s.nextInode) := by
  unfold fsNodeChild
  simp only
  rw [hget]

/-- A child that is not cached comes with its first reference. -/
theorem counted_newChild {node : ℕ} {name : Str} (h : Counted s root held)
    (hget : inodelistGet s (pathbufChild (s.inodes node).pathbuf name) = none) :
    Counted (fsNodeChild s node name).1 root ((fsNodeChild s node name).2 :: held) ∧
      (fsNodeChild s node name).1.inodelist = s.inodelist ++ [(fsNodeChild s node name).2] ∧
      (fsNodeChild s node name).2 = s.nextInode ∧
      ∀ p, p ≠ s.nextInode → (fsNodeChild s node name).1.inodes p = s.inodes p := by
  have hpath := fsNodeChild_path s node name
  have hnew := fsNodeChild_new hget
  have hrefs : ((fsNodeChild s node name).1.inodes (fsNodeChild s node name).2).refs = 1 := by
    rw [hnew]
    simp only
    rw [setInode_self, inodeChild]
    split_ifs <;> simp [inodeNew]
  have hother : ∀ p, p ≠ s.nextInode → (fsNodeChild s node name).1.inodes p = s.inodes p := by
    intro p hp
    rw [hnew]
    simp only
    rw [setInode_other _ hp, inodeNew_other hp]
  have hchild : (fsNodeChild s node name).2 = s.nextInode := by rw [hnew]
  have hlist : (fsNodeChild s node name).1.inodelist = s.inodelist ++ [s.nextInode] := by
    rw [hnew]
    rfl
  have hfreed : (fsNodeChild s node name).1.freed = s.freed := by
    rw [hnew]
    rfl
  have hnext : (fsNodeChild s node name).1.nextInode = s.nextInode + 1 := by
    rw [hnew]
    rfl
  rw [hchild] at hpath hrefs ⊢
  generalize (fsNodeChild s node name).1 = t at *
  have hfresh : s.nextInode ∉ s.inodelist ++ s.freed := fun hm => lt_irrefl _ ((h.known _).mp hm).2
  have hlisted : s.nextInode ∉ s.inodelist := fun hm => hfresh (List.mem_append_left _ hm)
  have hmem : ∀ p, p ∈ t.inodelist ↔ p = s.nextInode ∨ p ∈ s.inodelist := by
    intro p
    rw [hlist, List.mem_append, List.mem_singleton, or_comm]
  have hkept : ∀ p ∈ s.inodelist, t.inodes p = s.inodes p := fun p hp =>
    hother p fun he => hlisted (he ▸ hp)
  have habsent : ∀ p ∈ s.inodelist, (s.inodes p).pathbuf ≠ (t.inodes s.nextInode).pathbuf := by
    intro p hp he
    rw [hpath] at he
    exact List.find?_eq_none.mp hget p hp (pathbufCmp_eq.mpr he)
  have hperm : (t.inodelist ++ t.freed).Perm (s.nextInode :: (s.inodelist ++ s.freed)) := by
    rw [hlist, hfreed, List.append_assoc]
    exact List.perm_middle
  refine ⟨⟨?_, ?_, ?_, ?_, ?_, ?_, ?_, ?_⟩, hlist, rfl, hother⟩
  · rw [hlist, List.head?_append, h.first]
    rfl
  · rw [hperm.nodup_iff]
    exact List.nodup_cons.mpr ⟨hfresh, h.nodup⟩
  · intro p
    have hroot := h.lt h.root_mem
    rw [hperm.mem_iff, List.mem_cons, h.known, hnext]
    omega
  · rw [hkept root h.root_mem]
    exact h.rootPath
  · intro p hp q hq he
    rcases (hmem p).mp hp with rfl | hp <;> rcases (hmem q).mp hq with rfl | hq
    · rfl
    · rw [hkept q hq] at he
      exact absurd he.symm (habsent q hq)
    · rw [hkept p hp] at he
      exact absurd he (habsent p hp)
    · rw [hkept p hp, hkept q hq] at he
      exact h.distinct p hp q hq he
  · have hcreate := h.balanced.create hlisted 1 hmem hrefs fun p hp => congrArg InodeT.refs (hkept p hp)
    exact hcreate.perm (List.Perm.swap root s.nextInode held)
  · intro p hp
    rcases (hmem p).mp hp with rfl | hp
    · simp
    · rcases List.mem_cons.mp (h.needed p hp) with rfl | hp
      · exact List.mem_cons_self
      · exact List.mem_cons_of_mem _ (List.mem_cons_of_mem _ hp)
  · intro p hp
    rcases (hmem p).mp hp with rfl | hp
    · rw [hrefs]
      omega
    · rw [hkept p hp]
      exact h.word p hp

/-- No cached inode lies on the way to the path beyond its first `k` fields. -/
def Cold (s : Volume) (pathbuf : PathbufT) (k : ℕ) : Prop :=
  ∀ p ∈ s.inodelist, ∀ j, k < j → j ≤ pathbufLen pathbuf → (s.inodes p).pathbuf ≠ upTo pathbuf j

/-- A walk through inodes that were not cached holds a reference to each that it has passed. -/
structure Descending (s : Volume) (root : ℕ) (held : List ℕ) (pathbuf : PathbufT) (ptr : ℕ)
    (loaded : List ℕ) : Prop where
  counted : Counted s root (ptr :: (loaded ++ held))
  path : (s.inodes ptr).pathbuf = upTo pathbuf loaded.length
  length : loaded.length ≤ pathbufLen pathbuf
  cold : Cold s pathbuf loaded.length

variable {pathbuf : PathbufT} {ptr node : ℕ} {loaded nodes : List ℕ}

theorem Descending.child {name : Str} (h : Descending s root held pathbuf ptr loaded)
    (hname : pathbuf.fields[loaded.length]? = some name) :
    Descending (fsNodeChild s ptr name).1 root held pathbuf (fsNodeChild s ptr name).2 (loaded ++ [ptr]) := by
  have hlt : loaded.length < pathbufLen pathbuf := (List.getElem?_eq_some_iff.mp hname).1
  have hchild := upTo_succ hname
  have hget : inodelistGet s (pathbufChild (s.inodes ptr).pathbuf name) = none := by
    rw [h.path, hchild]
    refine List.find?_eq_none.mpr fun p hp hcmp => ?_
    exact h.cold p hp _ (Nat.lt_succ_self _) hlt (pathbufCmp_eq.mp hcmp)
  obtain ⟨hcounted, hlist, hnew, hother⟩ := counted_newChild h.counted hget
  have hpath := fsNodeChild_path s ptr name
  rw [h.path, hchild] at hpath
  constructor
  · apply hcounted.perm
    rw [List.append_assoc]
    exact (@List.perm_middle _ _ loaded held).symm.cons _
  · rw [hpath, List.length_append, List.length_singleton]
  · rw [List.length_append, List.length_singleton]
    exact hlt
  · intro p hp j hj hjl
    rw [List.length_append, List.length_singleton] at hj
    rw [hlist, hnew] at hp
    rcases List.mem_append.mp hp with hp | hp
    · rw [hother p (h.counted.lt hp).ne]
      exact h.cold p hp j (by omega) hjl
    · rw [List.mem_singleton.mp hp, ← hnew, hpath]
      intro he
      have hlen := congrArg pathbufLen he
      rw [pathbufLen_upTo hlt, pathbufLen_upTo hjl] at hlen
      omega

theorem descending_walk {fuel : ℕ} {found : Bool} (h : Descending s root held pathbuf ptr loaded)
    (hw : walk pathbuf fuel s ptr loaded = some (t, node, nodes, found)) :
    if found then Descending t root held pathbuf node nodes ∧ (t.inodes node).pathbuf = pathbuf
    else Counted t root (nodes ++ held) := by
  induction fuel generalizing s ptr loaded with
  | zero => cases hw
  | succ fuel ih =>
    have hstop : Counted s root ((loaded ++ [ptr]) ++ held) := by
      apply h.counted.perm
      rw [List.append_assoc]
      exact (@List.perm_middle _ _ loaded held).symm
    unfold walk at hw
    split_ifs at hw with hcmp
    · simp only [Option.some.injEq, Prod.mk.injEq] at hw
      obtain ⟨rfl, rfl, rfl, rfl⟩ := hw
      exact ⟨h, pathbufCmp_eq.mp hcmp⟩
    · simp only [Option.some.injEq, Prod.mk.injEq] at hw
      obtain ⟨rfl, -, rfl, rfl⟩ := hw
      exact hstop
    · simp only [Option.some.injEq, Prod.mk.injEq] at hw
      obtain ⟨rfl, -, rfl, rfl⟩ := hw
      exact hstop
    · rw [h.path, pathbufLen_upTo h.length] at hw
      split at hw
      · cases hw
      · rename_i name hname
        exact ih (h.child hname) hw

theorem dropLast_getLast (l : List ℕ) : l = l.dropLast ++ l.getLast?.toList := by
  rcases List.eq_nil_or_concat l with rfl | ⟨init, last, rfl⟩
  · rfl
  · rw [List.concat_eq_append, List.dropLast_concat, List.getLast?_append]
    rfl

theorem loaded_perm (ptr : ℕ) (loaded held : List ℕ) : (ptr :: (loaded ++ held)).Perm
    (loaded.dropLast.dropLast ++
      ptr :: (loaded.getLast?.toList ++ (loaded.dropLast.getLast?.toList ++ held))) := by
  have hsplit : loaded ++ held = loaded.dropLast.dropLast ++
      (loaded.dropLast.getLast?.toList ++ (loaded.getLast?.toList ++ held)) := by
    rw [← List.append_assoc, ← List.append_assoc, List.append_assoc _ _ loaded.getLast?.toList,
      ← List.append_assoc, ← dropLast_getLast, ← dropLast_getLast]
  rw [hsplit]
  refine List.perm_middle.symm.trans (List.Perm.append_left _ (List.Perm.cons ptr ?_))
  exact List.perm_append_comm_assoc _ _ _

/-- What a lookup of a path that is not cached leaves behind. -/
theorem counted_fsNodeOpen {o : Option Opened} (h : Counted s root held) (hpath : Rooted pathbuf)
    (hcold : Cold s pathbuf 0) (hroom : (s.inodes root).refs + 1 < 2 ^ 32)
    (hopen : fsNodeOpen s pathbuf = some (t, o)) :
    match o with
    | none => Counted t root held
    | some o => Counted t root (o.node :: (o.parent.toList ++ (o.gparent.toList ++ held))) ∧
        (t.inodes o.node).pathbuf = pathbuf := by
  have hcounted := counted_addRef h h.root_mem hroom
  have hpaths : ∀ p, ((setInode s root fun n => { n with refs := (n.refs + 1) % 2 ^ 32 }).inodes p).pathbuf =
      (s.inodes p).pathbuf := by
    intro p
    by_cases hp : p = root
    · subst hp
      rw [setInode_self]
    · rw [setInode_other _ hp]
  have hstart : Descending (setInode s root fun n => { n with refs := (n.refs + 1) % 2 ^ 32 }) root held
      pathbuf root [] := by
    refine ⟨hcounted, ?_, Nat.zero_le _, fun p hp => ?_⟩
    · rw [hpaths, h.rootPath]
      unfold upTo pathbufRoot
      rw [hpath.1, hpath.2, List.length_nil, List.take_zero]
    · rw [hpaths]
      exact hcold p hp
  unfold fsNodeOpen fsNodeRoot at hopen
  rw [h.first, Option.map_some] at hopen
  simp only at hopen
  split at hopen
  · cases hopen
  · rename_i u ptr loaded hwalk
    simp only [Option.some.injEq, Prod.mk.injEq] at hopen
    obtain ⟨rfl, rfl⟩ := hopen
    obtain ⟨hu, hptr⟩ := descending_walk hstart hwalk
    refine ⟨counted_closeAll (hu.counted.perm ?_), (closeAll_pathbuf _ _ _).1.trans hptr⟩
    exact loaded_perm ptr loaded held
  · rename_i u ptr loaded hwalk
    simp only [Option.some.injEq, Prod.mk.injEq] at hopen
    obtain ⟨rfl, rfl⟩ := hopen
    exact counted_closeAll (descending_walk hstart hwalk)

theorem counted_setParent (h : Counted s root held) (node : ℕ) (parent : Option ℕ) :
    Counted (setInode s node fun n => { n with parent := parent }) root held := by
  refine h.congr rfl rfl rfl (fun p => ?_) fun p => ?_
  · by_cases hp : p = node
    · subst hp
      rw [setInode_self]
    · rw [setInode_other _ hp]
  · by_cases hp : p = node
    · subst hp
      rw [setInode_self]
    · rw [setInode_other _ hp]

theorem fsNodeClose_parent (s : Volume) (node : Option ℕ) (p : ℕ) :
    ((fsNodeClose s node).inodes p).parent = (s.inodes p).parent := (fsNodeClose_pathbuf s node p).2

theorem counted_closeOption {node : Option ℕ} (h : Counted s root (node.toList ++ held)) :
    Counted (fsNodeClose s node) root held := by
  cases node with
  | none => exact h
  | some node => exact counted_fsNodeClose h

/-- A call of `fs_open` for a path that is not cached holds the inode it returns and that inode's parent. -/
theorem counted_fsOpen {create truncate unlink : Bool} {dir : ℕ} {res : ℤ} {o : Option ℕ}
    (h : Counted s root held) (hpath : Rooted pathbuf) (hcold : Cold s pathbuf 0)
    (hroom : (s.inodes root).refs + 1 < 2 ^ 32)
    (hopen : fsOpen s pathbuf create truncate dir unlink = some (t, o, res)) :
    match o with
    | none => Counted t root held ∧ res ≠ 0
    | some node => Counted t root (node :: ((t.inodes node).parent.toList ++ held)) ∧
        (t.inodes node).pathbuf = pathbuf := by
  unfold fsOpen at hopen
  split at hopen
  · cases hopen
  · rename_i u hu
    simp only [Option.some.injEq, Prod.mk.injEq] at hopen
    obtain ⟨rfl, rfl, rfl⟩ := hopen
    exact ⟨counted_fsNodeOpen h hpath hcold hroom hu, by decide⟩
  · rename_i u o hu
    obtain ⟨hcounted, hnode⟩ := counted_fsNodeOpen h hpath hcold hroom hu
    obtain ⟨⟨v, r⟩, hv, he⟩ := Option.map_eq_some_iff.mp hopen
    have hkept : Bookkept u v := by
      split_ifs at hv
      · exact bookkept_openMissing hv
      · have hv : (openExisting u truncate dir unlink o).1 = v := congrArg Prod.fst (Option.some.inj hv)
        rw [← hv]
        exact bookkept_openExisting u truncate dir unlink o
    simp only [Prod.mk.injEq] at he
    obtain ⟨rfl, rfl, rfl⟩ := he
    have hset := counted_setParent (hcounted.bookkept hkept) o.node o.parent
    refine ⟨?_, ?_⟩
    · rw [fsNodeClose_parent, setInode_self]
      apply counted_closeOption
      apply hset.perm
      simp only
      refine (List.Perm.cons o.node (List.perm_append_comm_assoc _ _ _)).trans ?_
      exact List.perm_middle.symm
    · rw [(fsNodeClose_pathbuf _ _ _).1, setInode_self]
      exact (hkept.pathbuf o.node).trans hnode

theorem counted_fsClose (h : Counted s root (node :: ((s.inodes node).parent.toList ++ held))) :
    Counted (fsClose s (some node)) root held :=
  counted_closeOption (counted_fsNodeClose h)

theorem Counted.rootCached (h : Counted s root held) : RootCached s := ⟨root, h.first, h.rootPath⟩

theorem bookkept_binit (s : Volume) : Bookkept s (binit s) := by
  unfold binit
  simp only
  split_ifs
  · exact ⟨rfl, rfl, rfl, fun _ => rfl, fun _ => rfl, fun _ => rfl⟩
  · exact ⟨rfl, rfl, rfl, fun _ => rfl, fun _ => rfl, fun _ => rfl⟩

theorem counted_firstInode (s : Volume) (hfreed : s.freed = []) :
    Counted (inodeNew { s with inodelist := [] } pathbufRoot) s.nextInode [] := by
  have hnode : (inodeNew { s with inodelist := [] } pathbufRoot).inodes s.nextInode =
      { s.inodes s.nextInode with refs := 1, parent := none, pathbuf := pathbufRoot } := by
    simp [inodeNew]
  have hlist : (inodeNew { s with inodelist := [] } pathbufRoot).inodelist = [s.nextInode] := rfl
  have hfreed' : (inodeNew { s with inodelist := [] } pathbufRoot).freed = [] := hfreed
  constructor
  · rfl
  · rw [hlist, hfreed']
    exact List.nodup_singleton _
  · intro p
    rw [hlist, hfreed', List.append_nil, List.mem_singleton]
    change p = s.nextInode ↔ s.nextInode ≤ p ∧ p < s.nextInode + 1
    omega
  · rw [hnode]
  · intro p hp q hq _
    rw [hlist, List.mem_singleton] at hp hq
    rw [hp, hq]
  · constructor
    · intro p hp
      rw [hlist]
      exact hp
    · intro p hp
      rw [hlist, List.mem_singleton] at hp
      rw [hp, hnode, List.count_singleton_self]
  · intro p hp
    rw [hlist] at hp
    exact hp
  · intro p hp
    rw [hlist, List.mem_singleton] at hp
    rw [hp, hnode]
    change 1 < 2 ^ 32
    omega

theorem counted_fsInit (s : Volume) (hfreed : s.freed = []) :
    ∃ root, Counted (fsInit s) root [] := by
  have hb := (bookkept_binit s).freed.trans hfreed
  have hmount (u : Volume) (hu : u.freed = []) (header : Header) : Counted
      (setInode (inodeNew { u with inodelist := [] } pathbufRoot) u.nextInode fun n =>
        { n with toHeader := header }) u.nextInode [] := by
    apply (counted_firstInode u hu).bookkept
    exact (Bookkept.refl _).setInode _ fun _ => ⟨rfl, rfl, rfl⟩
  have hblank (v : Volume) (root : ℕ) (hv : Counted v root []) (index : ℕ) : Counted
      (inodeUpdate (setInode (balloc v 1) root fun n => { n with
        isvalid := 1, childCount := 0, index := index, size := 0, alloc := 0, type := inodeTypeDir }) root)
      root [] := by
    apply hv.bookkept
    exact (((Bookkept.refl _).balloc 1).setInode root (by exact fun _ => ⟨rfl, rfl, rfl⟩)).update root
  unfold fsInit
  simp only
  generalize binit s = u at hb
  generalize (if wordAt (ataRead u.disk 1) 0 = 0 then fsStartSector else wordAt (ataRead u.disk 1) 0) =
    rootIndex
  generalize hv : (if wordAt (ataRead u.disk 1) 0 = 0 then
    { u with disk := ataWrite u.disk 1 (putWord (ataRead u.disk 1) 0 rootIndex) } else u) = v
  have hvf : v.freed = [] := by
    rw [← hv]
    split_ifs <;> exact hb
  refine ⟨v.nextInode, ?_⟩
  split_ifs
  · exact hblank _ _ (hmount v hvf _) _
  · exact hmount v hvf _

end Eedox.Fs
