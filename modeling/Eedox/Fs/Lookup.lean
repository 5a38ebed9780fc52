import Eedox.Fs.References
import Mathlib.Data.List.Find

namespace Eedox.Fs

open Util Library.Bytes Ata Pathbuf Childtable

/-- Where the table of a directory leads to, as `inode_child` reads it. -/
def childIndex (s : Volume) (h : Header) (name : Str) : ℕ :=
  childtableGet ⟨inodeRead s ⟨h, 0, pathbufRoot, none⟩ 0 h.size, h.alloc⟩ name

/-- What a lookup meets at the first `k` fields of a path: a cached inode, or what the table of the
directory above leads to. -/
def met (s : Volume) (root : ℕ) (pathbuf : PathbufT) : ℕ → Header
  | 0 => (s.inodes root).toHeader
  | k + 1 =>
    match inodelistGet s (upTo pathbuf (k + 1)), pathbuf.fields[k]? with
    | some child, _ => (s.inodes child).toHeader
    | none, none => ⟨0, 0, 0, 0, 0, 0⟩
    | none, some name =>
      let index := childIndex s (met s root pathbuf k) name
      if index ≠ 0 then inodeFetch s.disk index else ⟨0, 0, 0, 0, 0, 0⟩

/-- No lookup goes below an inode that is not valid, nor below a file. -/
def Stops (s : Volume) (root : ℕ) (pathbuf : PathbufT) (k : ℕ) : Prop :=
  (met s root pathbuf k).isvalid = 0 ∨ (met s root pathbuf k).type = inodeTypeFile

def Comes (s : Volume) (root : ℕ) (pathbuf : PathbufT) (k : ℕ) : Prop := ∀ j < k, ¬ Stops s root pathbuf j

def CachedAt (s : Volume) (pathbuf : PathbufT) (k : ℕ) : Prop :=
  (inodelistGet s (upTo pathbuf k)).isSome = true

instance (s : Volume) (root : ℕ) (pathbuf : PathbufT) (k : ℕ) : Decidable (Stops s root pathbuf k) :=
  inferInstanceAs (Decidable (_ ∨ _))

instance (s : Volume) (root : ℕ) (pathbuf : PathbufT) (k : ℕ) : Decidable (Comes s root pathbuf k) :=
  inferInstanceAs (Decidable (∀ j < k, ¬ Stops s root pathbuf j))

instance (s : Volume) (pathbuf : PathbufT) (k : ℕ) : Decidable (CachedAt s pathbuf k) :=
  inferInstanceAs (Decidable (_ = true))

theorem cachedAt_iff {s : Volume} {pathbuf : PathbufT} {k : ℕ} :
    CachedAt s pathbuf k ↔ ∃ p ∈ s.inodelist, (s.inodes p).pathbuf = upTo pathbuf k := by
  unfold CachedAt inodelistGet
  simp only [List.find?_isSome, pathbufCmp_eq]

/-- Inodes that are not valid are alike to a lookup. -/
def Agree (h h' : Header) : Prop := h = h' ∨ h.isvalid = 0 ∧ h'.isvalid = 0

theorem Agree.isvalid {h h' : Header} (ha : Agree h h') : h.isvalid = h'.isvalid := by
  rcases ha with rfl | ⟨h0, h0'⟩
  · rfl
  · rw [h0, h0']

theorem Agree.eq {h h' : Header} (ha : Agree h h') (hv : h.isvalid ≠ 0) : h = h' :=
  ha.resolve_right fun h0 => hv h0.1

theorem inodeRead_congr {s t : Volume} {n n' : InodeT} (hd : t.disk = s.disk) (hj : t.junk = s.junk)
    (hn : n'.toHeader = n.toHeader) (bytesFrom count : ℕ) :
    inodeRead t n' bytesFrom count = inodeRead s n bytesFrom count := by
  have hi : n'.index = n.index := congrArg Header.index hn
  have hs : n'.size = n.size := congrArg Header.size hn
  have ha : n'.alloc = n.alloc := congrArg Header.alloc hn
  unfold inodeRead inodeCalculateOperationBounds
  simp only [hd, hj, hi, hs, ha]

theorem inodeChild_agree {s t : Volume} {node buffer : InodeT} {h : Header} (name : Str)
    (hd : t.disk = s.disk) (hj : t.junk = s.junk) (hn : node.toHeader = h) :
    Agree (inodeChild t node name buffer).toHeader
      (if childIndex s h name ≠ 0 then inodeFetch s.disk (childIndex s h name) else ⟨0, 0, 0, 0, 0, 0⟩) := by
  have hindex : childtableGet ⟨inodeRead t node 0 node.size, node.alloc⟩ name = childIndex s h name := by
    subst hn
    have hread := @inodeRead_congr s t ⟨node.toHeader, 0, pathbufRoot, none⟩ node hd hj rfl 0 node.size
    rw [hread]
    rfl
  unfold inodeChild
  simp only [hindex, hd]
  split_ifs
  · exact Or.inl rfl
  · exact Or.inr ⟨rfl, rfl⟩

/-- A walk that has come to `ptr` holds a reference to each inode on its way that was not cached in `s`,
and the one that `fs_node_root` has taken. -/
structure OnWay (s t : Volume) (root : ℕ) (held : List ℕ) (pathbuf : PathbufT) (ptr : ℕ)
    (loaded : List ℕ) : Prop where
  quiet : Quiet s t
  junk : t.junk = s.junk
  start : (loaded ++ [ptr]).head? = some root
  path : ∀ i v, (loaded ++ [ptr])[i]? = some v → (t.inodes v).pathbuf = upTo pathbuf i
  length : loaded.length ≤ pathbufLen pathbuf
  cached : ∀ j, loaded.length < j → j ≤ pathbufLen pathbuf →
    inodelistGet t (upTo pathbuf j) = inodelistGet s (upTo pathbuf j)
  agree : Agree (t.inodes ptr).toHeader (met s root pathbuf loaded.length)
  comes : Comes s root pathbuf loaded.length
  counted : Counted t root ((loaded ++ [ptr]).filter (fun v => v ∉ s.inodelist) ++ root :: held)
  kept : ∀ p ∈ s.inodelist, (t.inodes p).pathbuf = (s.inodes p).pathbuf ∧
    (t.inodes p).parent = (s.inodes p).parent

variable {s t : Volume} {root ptr node : ℕ} {held loaded nodes : List ℕ} {pathbuf : PathbufT}

theorem OnWay.ptr_path (h : OnWay s t root held pathbuf ptr loaded) :
    (t.inodes ptr).pathbuf = upTo pathbuf loaded.length :=
  h.path _ _ (by simp)

theorem Counted.held_mem (h : Counted s root held) (h' : Counted t root nodes) (hsub : held ⊆ nodes)
    {p : ℕ} (hp : p ∈ s.inodelist) : p ∈ t.inodelist := by
  apply h'.mem
  rcases List.mem_cons.mp (h.needed p hp) with rfl | hp
  · exact List.mem_cons_self
  · exact List.mem_cons_of_mem _ (hsub hp)

theorem snoc_cases {l : List ℕ} {a v i : ℕ} (h : (l ++ [a])[i]? = some v) :
    l[i]? = some v ∨ i = l.length ∧ v = a := by
  rcases Nat.lt_or_ge i l.length with hi | hi
  · rw [List.getElem?_append_left hi] at h
    exact Or.inl h
  · have hlt := (List.getElem?_eq_some_iff.mp h).1
    rw [List.length_append, List.length_singleton] at hlt
    obtain rfl : i = l.length := by omega
    rw [List.getElem?_concat_length] at h
    exact Or.inr ⟨rfl, (Option.some.inj h).symm⟩

theorem OnWay.hit {child : ℕ} (h : OnWay s t root held pathbuf ptr loaded)
    (hs : Counted s root held) (hlt : loaded.length < pathbufLen pathbuf)
    (hgo : ¬ Stops s root pathbuf loaded.length)
    (hget : inodelistGet t (upTo pathbuf (loaded.length + 1)) = some child) :
    OnWay s t root held pathbuf child (loaded ++ [ptr]) := by
  have hgets : inodelistGet s (upTo pathbuf (loaded.length + 1)) = some child := by
    rw [← h.cached _ (Nat.lt_succ_self _) hlt, hget]
  have hmem : child ∈ s.inodelist := List.mem_of_find?_eq_some hgets
  have hcmp := List.find?_some hget
  have hpath : (t.inodes child).pathbuf = upTo pathbuf (loaded.length + 1) := pathbufCmp_eq.mp hcmp
  have hlen : (loaded ++ [ptr]).length = loaded.length + 1 := by simp
  refine ⟨h.quiet, h.junk, ?_, ?_, by rw [hlen]; exact hlt, ?_, ?_, ?_, ?_, h.kept⟩
  · rw [List.head?_append, h.start]
    rfl
  · intro i v hv
    rcases snoc_cases hv with hv | ⟨rfl, rfl⟩
    · exact h.path i v hv
    · rw [hpath, hlen]
  · rw [hlen]
    intro j hj hjl
    exact h.cached j (by omega) hjl
  · rw [hlen, met, hgets]
    exact Or.inl (h.quiet.header child (hs.lt hmem))
  · rw [hlen]
    intro j hj
    rcases Nat.lt_succ_iff_lt_or_eq.mp hj with hj | rfl
    · exact h.comes j hj
    · exact hgo
  · rw [List.filter_append, List.filter_cons_of_neg (by simpa using hmem), List.filter_nil, List.append_nil]
    exact h.counted

theorem OnWay.new {name : Str} (h : OnWay s t root held pathbuf ptr loaded) (hs : Counted s root held)
    (hname : pathbuf.fields[loaded.length]? = some name) (hgo : ¬ Stops s root pathbuf loaded.length)
    (hget : inodelistGet t (upTo pathbuf (loaded.length + 1)) = none) :
    OnWay s (fsNodeChild t ptr name).1 root held pathbuf (fsNodeChild t ptr name).2 (loaded ++ [ptr]) := by
  have hlt : loaded.length < pathbufLen pathbuf := (List.getElem?_eq_some_iff.mp hname).1
  have hgets : inodelistGet s (upTo pathbuf (loaded.length + 1)) = none := by
    rw [← h.cached _ (Nat.lt_succ_self _) hlt, hget]
  have hchild : pathbufChild (t.inodes ptr).pathbuf name = upTo pathbuf (loaded.length + 1) := by
    rw [h.ptr_path, upTo_succ hname]
  have hget' : inodelistGet t (pathbufChild (t.inodes ptr).pathbuf name) = none := by rw [hchild, hget]
  obtain ⟨hcounted, hlist, hnew, hother⟩ := counted_newChild h.counted hget'
  have hpath := fsNodeChild_path t ptr name
  rw [hchild] at hpath
  have hquiet := quiet_fsNodeChild t ptr name
  have hfresh : t.nextInode ∉ s.inodelist := fun hm => absurd (hs.lt hm) (Nat.not_lt.mpr h.quiet.next)
  have hold (v : ℕ) (hv : v ∈ loaded ++ [ptr]) : v ≠ t.nextInode := by
    rintro rfl
    have hm := h.counted.mem (List.mem_cons_of_mem root (List.mem_append_left (root :: held)
      (List.mem_filter.mpr ⟨hv, by simpa using hfresh⟩)))
    exact absurd (h.counted.lt hm) (Nat.lt_irrefl _)
  have hlen : (loaded ++ [ptr]).length = loaded.length + 1 := by simp
  have hnode : (t.inodes ptr).toHeader = met s root pathbuf loaded.length := by
    apply h.agree.eq
    intro hz
    exact hgo (Or.inl (h.agree.isvalid ▸ hz))
  refine ⟨h.quiet.trans hquiet, ?_, ?_, ?_, by rw [hlen]; exact hlt, ?_, ?_, ?_, ?_, ?_⟩
  · rw [fsNodeChild_new hget']
    exact h.junk
  · rw [List.head?_append, h.start]
    rfl
  · intro i v hv
    rcases snoc_cases hv with hv | ⟨rfl, rfl⟩
    · rw [hother v (hold v (List.mem_of_getElem? hv))]
      exact h.path i v hv
    · rw [hpath, hlen]
  · rw [hlen]
    intro j hj hjl
    rw [← h.cached j (by omega) hjl]
    unfold inodelistGet
    rw [hlist, List.find?_append]
    have hlast : List.find? (fun node => pathbufCmp (((fsNodeChild t ptr name).1).inodes node).pathbuf
        (upTo pathbuf j)) [(fsNodeChild t ptr name).2] = none := by
      rw [List.find?_eq_none]
      intro p hp hcmp
      rw [List.mem_singleton.mp hp, pathbufCmp_eq, hpath] at hcmp
      have hl := congrArg pathbufLen hcmp
      rw [pathbufLen_upTo hlt, pathbufLen_upTo hjl] at hl
      omega
    rw [hlast, Option.or_none]
    apply List.find?_congr
    intro p hp
    rw [hother p (h.counted.lt hp).ne]
  · rw [hlen, met, hgets, hname, fsNodeChild_new hget']
    simp only [setInode_self]
    apply inodeChild_agree
    · exact h.quiet.disk
    · exact h.junk
    · rw [inodeNew_other (hold ptr (by simp)), hnode]
  · rw [hlen]
    intro j hj
    rcases Nat.lt_succ_iff_lt_or_eq.mp hj with hj | rfl
    · exact h.comes j hj
    · exact hgo
  · rw [List.filter_append (loaded ++ [ptr]), List.filter_cons_of_pos (by rw [hnew]; simpa using hfresh),
      List.filter_nil]
    apply hcounted.perm
    rw [List.append_assoc]
    exact List.perm_middle.symm
  · intro p hp
    have hne : p ≠ t.nextInode := ((hs.lt hp).trans_le h.quiet.next).ne
    rw [hother p hne]
    exact h.kept p hp

theorem OnWay.child {name : Str} (h : OnWay s t root held pathbuf ptr loaded) (hs : Counted s root held)
    (hname : pathbuf.fields[loaded.length]? = some name) (hgo : ¬ Stops s root pathbuf loaded.length) :
    OnWay s (fsNodeChild t ptr name).1 root held pathbuf (fsNodeChild t ptr name).2 (loaded ++ [ptr]) := by
  have hlt : loaded.length < pathbufLen pathbuf := (List.getElem?_eq_some_iff.mp hname).1
  cases hget : inodelistGet t (upTo pathbuf (loaded.length + 1)) with
  | some child =>
    have hsame : fsNodeChild t ptr name = (t, child) := by
      unfold fsNodeChild
      simp only [h.ptr_path, upTo_succ hname, hget]
    rw [hsame]
    exact h.hit hs hlt hgo hget
  | none => exact h.new hs hname hgo hget

/-- A walk ends at the whole path, or at the first inode that it cannot go below. -/
theorem onWay_walk {fuel : ℕ} {u : Volume} {found : Bool} (h : OnWay s t root held pathbuf ptr loaded)
    (hs : Counted s root held) (hw : walk pathbuf fuel t ptr loaded = some (u, node, nodes, found)) :
    if found then OnWay s u root held pathbuf node nodes ∧ nodes.length = pathbufLen pathbuf
    else ∃ last way, nodes = way ++ [last] ∧ OnWay s u root held pathbuf last way ∧
      Stops s root pathbuf way.length ∧ way.length < pathbufLen pathbuf := by
  induction fuel generalizing t ptr loaded with
  | zero => cases hw
  | succ fuel ih =>
    have hshort (hcmp : ¬ pathbufCmp (t.inodes ptr).pathbuf pathbuf = true) :
        loaded.length < pathbufLen pathbuf := by
      apply lt_of_le_of_ne h.length
      intro he
      rw [h.ptr_path, he, upTo_len] at hcmp
      exact hcmp (pathbufCmp_eq.mpr rfl)
    have hstop (hv : (t.inodes ptr).isvalid = 0 ∨ (t.inodes ptr).type = inodeTypeFile) :
        Stops s root pathbuf loaded.length := by
      rcases h.agree with he | ⟨-, hz⟩
      · unfold Stops
        rw [← he]
        exact hv
      · exact Or.inl hz
    unfold walk at hw
    split_ifs at hw with hcmp hv ht
    · simp only [Option.some.injEq, Prod.mk.injEq] at hw
      obtain ⟨rfl, rfl, rfl, rfl⟩ := hw
      refine ⟨h, ?_⟩
      have hl := congrArg pathbufLen (h.ptr_path.symm.trans (pathbufCmp_eq.mp hcmp))
      rwa [pathbufLen_upTo h.length] at hl
    · simp only [Option.some.injEq, Prod.mk.injEq] at hw
      obtain ⟨rfl, -, rfl, rfl⟩ := hw
      exact ⟨ptr, loaded, rfl, h, hstop (Or.inl hv), hshort hcmp⟩
    · simp only [Option.some.injEq, Prod.mk.injEq] at hw
      obtain ⟨rfl, -, rfl, rfl⟩ := hw
      exact ⟨ptr, loaded, rfl, h, hstop (Or.inr ht), hshort hcmp⟩
    · have hgo : ¬ Stops s root pathbuf loaded.length := by
        have he := h.agree.eq hv
        unfold Stops
        rw [← he]
        exact not_or.mpr ⟨hv, ht⟩
      rw [h.ptr_path, pathbufLen_upTo h.length] at hw
      split at hw
      · cases hw
      · rename_i name hname
        exact ih (h.child hs hname hgo) hw

theorem OnWay.mem_iff (h : OnWay s t root held pathbuf ptr loaded) (hs : Counted s root held) {i v : ℕ}
    (hv : (loaded ++ [ptr])[i]? = some v) : v ∈ s.inodelist ↔ CachedAt s pathbuf i := by
  have hpath := h.path i v hv
  rw [cachedAt_iff]
  constructor
  · intro hm
    exact ⟨v, hm, (h.kept v hm).1.symm.trans hpath⟩
  · rintro ⟨p, hp, hpp⟩
    by_contra hm
    have hvt : v ∈ t.inodelist := h.counted.mem (List.mem_cons_of_mem root (List.mem_append_left _
      (List.mem_filter.mpr ⟨List.mem_of_getElem? hv, by simpa using hm⟩)))
    have hpt : p ∈ t.inodelist := hs.held_mem h.counted
      (fun q hq => List.mem_append_right _ (List.mem_cons_of_mem root hq)) hp
    have he := h.counted.distinct p hpt v hvt (((h.kept p hp).1.trans hpp).trans hpath.symm)
    exact hm (he ▸ hp)

/-- How `fs_node_open` leaves the walk. -/
structure Left (s u t : Volume) (root : ℕ) (held : List ℕ) (pathbuf : PathbufT) (last : ℕ) (way : List ℕ)
    (o : Option Opened) : Prop where
  onWay : OnWay s u root held pathbuf last way
  found : ∀ p, o = some p → way.length = pathbufLen pathbuf ∧ p = ⟨last, way.getLast?, way.dropLast.getLast?⟩ ∧
    t = way.dropLast.dropLast.foldl (fun s node => fsNodeClose s (some node)) u
  stopped : o = none → ¬ Comes s root pathbuf (pathbufLen pathbuf) ∧
    t = (way ++ [last]).foldl (fun s node => fsNodeClose s (some node)) u

theorem onWay_root (hs : Counted s root held) (hpath : Rooted pathbuf)
    (hroom : (s.inodes root).refs + 1 < 2 ^ 32) :
    OnWay s (setInode s root fun n => { n with refs := (n.refs + 1) % 2 ^ 32 }) root held pathbuf root [] := by
  have hsame (p : ℕ) : ((setInode s root fun n => { n with refs := (n.refs + 1) % 2 ^ 32 }).inodes p).pathbuf =
      (s.inodes p).pathbuf ∧ ((setInode s root fun n => { n with refs := (n.refs + 1) % 2 ^ 32 }).inodes
        p).parent = (s.inodes p).parent := by
    by_cases hp : p = root
    · subst hp
      rw [setInode_self]
      exact ⟨rfl, rfl⟩
    · rw [setInode_other _ hp]
      exact ⟨rfl, rfl⟩
  have hstart : pathbufRoot = upTo pathbuf 0 := by
    unfold upTo pathbufRoot
    rw [hpath.1, hpath.2, List.take_zero]
  refine ⟨⟨rfl, rfl, le_rfl, fun p _ => setInode_header rfl p⟩, rfl, rfl, ?_, Nat.zero_le _, ?_, ?_,
    fun j hj => absurd hj (Nat.not_lt_zero j), ?_, fun p _ => hsame p⟩
  · intro i v hv
    obtain ⟨hi, rfl⟩ := List.getElem?_eq_some_iff.mp hv
    obtain rfl : i = 0 := Nat.lt_one_iff.mp hi
    exact (hsame root).1.trans (hs.rootPath.trans hstart)
  · intro j _ _
    unfold inodelistGet
    simp only [(hsame _).1]
    rfl
  · exact Or.inl (setInode_header rfl root)
  · rw [List.nil_append, List.filter_cons_of_neg (by simpa using hs.root_mem), List.filter_nil]
    exact counted_addRef hs hs.root_mem hroom

theorem left_fsNodeOpen {o : Option Opened} (hs : Counted s root held) (hpath : Rooted pathbuf)
    (hroom : (s.inodes root).refs + 1 < 2 ^ 32) (hopen : fsNodeOpen s pathbuf = some (t, o)) :
    ∃ u last way, Left s u t root held pathbuf last way o := by
  have hstart := onWay_root hs hpath hroom
  unfold fsNodeOpen fsNodeRoot at hopen
  rw [hs.first, Option.map_some] at hopen
  simp only at hopen
  split at hopen
  · cases hopen
  · rename_i u ptr loaded hwalk
    simp only [Option.some.injEq, Prod.mk.injEq] at hopen
    obtain ⟨rfl, rfl⟩ := hopen
    obtain ⟨h, hlen⟩ := onWay_walk hstart hs hwalk
    refine ⟨u, ptr, loaded, h, fun p hp => ?_, fun hn => by cases hn⟩
    obtain rfl := Option.some.inj hp
    exact ⟨hlen, rfl, rfl⟩
  · rename_i u ptr loaded hwalk
    simp only [Option.some.injEq, Prod.mk.injEq] at hopen
    obtain ⟨rfl, rfl⟩ := hopen
    obtain ⟨last, way, rfl, h, hstop, hlt⟩ := onWay_walk hstart hs hwalk
    exact ⟨u, last, way, h, fun p hp => (by cases hp), fun _ => ⟨fun hc => hc _ hlt hstop, rfl⟩⟩

/-- No inode that the lookup comes to below the root is cached. -/
def Clear (s : Volume) (root : ℕ) (pathbuf : PathbufT) : Prop :=
  ∀ j < pathbufLen pathbuf, Comes s root pathbuf (j + 1) → ¬ CachedAt s pathbuf (j + 1)

/-- Below the root, the inode of the path and the one above it are cached, and no other on the way. -/
def EndCached (s : Volume) (pathbuf : PathbufT) : Prop :=
  ∀ j < pathbufLen pathbuf, (CachedAt s pathbuf (j + 1) ↔ pathbufLen pathbuf ≤ j + 2)

instance (s : Volume) (root : ℕ) (pathbuf : PathbufT) : Decidable (Clear s root pathbuf) :=
  inferInstanceAs (Decidable (∀ j < pathbufLen pathbuf, _ → ¬ _))

instance (s : Volume) (pathbuf : PathbufT) : Decidable (EndCached s pathbuf) :=
  inferInstanceAs (Decidable (∀ j < pathbufLen pathbuf, (_ ↔ _)))

theorem filter_fresh {live l : List ℕ} (hroot : root ∈ live) (hhead : l.head? = some root)
    (hfresh : ∀ i v, l[i + 1]? = some v → v ∉ live) :
    (l.filter (fun v => v ∉ live) ++ root :: held).Perm (l ++ held) := by
  cases l with
  | nil => cases hhead
  | cons a l =>
    obtain rfl : a = root := Option.some.inj hhead
    have hl : l.filter (fun v => v ∉ live) = l := by
      rw [List.filter_eq_self]
      intro v hv
      obtain ⟨i, hi⟩ := List.mem_iff_getElem?.mp hv
      simpa using hfresh i v (by rwa [List.getElem?_cons_succ])
    rw [List.filter_cons_of_neg (by simpa using hroot), hl]
    exact List.perm_middle

theorem OnWay.counted_clear (h : OnWay s t root held pathbuf ptr loaded) (hs : Counted s root held)
    (hclear : Clear s root pathbuf) : Counted t root ((loaded ++ [ptr]) ++ held) := by
  apply h.counted.perm
  apply filter_fresh hs.root_mem h.start
  intro i v hv
  have hlt := (List.getElem?_eq_some_iff.mp hv).1
  rw [List.length_append, List.length_singleton] at hlt
  have hlen := h.length
  rw [h.mem_iff hs hv]
  exact hclear i (by omega) fun j hj => h.comes j (by omega)

/-- The reference to the root that is left over when the path has at most one field. -/
def leftover (root : ℕ) (pathbuf : PathbufT) : List ℕ := if pathbufLen pathbuf ≤ 1 then [root] else []

theorem filter_ends {live way : List ℕ} {last : ℕ} (hroot : root ∈ live)
    (hhead : (way ++ [last]).head? = some root)
    (hmem : ∀ i v, (way ++ [last])[i + 1]? = some v → (v ∈ live ↔ way.length ≤ i + 2)) :
    ((way ++ [last]).filter (fun v => v ∉ live) ++ root :: held).Perm
      (way.dropLast ++ ((if way.length ≤ 1 then [root] else []) ++ held)) := by
  have hlast : last ∈ live := by
    rcases Nat.eq_zero_or_pos way.length with hz | hpos
    · rw [List.length_eq_zero_iff.mp hz] at hhead
      obtain rfl : last = root := Option.some.inj hhead
      exact hroot
    · have he : way.length - 1 + 1 = way.length := by omega
      exact (hmem (way.length - 1) last (by rw [he, List.getElem?_concat_length])).mpr (by omega)
  rw [List.filter_append, List.filter_cons_of_neg (by simpa using hlast), List.filter_nil, List.append_nil]
  rcases List.eq_nil_or_concat way with rfl | ⟨init, p, rfl⟩
  · exact List.Perm.refl _
  · rw [List.concat_eq_append] at *
    have hget : ((init ++ [p]) ++ [last])[init.length]? = some p := by
      rw [List.append_assoc, List.getElem?_append_right le_rfl, Nat.sub_self]
      rfl
    rw [List.dropLast_concat, List.filter_append]
    cases init with
    | nil =>
      obtain rfl : p = root := Option.some.inj hhead
      rw [List.nil_append, List.filter_cons_of_neg (by simpa using hroot)]
      exact List.Perm.refl _
    | cons a mid =>
      obtain rfl : a = root := Option.some.inj hhead
      have hp : p ∈ live := (hmem _ p hget).mpr (by simp)
      have hmid : mid.filter (fun v => v ∉ live) = mid := by
        rw [List.filter_eq_self]
        intro v hv
        obtain ⟨i, hi⟩ := List.mem_iff_getElem?.mp hv
        have hlt := (List.getElem?_eq_some_iff.mp hi).1
        have hnot := (hmem i v (by
          rw [List.append_assoc, List.cons_append, List.getElem?_cons_succ, List.getElem?_append_left hlt, hi])).not
        simp only [List.length_append, List.length_cons, List.length_nil] at hnot
        simpa using hnot.mpr (by omega)
      rw [List.filter_cons_of_neg (by simpa using hroot), hmid,
        List.filter_cons_of_neg (by simpa using hp), List.filter_nil, List.append_nil, if_neg (by simp)]
      exact List.perm_middle

theorem OnWay.counted_ends (h : OnWay s t root held pathbuf ptr loaded) (hs : Counted s root held)
    (hlen : loaded.length = pathbufLen pathbuf) (hends : EndCached s pathbuf) :
    Counted t root (loaded.dropLast ++ (leftover root pathbuf ++ held)) := by
  apply h.counted.perm
  unfold leftover
  rw [← hlen]
  apply filter_ends hs.root_mem h.start
  intro i v hv
  have hlt := (List.getElem?_eq_some_iff.mp hv).1
  rw [List.length_append, List.length_singleton] at hlt
  rw [h.mem_iff hs hv, hlen]
  exact hends i (by omega)

/-- The parent of an inode is the directory above it; only the root has none. -/
def Linked (s : Volume) (p : ℕ) : Prop :=
  match (s.inodes p).parent with
  | none => (s.inodes p).pathbuf.fields = []
  | some q => ∃ name, (s.inodes p).pathbuf = pathbufChild (s.inodes q).pathbuf name

/-- `fs_open` with these arguments returns an inode and the result 0. -/
def Opens (s : Volume) (root : ℕ) (pathbuf : PathbufT) (create : Bool) (dir : ℕ) : Prop :=
  Comes s root pathbuf (pathbufLen pathbuf) ∧
    if (met s root pathbuf (pathbufLen pathbuf)).isvalid % 256 = 0 then create = true
    else dir = 2 ∨ dir = if (met s root pathbuf (pathbufLen pathbuf)).type = inodeTypeDir then 1 else 0

instance (s : Volume) (root : ℕ) (pathbuf : PathbufT) (create : Bool) (dir : ℕ) :
    Decidable (Opens s root pathbuf create dir) :=
  inferInstanceAs (Decidable (_ ∧ _))

/-- What `fs_open` has left of the inodes that were cached before it. -/
structure Reached (s t : Volume) (root : ℕ) (pathbuf : PathbufT) (node : ℕ) : Prop where
  comes : Comes s root pathbuf (pathbufLen pathbuf)
  path : (t.inodes node).pathbuf = pathbuf
  linked : Linked t node
  member : node ∈ s.inodelist ↔ CachedAt s pathbuf (pathbufLen pathbuf)
  pathbufs : ∀ p ∈ s.inodelist, (t.inodes p).pathbuf = (s.inodes p).pathbuf
  parents : ∀ p ∈ s.inodelist, p ≠ node → (t.inodes p).parent = (s.inodes p).parent
  above : ∀ q, (t.inodes node).parent = some q →
    (q ∈ s.inodelist ↔ CachedAt s pathbuf (pathbufLen pathbuf - 1))

theorem OnWay.linked {v : Volume} (h : OnWay s t root held pathbuf ptr loaded)
    (hlen : loaded.length = pathbufLen pathbuf)
    (hpath : ∀ q, (v.inodes q).pathbuf = (t.inodes q).pathbuf)
    (hparent : (v.inodes ptr).parent = loaded.getLast?) : Linked v ptr := by
  have hself := h.ptr_path
  unfold Linked
  rw [hparent]
  rcases List.eq_nil_or_concat loaded with rfl | ⟨init, last, rfl⟩
  · simp only [List.getLast?_nil]
    rw [hpath, hself]
    simp [upTo]
  · rw [List.concat_eq_append] at *
    simp only [List.getLast?_append, List.getLast?_singleton, Option.some_or]
    have hlt : init.length < pathbuf.fields.length := by
      have hl : (init ++ [last]).length = pathbuf.fields.length := hlen
      rw [List.length_append, List.length_singleton] at hl
      omega
    have hlast := h.path init.length last (by
      rw [List.append_assoc, List.getElem?_append_right le_rfl, Nat.sub_self]
      rfl)
    refine ⟨pathbuf.fields[init.length], ?_⟩
    rw [hpath, hpath, hself, hlast, upTo_succ (List.getElem?_eq_getElem hlt), List.length_append,
      List.length_singleton]

theorem opens_result {v : Volume} {o : Opened} {create truncate : Bool} {dir : ℕ} {res : ℤ}
    (hagree : Agree (t.inodes o.node).toHeader (met s root pathbuf (pathbufLen pathbuf)))
    (hcomes : Comes s root pathbuf (pathbufLen pathbuf))
    (hv : (if (t.inodes o.node).isvalid % 256 = 0 then openMissing t pathbuf create dir o
      else some (openExisting t truncate dir false o)) = some (v, res)) :
    res = 0 ↔ Opens s root pathbuf create dir := by
  unfold Opens
  rw [← hagree.isvalid]
  by_cases hz : (t.inodes o.node).isvalid % 256 = 0
  · rw [if_pos hz] at hv ⊢
    unfold openMissing at hv
    cases create with
    | false =>
      simp only [Bool.false_eq_true, if_false, Option.some.injEq, Prod.mk.injEq] at hv
      simp [← hv.2, fsErrNonexisting]
    | true =>
      rw [if_pos rfl] at hv
      split at hv
      · obtain ⟨w, -, he⟩ := Option.map_eq_some_iff.mp hv
        simp only [Prod.mk.injEq] at he
        simp [← he.2, hcomes]
      · cases hv
  · rw [if_neg hz] at hv ⊢
    have hsame := hagree.eq fun h0 => hz (by rw [h0])
    have ht : (t.inodes o.node).type = (met s root pathbuf (pathbufLen pathbuf)).type :=
      congrArg Header.type hsame
    have he := congrArg Prod.snd (Option.some.inj hv)
    have hres : (if dir ≠ 2 ∧ dir ≠ (if (met s root pathbuf (pathbufLen pathbuf)).type = inodeTypeDir then 1 else 0)
        then fsErrInvalidPath else 0) = res := by
      rw [← ht]
      cases truncate
      · exact he
      · exact he
    rw [← hres]
    generalize (if (met s root pathbuf (pathbufLen pathbuf)).type = inodeTypeDir then 1 else 0) = isDir
    split_ifs with hd
    · simp only [fsErrInvalidPath]
      constructor
      · intro h
        cases h
      · rintro ⟨-, h2 | hd'⟩
        · exact absurd h2 hd.1
        · exact absurd hd' hd.2
    · rw [not_and_or, not_not, not_not] at hd
      exact iff_of_true rfl ⟨hcomes, hd⟩

/-- A call of `fs_open` that finds an inode: the references that it keeps, or that it has lost. -/
theorem fsOpen_found {create truncate : Bool} {dir : ℕ} {res : ℤ} (hs : Counted s root held)
    (hpath : Rooted pathbuf) (hroom : (s.inodes root).refs + 1 < 2 ^ 32)
    (hopen : fsOpen s pathbuf create truncate dir false = some (t, some node, res)) :
    Reached s t root pathbuf node ∧ (res = 0 ↔ Opens s root pathbuf create dir) ∧
      (Clear s root pathbuf → Counted t root (node :: ((t.inodes node).parent.toList ++ held))) ∧
      (EndCached s pathbuf → Counted t root (leftover root pathbuf ++ held)) := by
  unfold fsOpen at hopen
  split at hopen
  · cases hopen
  · cases hopen
  · rename_i w o hw
    obtain ⟨u, last, way, hleft⟩ := left_fsNodeOpen hs hpath hroom hw
    obtain ⟨hlen, rfl, rfl⟩ := hleft.found o rfl
    have h := hleft.onWay
    have hclose := closeAll_pathbuf way.dropLast.dropLast u
    have hheader := closeAll_header way.dropLast.dropLast u last
    have hcount (rest : List ℕ) (hc : Counted u root (way.dropLast.dropLast ++ rest)) :=
      counted_closeAll hc
    generalize way.dropLast.dropLast.foldl (fun s node => fsNodeClose s (some node)) u = w at *
    obtain ⟨⟨v, r⟩, hv, he⟩ := Option.map_eq_some_iff.mp hopen
    have hkept : Bookkept w v := by
      split_ifs at hv
      · exact bookkept_openMissing hv
      · have hv : (openExisting w truncate dir false ⟨last, way.getLast?, way.dropLast.getLast?⟩).1 = v :=
          congrArg Prod.fst (Option.some.inj hv)
        rw [← hv]
        exact bookkept_openExisting w truncate dir false _
    simp only [Prod.mk.injEq, Option.some.injEq] at he
    obtain ⟨rfl, rfl, rfl⟩ := he
    have hpaths (p : ℕ) : ((fsNodeClose (setInode v last fun n => { n with parent := way.getLast? })
        way.dropLast.getLast?).inodes p).pathbuf = (u.inodes p).pathbuf := by
      rw [(fsNodeClose_pathbuf _ _ p).1, ← (hclose p).1, ← hkept.pathbuf p]
      by_cases hp : p = last
      · subst hp
        rw [setInode_self]
      · rw [setInode_other _ hp]
    have hparent : ((fsNodeClose (setInode v last fun n => { n with parent := way.getLast? })
        way.dropLast.getLast?).inodes last).parent = way.getLast? := by
      rw [fsNodeClose_parent, setInode_self]
    have hagree : Agree (w.inodes last).toHeader (met s root pathbuf (pathbufLen pathbuf)) := by
      rw [hheader, ← hlen]
      exact h.agree
    have hcomes : Comes s root pathbuf (pathbufLen pathbuf) := hlen ▸ h.comes
    have hlast : (way ++ [last])[pathbufLen pathbuf]? = some last := by
      rw [← hlen, List.getElem?_concat_length]
    refine ⟨⟨hcomes, ?_, h.linked hlen hpaths hparent, h.mem_iff hs hlast, fun p hp => ?_, fun p hp hne => ?_,
      fun q hq => ?_⟩, opens_result hagree hcomes hv, fun hclear => ?_, fun hends => ?_⟩
    · rw [hpaths, h.ptr_path, hlen, upTo_len]
    · rw [hpaths, (h.kept p hp).1]
    · rw [fsNodeClose_parent, setInode_other _ hne, hkept.parent, (hclose p).2, (h.kept p hp).2]
    · rw [hparent] at hq
      have hpos : 0 < way.length := List.length_pos_iff.mpr (by
        rintro rfl
        cases hq)
      apply h.mem_iff hs
      rw [← hlen, List.getElem?_append_left (by omega), ← List.getLast?_eq_getElem?, hq]
    · rw [hparent]
      apply counted_closeOption
      have hc := (h.counted_clear hs hclear).perm
        ((List.Perm.append_right held List.perm_append_comm).trans (loaded_perm last way held))
      have hset := counted_setParent ((hcount _ hc).bookkept hkept) last way.getLast?
      apply hset.perm
      refine (List.Perm.cons last (List.perm_append_comm_assoc _ _ _)).trans ?_
      exact List.perm_middle.symm
    · apply counted_closeOption
      have hc := h.counted_ends hs hlen hends
      rw [dropLast_getLast way.dropLast, List.append_assoc] at hc
      exact counted_setParent ((hcount _ hc).bookkept hkept) last way.getLast?

/-- A call of `fs_open` whose lookup is stopped on the way. -/
theorem fsOpen_stopped {create truncate : Bool} {dir : ℕ} {res : ℤ} (hs : Counted s root held)
    (hpath : Rooted pathbuf) (hroom : (s.inodes root).refs + 1 < 2 ^ 32)
    (hopen : fsOpen s pathbuf create truncate dir false = some (t, none, res)) :
    ¬ Comes s root pathbuf (pathbufLen pathbuf) ∧ res ≠ 0 ∧
      (∀ p ∈ s.inodelist, (t.inodes p).pathbuf = (s.inodes p).pathbuf ∧
        (t.inodes p).parent = (s.inodes p).parent) ∧
      (Clear s root pathbuf → Counted t root held) := by
  unfold fsOpen at hopen
  split at hopen
  · cases hopen
  · rename_i w hw
    simp only [Option.some.injEq, Prod.mk.injEq] at hopen
    obtain ⟨rfl, -, rfl⟩ := hopen
    obtain ⟨u, last, way, hleft⟩ := left_fsNodeOpen hs hpath hroom hw
    obtain ⟨hstop, rfl⟩ := hleft.stopped rfl
    have h := hleft.onWay
    refine ⟨hstop, by decide, fun p hp => ?_, fun hclear => ?_⟩
    · obtain ⟨h1, h2⟩ := closeAll_pathbuf (way ++ [last]) u p
      exact ⟨h1.trans (h.kept p hp).1, h2.trans (h.kept p hp).2⟩
    · exact counted_closeAll (h.counted_clear hs hclear)
  · obtain ⟨⟨v, r⟩, -, he⟩ := Option.map_eq_some_iff.mp hopen
    cases he

/-- Two volumes in which every lookup meets the same. -/
structure Alike (s t : Volume) : Prop where
  mem : ∀ p, p ∈ t.inodelist ↔ p ∈ s.inodelist
  pathbuf : ∀ p ∈ s.inodelist, (t.inodes p).pathbuf = (s.inodes p).pathbuf
  header : ∀ p ∈ s.inodelist, (t.inodes p).toHeader = (s.inodes p).toHeader
  disk : t.disk = s.disk
  junk : t.junk = s.junk

theorem Counted.get_iff (h : Counted s root held) {path : PathbufT} {p : ℕ} :
    inodelistGet s path = some p ↔ p ∈ s.inodelist ∧ (s.inodes p).pathbuf = path := by
  constructor
  · intro hp
    have hcmp := List.find?_some hp
    exact ⟨List.mem_of_find?_eq_some hp, pathbufCmp_eq.mp hcmp⟩
  · rintro ⟨hp, rfl⟩
    obtain ⟨q, hq⟩ : ∃ q, inodelistGet s (s.inodes p).pathbuf = some q :=
      Option.isSome_iff_exists.mp (List.find?_isSome.mpr ⟨p, hp, pathbufCmp_eq.mpr rfl⟩)
    have hcmp := List.find?_some hq
    rw [hq, h.distinct q (List.mem_of_find?_eq_some hq) p hp (pathbufCmp_eq.mp hcmp)]

section alike

variable {held' : List ℕ} (h : Alike s t) (hs : Counted s root held) (ht : Counted t root held')

include h hs ht

theorem Alike.get (path : PathbufT) : inodelistGet t path = inodelistGet s path := by
  apply Option.ext
  intro p
  rw [ht.get_iff, hs.get_iff, h.mem]
  constructor
  · rintro ⟨hp, he⟩
    exact ⟨hp, (h.pathbuf p hp).symm.trans he⟩
  · rintro ⟨hp, he⟩
    exact ⟨hp, (h.pathbuf p hp).trans he⟩

theorem Alike.cachedAt (path : PathbufT) (k : ℕ) : CachedAt t path k ↔ CachedAt s path k := by
  unfold CachedAt
  rw [h.get hs ht]

theorem Alike.met (path : PathbufT) (k : ℕ) : met t root path k = met s root path k := by
  induction k with
  | zero => exact h.header root hs.root_mem
  | succ k ih =>
    unfold Fs.met
    rw [h.get hs ht, ih]
    cases hget : inodelistGet s (upTo path (k + 1)) with
    | some child => exact h.header child (hs.get_iff.mp hget).1
    | none =>
      cases path.fields[k]? with
      | none => rfl
      | some name =>
        have hi : childIndex t (Fs.met s root path k) name = childIndex s (Fs.met s root path k) name := by
          unfold childIndex
          rw [inodeRead_congr h.disk h.junk rfl]
        simp only [hi, h.disk]

theorem Alike.comes (path : PathbufT) (k : ℕ) : Comes t root path k ↔ Comes s root path k := by
  unfold Comes Stops
  simp only [h.met hs ht]

theorem Alike.clear (path : PathbufT) : Clear t root path ↔ Clear s root path := by
  unfold Clear
  simp only [h.comes hs ht, h.cachedAt hs ht]

theorem Alike.endCached (path : PathbufT) : EndCached t path ↔ EndCached s path := by
  unfold EndCached
  simp only [h.cachedAt hs ht]

end alike

theorem fsNodeClose_junk (s : Volume) (node : Option ℕ) : (fsNodeClose s node).junk = s.junk := by
  cases node with
  | none => rfl
  | some node =>
    unfold fsNodeClose
    simp only
    split_ifs <;> rfl

theorem closeAll_junk (nodes : List ℕ) (s : Volume) :
    (nodes.foldl (fun s node => fsNodeClose s (some node)) s).junk = s.junk := by
  induction nodes generalizing s with
  | nil => rfl
  | cons node nodes ih => rw [List.foldl_cons, ih, fsNodeClose_junk]

/-- A call that neither creates nor truncates changes nothing that later lookups see, when it leaves the
same inodes cached. -/
theorem fsOpen_alike {held' : List ℕ} {dir : ℕ} {o : Option ℕ} {res : ℤ} (hs : Counted s root held)
    (hpath : Rooted pathbuf) (hroom : (s.inodes root).refs + 1 < 2 ^ 32)
    (hopen : fsOpen s pathbuf false false dir false = some (t, o, res)) (ht : Counted t root held')
    (hsame : ∀ p, p ∈ root :: held' ↔ p ∈ root :: held) : Alike s t := by
  have hmem (p : ℕ) : p ∈ t.inodelist ↔ p ∈ s.inodelist :=
    ⟨fun hp => hs.mem ((hsame p).mp (ht.needed p hp)), fun hp => ht.mem ((hsame p).mpr (hs.needed p hp))⟩
  have hquiet : Quiet s t ∧ t.junk = s.junk := by
    unfold fsOpen at hopen
    split at hopen
    · cases hopen
    · rename_i w hw
      obtain ⟨u, last, way, hleft⟩ := left_fsNodeOpen hs hpath hroom hw
      simp only [Option.some.injEq, Prod.mk.injEq] at hopen
      obtain ⟨rfl, -, -⟩ := hopen
      refine ⟨quiet_fsNodeOpen hw, ?_⟩
      rw [(hleft.stopped rfl).2, closeAll_junk, hleft.onWay.junk]
    · rename_i w o hw
      obtain ⟨u, last, way, hleft⟩ := left_fsNodeOpen hs hpath hroom hw
      obtain ⟨⟨v, r⟩, hv, he⟩ := Option.map_eq_some_iff.mp hopen
      have hvw : v = w := by
        split_ifs at hv
        · simp only [openMissing, Bool.false_eq_true, if_false, Option.some.injEq, Prod.mk.injEq] at hv
          exact hv.1.symm
        · simp only [openExisting, Bool.false_eq_true, if_false, Option.some.injEq, Prod.mk.injEq] at hv
          exact hv.1.symm
      subst hvw
      simp only [Prod.mk.injEq] at he
      obtain ⟨rfl, -, -⟩ := he
      constructor
      · refine (quiet_fsNodeOpen hw).trans (Quiet.trans ?_ (quiet_fsNodeClose _ _))
        exact ⟨rfl, rfl, le_rfl, fun p _ => setInode_header rfl p⟩
      · obtain ⟨-, -, hclosed⟩ := hleft.found o rfl
        rw [fsNodeClose_junk]
        change v.junk = s.junk
        rw [hclosed, closeAll_junk, hleft.onWay.junk]
  refine ⟨hmem, fun p hp => ?_, fun p hp => hquiet.1.header p (hs.lt hp), hquiet.1.disk, hquiet.2⟩
  cases o with
  | none => exact ((fsOpen_stopped hs hpath hroom hopen).2.2.1 p hp).1
  | some node => exact (fsOpen_found hs hpath hroom hopen).1.pathbufs p hp

end Eedox.Fs
