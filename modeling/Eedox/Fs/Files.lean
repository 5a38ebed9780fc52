import Eedox.CachedPaths
import Eedox.Fs.LayoutSteps
import Eedox.Fs.Lookup
import Eedox.Fs.RootRestart

namespace Eedox.Fs

open Util Library.Bytes Ata Pathbuf Childtable

/-- What a path leads to, for the programs that use the file system. -/
inductive Node
  | dir
  | file (bytes : List UInt8)
deriving DecidableEq

abbrev Files := List Str → Option Node

def Node.entry : Node → Entry
  | .dir => ⟨1, inodeTypeDir, []⟩
  | .file bytes => ⟨1, inodeTypeFile, bytes⟩

/-- The volume stores these files, and every cached inode of a path that leads nowhere is marked so. -/
structure Stores (s : Volume) (A : Image) (F : Files) : Prop where
  layout : Layout s A
  shows : ∀ p, entries A p = (F p).map Node.entry
  absent : ∀ c ∈ s.inodelist, F (fields s c) = none → (s.inodes c).isvalid = 0
  rooted : ∀ c ∈ s.inodelist, Rooted (s.inodes c).pathbuf
  saved : Saved s

variable {s t : Volume} {A : Image} {F : Files} {p : List Str}

theorem Stores.none_iff (h : Stores s A F) : F p = none ↔ A p = none := by
  have hp := h.shows p
  unfold entries at hp
  cases hA : A p <;> cases hF : F p <;> simp_all

theorem Stores.extent {n : Node} (h : Stores s A F) (hn : F p = some n) :
    ∃ o, A p = some o ∧ o.entry = n.entry := by
  have hp := h.shows p
  rw [hn, Option.map_some] at hp
  exact Option.map_eq_some_iff.mp hp

theorem Stores.node {o : Extent} (h : Stores s A F) (ho : A p = some o) :
    ∃ n, F p = some n ∧ o.entry = n.entry := by
  have hp := h.shows p
  rw [entries, ho, Option.map_some] at hp
  obtain ⟨n, hn, he⟩ := Option.map_eq_some_iff.mp hp.symm
  exact ⟨n, hn, he.symm⟩

theorem entry_file {o : Extent} {bytes : List UInt8} (h : o.entry = (Node.file bytes).entry) :
    o.header.isvalid = 1 ∧ o.header.type = inodeTypeFile ∧ o.bytes = bytes := by
  obtain ⟨hv, ht, hb⟩ := Entry.mk.inj h
  rw [ht, if_neg (by decide)] at hb
  exact ⟨hv, ht, hb⟩

theorem entry_dir {o : Extent} (h : o.entry = Node.dir.entry) :
    o.header.isvalid = 1 ∧ o.header.type = inodeTypeDir := by
  obtain ⟨hv, ht, -⟩ := Entry.mk.inj h
  exact ⟨hv, ht⟩

theorem Stores.isDir_iff (h : Stores s A F) : IsDir A p ↔ F p = some .dir := by
  constructor
  · rintro ⟨o, ho, hd⟩
    obtain ⟨n, hn, he⟩ := h.node ho
    cases n with
    | dir => exact hn
    | file bytes =>
      rw [(entry_file he).2.1] at hd
      exact absurd hd (by decide)
  · intro hd
    obtain ⟨o, ho, he⟩ := h.extent hd
    exact ⟨o, ho, (entry_dir he).2⟩

theorem Stores.rootDir (h : Stores s A F) : F [] = some .dir := by
  obtain ⟨o, ho, hd, -⟩ := h.layout.tree.root
  exact h.isDir_iff.mp ⟨o, ho, hd⟩

/-- Only directories have something below them. -/
theorem Stores.above {name : Str} (h : Stores s A F) (hn : F (p ++ [name]) ≠ none) : F p = some .dir := by
  obtain ⟨n, hn⟩ := Option.ne_none_iff_exists'.mp hn
  obtain ⟨o, ho, -⟩ := h.extent hn
  exact h.isDir_iff.mp (h.layout.tree.parents p name o ho)

/-- A cached inode has the header that its path leads to. -/
theorem Stores.valid_iff {c : ℕ} (h : Stores s A F) (hc : c ∈ s.inodelist) :
    (s.inodes c).isvalid = 0 ↔ F (fields s c) = none := by
  refine ⟨fun hv => ?_, h.absent c hc⟩
  rcases hF : F (fields s c) with _ | n
  · rfl
  · obtain ⟨o, ho, he⟩ := h.extent hF
    have hn := congrArg Header.isvalid (h.layout.cached.agree c hc o ho)
    have hone : o.header.isvalid = 1 := by
      cases n with
      | dir => exact (entry_dir he).1
      | file bytes => exact (entry_file he).1
    rw [hv, hone] at hn
    cases hn

theorem Stores.type {c : ℕ} {n : Node} (h : Stores s A F) (hc : c ∈ s.inodelist)
    (hn : F (fields s c) = some n) :
    (s.inodes c).isvalid = 1 ∧ (s.inodes c).type = if n = .dir then inodeTypeDir else inodeTypeFile := by
  obtain ⟨o, ho, he⟩ := h.extent hn
  have hagree := h.layout.cached.agree c hc o ho
  have hv : (s.inodes c).isvalid = o.header.isvalid := congrArg Header.isvalid hagree
  have ht : (s.inodes c).type = o.header.type := congrArg Header.type hagree
  rw [hv, ht]
  cases n with
  | dir =>
    rw [if_pos rfl]
    exact entry_dir he
  | file bytes =>
    rw [if_neg (by simp)]
    exact ⟨(entry_file he).1, (entry_file he).2.1⟩

/-- What leaves the disk and the headers and paths of the cached inodes alone changes nothing. -/
theorem Stores.keep (h : Stores s A F) (hd : t.disk = s.disk) (hp : t.ballocPtr = s.ballocPtr)
    (hl : ∀ c ∈ t.inodelist, c ∈ s.inodelist)
    (hh : ∀ c ∈ t.inodelist, (t.inodes c).toHeader = (s.inodes c).toHeader)
    (hpath : ∀ c ∈ t.inodelist, (t.inodes c).pathbuf = (s.inodes c).pathbuf) : Stores t A F := by
  refine ⟨⟨?_, ?_, ⟨fun c hc c' hc' he => ?_, fun c hc o ho => ?_⟩⟩, h.shows, fun c hc hF => ?_,
    fun c hc => ?_, h.saved.congr (by rw [hd]) hp⟩
  · rw [hd, hp]
    exact h.layout.holds
  · rw [hd]
    exact h.layout.tree
  · rw [hpath c hc, hpath c' hc'] at he
    exact h.layout.cached.unique c (hl c hc) c' (hl c' hc') he
  · rw [hpath c hc] at ho
    rw [hh c hc]
    exact h.layout.cached.agree c (hl c hc) o ho
  · rw [fields, hpath c hc] at hF
    have hv := congrArg Header.isvalid (hh c hc)
    rw [hv]
    exact h.absent c (hl c hc) hF
  · rw [hpath c hc]
    exact h.rooted c (hl c hc)

/-- What sets one entry of the layout sets one file. -/
theorem Stores.set {node : ℕ} {n : Node} (h : Stores s A F) (hset : Sets s t A (fields s node) n.entry)
    (hb : Bookkept s t) : ∃ B, Stores t B (Function.update F (fields s node) (some n)) := by
  obtain ⟨B, hB, hBe, hBs, hBv⟩ := hset
  refine ⟨B, hB, fun p => ?_, fun c hc hF => ?_, fun c hc => ?_, hBs h.saved⟩
  · rw [hBe]
    by_cases hp : p = fields s node
    · subst hp
      rw [Function.update_self, Function.update_self]
      rfl
    · rw [Function.update_of_ne hp, Function.update_of_ne hp, h.shows]
  · have hpath : fields t c = fields s c := by rw [fields, hb.pathbuf]
    rw [hpath] at hF
    have hne : fields s c ≠ fields s node := by
      intro he
      rw [he, Function.update_self] at hF
      cases hF
    rw [Function.update_of_ne hne] at hF
    rw [hBv c hne]
    exact h.absent c (hb.inodelist ▸ hc) hF
  · rw [hb.pathbuf]
    exact h.rooted c (hb.inodelist ▸ hc)

theorem fsNodeClose_ballocPtr (s : Volume) (node : Option ℕ) : (fsNodeClose s node).ballocPtr = s.ballocPtr := by
  cases node with
  | none => rfl
  | some node =>
    unfold fsNodeClose
    simp only
    split_ifs <;> rfl

theorem Stores.closed (h : Stores s A F) (node : Option ℕ) : Stores (fsNodeClose s node) A F := by
  have htrim := CachedPaths.trimmed_fsNodeClose s node
  apply h.keep (fsNodeClose_disk s node) (fsNodeClose_ballocPtr s node)
  · exact fun c hc => htrim.inodelist.subset hc
  · exact fun c _ => fsNodeClose_header s node c
  · exact fun c _ => htrim.pathbuf c

theorem childtableGet_absent {rs : List (Str × ℕ)} {name : Str} (sectors : ℕ)
    (h : name ∉ rs.map Prod.fst) : childtableGet ⟨encode rs, sectors⟩ name = 0 := by
  have hf := childtableFind_absent [] h
  simp only [List.nil_append, List.length_nil] at hf
  simp only [childtableGet, hf]

/-- `inode_child` finds what the path of the child leads to. -/
theorem Stores.finds {u : Volume} {ptr : ℕ} {n : InodeT} (name : Str) (h : Stores s A F)
    (hmem : ptr ∈ s.inodelist) (hdir : F (fields s ptr) = some .dir) (hd : u.disk = s.disk)
    (hn : n.toHeader = (s.inodes ptr).toHeader) (buffer : InodeT) :
    match A (fields s ptr ++ [name]) with
    | some o => (inodeChild u n name buffer).toHeader = o.header
    | none => (inodeChild u n name buffer).isvalid = 0 := by
  obtain ⟨o, ho, he⟩ := h.extent hdir
  have hagree := h.layout.cached.agree ptr hmem o ho
  have hno : n.toHeader = o.header := hn.trans hagree
  have hindex : n.index = o.header.index := congrArg Header.index hno
  have hsize : n.size = o.header.size := congrArg Header.size hno
  have hread : inodeRead u n 0 n.size = o.bytes := by
    rw [inodeRead_all (by rw [hno]; exact h.layout.holds.fits ho), hd, hindex, hsize]
    exact h.layout.holds.bytes _ o ho
  obtain ⟨rs, hrs, hnodup, -, hmem⟩ := h.layout.tree.dirs _ o ho (entry_dir he).2
  unfold inodeChild
  rw [hread, hrs]
  rcases hA : A (fields s ptr ++ [name]) with _ | k
  · have hnone : name ∉ rs.map Prod.fst := by
      intro hm
      obtain ⟨⟨m, i⟩, hmi, rfl⟩ := List.mem_map.mp hm
      obtain ⟨k, hk, -⟩ := (hmem m i).mp hmi
      rw [hA] at hk
      cases hk
    simp only [childtableGet_absent n.alloc hnone, ne_eq, not_true_eq_false, if_false]
  · have hk := (hmem name k.header.index).mpr ⟨k, hA, rfl⟩
    have hs := h.layout.holds.start _ k hA
    have hb := h.layout.holds.below _ k hA
    have hl := h.layout.holds.limit
    have hget := childtableGet_mem n.alloc hnodup hk
    rw [Nat.mod_eq_of_lt (by omega)] at hget
    have hne : k.header.index ≠ 0 := by omega
    simp only [hget, hne, ne_eq, not_false_eq_true, if_true, hd]
    exact h.layout.holds.header _ k hA

theorem fsNodeChild_quiet {ptr : ℕ} {name : Str}
    (hget : inodelistGet s (pathbufChild (s.inodes ptr).pathbuf name) = none) :
    (fsNodeChild s ptr name).1.disk = s.disk ∧ (fsNodeChild s ptr name).1.ballocPtr = s.ballocPtr := by
  rw [fsNodeChild_new hget]
  exact ⟨rfl, rfl⟩

theorem rooted_eq {a b : PathbufT} (ha : Rooted a) (hb : Rooted b) (h : a.fields = b.fields) : a = b := by
  obtain ⟨fs, isAbsolute, back⟩ := a
  obtain ⟨gs, isAbsolute', back'⟩ := b
  obtain ⟨rfl, rfl⟩ := ha
  obtain ⟨rfl, rfl⟩ := hb
  obtain rfl := h
  rfl

/-- Loading a child of a directory into the cache. -/
theorem Stores.child {root ptr : ℕ} {held : List ℕ} {name : Str} (h : Stores s A F) (hs : Counted s root held)
    (hmem : ptr ∈ s.inodelist) (hdir : F (fields s ptr) = some .dir)
    (hget : inodelistGet s (pathbufChild (s.inodes ptr).pathbuf name) = none) :
    Stores (fsNodeChild s ptr name).1 A F := by
  obtain ⟨-, hlist, hchild, hother⟩ := counted_newChild hs hget
  obtain ⟨hdisk, hballoc⟩ := fsNodeChild_quiet hget
  have hpath := fsNodeChild_path s ptr name
  have hptr : ptr ≠ s.nextInode := (hs.lt hmem).ne
  have hfound := h.finds (u := inodeNew s (pathbufChild (s.inodes ptr).pathbuf name)) name
    (n := (inodeNew s (pathbufChild (s.inodes ptr).pathbuf name)).inodes ptr)
    hmem hdir rfl (by rw [inodeNew_other hptr]) ((inodeNew s (pathbufChild (s.inodes ptr).pathbuf name)).inodes s.nextInode)
  have hself : (fsNodeChild s ptr name).1.inodes s.nextInode =
      inodeChild (inodeNew s (pathbufChild (s.inodes ptr).pathbuf name))
        ((inodeNew s (pathbufChild (s.inodes ptr).pathbuf name)).inodes ptr) name
        ((inodeNew s (pathbufChild (s.inodes ptr).pathbuf name)).inodes s.nextInode) := by
    rw [fsNodeChild_new hget]
    exact setInode_self _ _ _
  rw [← hself] at hfound
  rw [hchild] at hpath hlist
  generalize (fsNodeChild s ptr name).1 = t at *
  have hfields : fields t s.nextInode = fields s ptr ++ [name] := by
    rw [fields, hpath]
    rfl
  have hkept (c : ℕ) (hne : c ≠ s.nextInode) : fields t c = fields s c := by rw [fields, hother c hne]
  have hmem' (c : ℕ) (hc : c ∈ t.inodelist) : c = s.nextInode ∨ c ≠ s.nextInode ∧ c ∈ s.inodelist := by
    rw [hlist] at hc
    rcases List.mem_append.mp hc with hc | hc
    · exact Or.inr ⟨(hs.lt hc).ne, hc⟩
    · exact Or.inl (List.mem_singleton.mp hc)
  have hfresh (c : ℕ) (hc : c ∈ s.inodelist) : fields s c ≠ fields s ptr ++ [name] := by
    intro he
    have hcr := h.rooted c hc
    have hpr : Rooted (pathbufChild (s.inodes ptr).pathbuf name) := h.rooted ptr hmem
    refine List.find?_eq_none.mp hget c hc (pathbufCmp_eq.mpr ?_)
    exact rooted_eq hcr hpr he
  refine ⟨⟨?_, ?_, ⟨fun c hc c' hc' he => ?_, fun c hc o ho => ?_⟩⟩, h.shows, fun c hc hF => ?_,
    fun c hc => ?_, h.saved.congr (by rw [hdisk]) hballoc⟩
  · rw [hdisk, hballoc]
    exact h.layout.holds
  · rw [hdisk]
    exact h.layout.tree
  · change fields t c = fields t c' at he
    rcases hmem' c hc with rfl | ⟨hne, hc⟩
    · rcases hmem' c' hc' with rfl | ⟨hne', hc'⟩
      · rfl
      · rw [hfields, hkept c' hne'] at he
        exact absurd he.symm (hfresh c' hc')
    · rcases hmem' c' hc' with rfl | ⟨hne', hc'⟩
      · rw [hfields, hkept c hne] at he
        exact absurd he (hfresh c hc)
      · rw [hkept c hne, hkept c' hne'] at he
        exact h.layout.cached.unique c hc c' hc' he
  · change A (fields t c) = some o at ho
    rcases hmem' c hc with rfl | ⟨hne, hc⟩
    · rw [hfields] at ho
      rw [ho] at hfound
      exact hfound
    · rw [hkept c hne] at ho
      rw [hother c hne]
      exact h.layout.cached.agree c hc o ho
  · rcases hmem' c hc with rfl | ⟨hne, hc⟩
    · rw [hfields, h.none_iff] at hF
      rw [hF] at hfound
      exact hfound
    · rw [hkept c hne] at hF
      rw [hother c hne]
      exact h.absent c hc hF
  · rcases hmem' c hc with rfl | ⟨hne, hc⟩
    · rw [hpath]
      exact h.rooted ptr hmem
    · rw [hother c hne]
      exact h.rooted c hc

end Eedox.Fs
