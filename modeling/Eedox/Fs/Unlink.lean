import Eedox.Fs.LayoutSteps
import Eedox.Fs.FailingOpen
import Mathlib.Data.List.Induction

namespace Eedox.Fs

open Util Library.Bytes Ata Pathbuf Childtable

/-- A volume with this layout whose inode list starts with the root directory. -/
structure Mounted (s : Volume) (A : Image) (root : ℕ) : Prop where
  layout : Layout s A
  first : s.inodelist.head? = some root
  rootPath : (s.inodes root).pathbuf = pathbufRoot
  allocated : Allocated s
  rooted : ∀ c ∈ s.inodelist, Rooted (s.inodes c).pathbuf

variable {s t : Volume} {A : Image} {root : ℕ}

theorem Tree.above {start : ℕ} {p : List Str} {o : Extent} (h : Tree start A) (ho : A p = some o) (k : ℕ) :
    ∃ o', A (p.take k) = some o' := by
  induction p using List.reverseRecOn generalizing o with
  | nil => exact ⟨o, by rw [List.take_nil, ho]⟩
  | append_singleton q n ih =>
    rcases Nat.lt_or_ge q.length k with hk | hk
    · exact ⟨o, by rw [List.take_of_length_le (by rw [List.length_append]; exact hk), ho]⟩
    · obtain ⟨oq, hq, -⟩ := h.parents q n o ho
      rw [List.take_append_of_le_length hk]
      exact ih hq

theorem Holds.table {p : List Str} {o : Extent} {n : InodeT} (h : Holds s.disk s.ballocPtr A)
    (ho : A p = some o) (hn : n.toHeader = o.header) : inodeRead s n 0 n.size = o.bytes := by
  have hf : Fits n.toHeader := by
    rw [hn]
    exact h.fits ho
  have hi : n.index = o.header.index := congrArg Header.index hn
  have hs : n.size = o.header.size := congrArg Header.size hn
  rw [inodeRead_all hf, hi, hs, h.bytes p o ho]

/-- A lookup in the directory that holds the header of a path finds the header of each child. -/
theorem Layout.lookup {q : List Str} {name : Str} {o k : Extent} {n : InodeT} (h : Layout s A)
    (ho : A q = some o) (hn : n.toHeader = o.header) (hk : A (q ++ [name]) = some k) (buffer : InodeT) :
    inodeChild s n name buffer = { buffer with toHeader := k.header } := by
  obtain ⟨o', ho', hdir⟩ := h.tree.parents q name k hk
  obtain rfl : o' = o := Option.some.inj (ho'.symm.trans ho)
  obtain ⟨rs, hbytes, hnodup, -, hrs⟩ := h.tree.dirs q o' ho' hdir
  have hmem := (hrs name k.header.index).mpr ⟨k, hk, rfl⟩
  have hget : childtableGet ⟨inodeRead s n 0 n.size, n.alloc⟩ name = k.header.index := by
    rw [h.holds.table ho' hn, hbytes, childtableGet_mem n.alloc hnodup hmem,
      Nat.mod_eq_of_lt (h.holds.words hk).index]
  have hpos := h.holds.start _ k hk
  rw [inodeChild]
  simp only [hget]
  rw [if_pos (by omega), h.holds.header _ k hk]

/-- An inode joins the list with the header that the image has for its path. -/
structure Joined (s t : Volume) (path : PathbufT) (header : Header) : Prop where
  inodelist : t.inodelist = s.inodelist ++ [s.nextInode]
  next : t.nextInode = s.nextInode + 1
  disk : t.disk = s.disk
  ballocPtr : t.ballocPtr = s.ballocPtr
  path : (t.inodes s.nextInode).pathbuf = path
  header : (t.inodes s.nextInode).toHeader = header
  kept : ∀ p, p ≠ s.nextInode → t.inodes p = s.inodes p

theorem Mounted.joined {path : PathbufT} {k : Extent} (h : Mounted s A root)
    (hj : Joined s t path k.header) (hk : A path.fields = some k) (hpath : Rooted path)
    (hget : inodelistGet s path = none) : Mounted t A root := by
  have hkept (p : ℕ) (hp : p ∈ s.inodelist) : t.inodes p = s.inodes p :=
    hj.kept p (h.allocated p hp).ne
  have hcases (p : ℕ) (hp : p ∈ t.inodelist) : p ∈ s.inodelist ∨ p = s.nextInode := by
    rw [hj.inodelist] at hp
    exact (List.mem_append.mp hp).imp_right List.mem_singleton.mp
  have habsent (p : ℕ) (hp : p ∈ s.inodelist) : (s.inodes p).pathbuf.fields ≠ path.fields := by
    intro he
    apply List.find?_eq_none.mp hget p hp
    have hp' := h.rooted p hp
    exact (pathbufCmp_iff _ _).mpr ⟨he, hp'.1.trans hpath.1.symm, hp'.2.trans hpath.2.symm⟩
  refine ⟨⟨?_, ?_, ⟨?_, ?_⟩⟩, ?_, ?_, ?_, ?_⟩
  · rw [hj.disk, hj.ballocPtr]
    exact h.layout.holds
  · rw [hj.disk]
    exact h.layout.tree
  · intro c hc c' hc' he
    rcases hcases c hc with hc | rfl <;> rcases hcases c' hc' with hc' | rfl
    · rw [hkept c hc, hkept c' hc'] at he
      exact h.layout.cached.unique c hc c' hc' he
    · rw [hkept c hc, hj.path] at he
      exact absurd he (habsent c hc)
    · rw [hkept c' hc', hj.path] at he
      exact absurd he.symm (habsent c' hc')
    · rfl
  · intro c hc o ho
    rcases hcases c hc with hc | rfl
    · rw [hkept c hc] at ho ⊢
      exact h.layout.cached.agree c hc o ho
    · rw [hj.path] at ho
      rw [hj.header, Option.some.inj (hk.symm.trans ho)]
  · rw [hj.inodelist, List.head?_append, h.first]
    rfl
  · rw [hkept root (List.mem_of_mem_head? h.first)]
    exact h.rootPath
  · intro p hp
    rw [hj.next]
    rcases hcases p hp with hp | rfl
    · exact (h.allocated p hp).trans (Nat.lt_succ_self _)
    · exact Nat.lt_succ_self _
  · intro p hp
    rcases hcases p hp with hp | rfl
    · rw [hkept p hp]
      exact h.rooted p hp
    · rw [hj.path]
      exact hpath

structure Looked (s t : Volume) (ptr : ℕ) (name : Str) (child : ℕ) : Prop where
  mem : child ∈ t.inodelist
  path : (t.inodes child).pathbuf = pathbufChild (s.inodes ptr).pathbuf name
  listed : ∀ p ∈ s.inodelist, p ∈ t.inodelist
  kept : ∀ p ∈ s.inodelist, t.inodes p = s.inodes p

/-- Looking a child up keeps the layout, whether the child is cached or has to be fetched. -/
theorem Mounted.child {ptr : ℕ} {name : Str} (h : Mounted s A root) (hptr : ptr ∈ s.inodelist)
    (hk : ∃ k, A (fields s ptr ++ [name]) = some k) :
    Mounted (fsNodeChild s ptr name).1 A root ∧
      Looked s (fsNodeChild s ptr name).1 ptr name (fsNodeChild s ptr name).2 := by
  obtain ⟨k, hk⟩ := hk
  unfold fsNodeChild
  simp only
  rcases hget : inodelistGet s (pathbufChild (s.inodes ptr).pathbuf name) with _ | child
  · -- The child is not cached: its inode is new, and its header comes from the directory.
    obtain ⟨o, ho, -⟩ := h.layout.tree.parents _ _ k hk
    have hfetch := h.layout.lookup ho (h.layout.cached.agree ptr hptr o ho) hk
      ((inodeNew s (pathbufChild (s.inodes ptr).pathbuf name)).inodes s.nextInode)
    have hptrn : (inodeNew s (pathbufChild (s.inodes ptr).pathbuf name)).inodes ptr = s.inodes ptr :=
      inodeNew_other (h.allocated ptr hptr).ne
    simp only
    generalize hu : setInode (inodeNew s (pathbufChild (s.inodes ptr).pathbuf name)) s.nextInode
      (inodeChild (inodeNew s (pathbufChild (s.inodes ptr).pathbuf name))
        ((inodeNew s (pathbufChild (s.inodes ptr).pathbuf name)).inodes ptr) name) = u
    have hself : u.inodes s.nextInode = { (inodeNew s (pathbufChild (s.inodes ptr).pathbuf name)).inodes
        s.nextInode with toHeader := k.header } := by
      rw [← hu, setInode_self, hptrn]
      exact hfetch
    have hj : Joined s u (pathbufChild (s.inodes ptr).pathbuf name) k.header := by
      refine ⟨?_, ?_, ?_, ?_, ?_, ?_, fun p hp => ?_⟩
      · rw [← hu]
        rfl
      · rw [← hu]
        rfl
      · rw [← hu]
        rfl
      · rw [← hu]
        rfl
      · rw [hself]
        simp [inodeNew]
      · rw [hself]
      · rw [← hu, setInode_other _ hp, inodeNew_other hp]
    refine ⟨h.joined hj hk (h.rooted ptr hptr) hget, ⟨?_, hj.path, fun p hp => ?_, fun p hp => ?_⟩⟩
    · rw [hj.inodelist]
      exact List.mem_append_right _ List.mem_cons_self
    · rw [hj.inodelist]
      exact List.mem_append_left _ hp
    · exact hj.kept p (h.allocated p hp).ne
  · have hcmp : pathbufCmp (s.inodes child).pathbuf (pathbufChild (s.inodes ptr).pathbuf name) = true := by
      simpa using List.find?_some hget
    exact ⟨h, ⟨List.mem_of_find?_eq_some hget, pathbufCmp_eq.mp hcmp, fun _ hp => hp, fun _ _ => rfl⟩⟩

/-- The walk towards `pathbuf` has loaded the inodes of the shorter paths and is at `ptr`. -/
structure Walking (s : Volume) (A : Image) (root : ℕ) (pathbuf : PathbufT) (ptr : ℕ) (loaded : List ℕ) :
    Prop where
  mounted : Mounted s A root
  mem : ptr ∈ s.inodelist
  path : fields s ptr = pathbuf.fields.take loaded.length
  length : loaded.length ≤ pathbuf.fields.length
  last : ∀ p, loaded.getLast? = some p →
    p ∈ s.inodelist ∧ fields s p = pathbuf.fields.take (loaded.length - 1)

theorem Walking.child {pathbuf : PathbufT} {ptr : ℕ} {loaded : List ℕ} {o : Extent} {name : Str}
    (h : Walking s A root pathbuf ptr loaded) (ho : A pathbuf.fields = some o)
    (hname : pathbuf.fields[pathbufLen (s.inodes ptr).pathbuf]? = some name) :
    Walking (fsNodeChild s ptr name).1 A root pathbuf (fsNodeChild s ptr name).2 (loaded ++ [ptr]) := by
  have hlen : pathbufLen (s.inodes ptr).pathbuf = loaded.length := by
    have hp := congrArg List.length h.path
    rw [List.length_take, min_eq_left h.length] at hp
    exact hp
  rw [hlen] at hname
  have htake : pathbuf.fields.take (loaded.length + 1) = fields s ptr ++ [name] := by
    rw [List.take_add_one, hname, h.path]
    rfl
  obtain ⟨hlt, -⟩ := List.getElem?_eq_some_iff.mp hname
  have hk := h.mounted.layout.tree.above ho (loaded.length + 1)
  rw [htake] at hk
  obtain ⟨hm, hl⟩ := h.mounted.child h.mem hk
  refine ⟨hm, hl.mem, ?_, ?_, fun p hp => ?_⟩
  · rw [List.length_append, List.length_singleton, htake, fields, hl.path]
    rfl
  · rw [List.length_append, List.length_singleton]
    exact hlt
  · rw [List.getLast?_append, List.getLast?_singleton] at hp
    obtain rfl : ptr = p := Option.some.inj hp
    refine ⟨hl.listed ptr h.mem, ?_⟩
    rw [fields, hl.kept ptr h.mem, List.length_append, List.length_singleton, Nat.add_sub_cancel]
    exact h.path

theorem walking_walk {pathbuf : PathbufT} {fuel : ℕ} {ptr : ℕ} {loaded nodes : List ℕ} {node : ℕ}
    {o : Extent} (h : Walking s A root pathbuf ptr loaded) (ho : A pathbuf.fields = some o)
    (hw : walk pathbuf fuel s ptr loaded = some (t, node, nodes, true)) :
    Walking t A root pathbuf node nodes ∧ (t.inodes node).pathbuf = pathbuf := by
  induction fuel generalizing s ptr loaded with
  | zero => cases hw
  | succ fuel ih =>
    unfold walk at hw
    split_ifs at hw with hcmp hv hf
    · simp only [Option.some.injEq, Prod.mk.injEq, and_true] at hw
      obtain ⟨rfl, rfl, rfl⟩ := hw
      exact ⟨h, pathbufCmp_eq.mp hcmp⟩
    · simp at hw
    · simp at hw
    · split at hw
      · cases hw
      · rename_i name hname
        exact ih (h.child ho hname) hw

theorem Mounted.counted (h : Mounted s A root) (node : ℕ) : Mounted
    (setInode s node fun n => { n with refs := (n.refs + 1) % 2 ^ 32 }) A root := by
  have hpath (p : ℕ) : ((setInode s node fun n => { n with refs := (n.refs + 1) % 2 ^ 32 }).inodes
      p).pathbuf = (s.inodes p).pathbuf := by
    by_cases hp : p = node
    · subst hp
      rw [setInode_self]
    · rw [setInode_other _ hp]
  refine ⟨⟨h.layout.holds, h.layout.tree, ⟨fun c hc c' hc' he => ?_, fun c hc o ho => ?_⟩⟩, h.first,
    (hpath root).trans h.rootPath, h.allocated, fun c hc => ?_⟩
  · rw [hpath, hpath] at he
    exact h.layout.cached.unique c hc c' hc' he
  · rw [hpath] at ho
    exact (setInode_header rfl c).trans (h.layout.cached.agree c hc o ho)
  · rw [hpath]
    exact h.rooted c hc

/-- Opening a path of the image leads to its inode and to the inode of the directory above it. -/
theorem Mounted.opened {w : Volume} {pathbuf : PathbufT} {o : Opened} {q : List Str} {name : Str}
    {e d : Extent} (h : Mounted s A root) (hpath : pathbuf.fields = q ++ [name])
    (he : A (q ++ [name]) = some e) (hd : A q = some d)
    (hopen : fsNodeOpen s pathbuf = some (w, some o)) :
    ∃ par, o.parent = some par ∧ (w.inodes o.node).toHeader = e.header ∧
      (w.inodes par).toHeader = d.header := by
  unfold fsNodeOpen at hopen
  have hroot : fsNodeRoot s =
      some (setInode s root fun n => { n with refs := (n.refs + 1) % 2 ^ 32 }, root) := by
    rw [fsNodeRoot, h.first]
    rfl
  rw [hroot] at hopen
  have hm := h.counted root
  have hpathRoot := hm.rootPath
  generalize setInode s root (fun n => { n with refs := (n.refs + 1) % 2 ^ 32 }) = u at hm hpathRoot hopen
  have hstart : Walking u A root pathbuf root [] := by
    refine ⟨hm, List.mem_of_mem_head? hm.first, ?_, Nat.zero_le _, fun p hp => by cases hp⟩
    rw [fields, hpathRoot]
    rfl
  simp only at hopen
  split at hopen
  · cases hopen
  · rename_i v ptr loaded hwalk
    simp only [Option.some.injEq, Prod.mk.injEq] at hopen
    obtain ⟨rfl, rfl⟩ := hopen
    obtain ⟨hv, hptr⟩ := walking_walk hstart (by rw [hpath]; exact he) hwalk
    have hfields : fields v ptr = q ++ [name] := by rw [fields, hptr, hpath]
    have hlen : loaded.length = q.length + 1 := by
      have hl := congrArg List.length hv.path
      have hle := hv.length
      rw [hfields, hpath, List.length_take] at hl
      rw [hpath] at hle
      simp only [List.length_append, List.length_singleton] at hl hle
      omega
    obtain ⟨par, hpar⟩ : ∃ par, loaded.getLast? = some par := by
      rw [← Option.isSome_iff_exists, List.getLast?_isSome, ← List.length_pos_iff]
      omega
    obtain ⟨hmem, hparf⟩ := hv.last par hpar
    rw [hpath, hlen, Nat.add_sub_cancel, List.take_left] at hparf
    refine ⟨par, hpar, ?_, ?_⟩
    · exact (closeAll_header _ _ ptr).trans (hv.mounted.layout.cached.agree ptr hv.mem e (by
        rw [← he, ← hfields]))
    · exact (closeAll_header _ _ par).trans (hv.mounted.layout.cached.agree par hmem d (by
        rw [← hd, ← hparf]))
  · cases hopen

/-- Deleting an inode leaves the size that is stored for its parent. -/
theorem inodeDelete_parent {w : Volume} {node par : ℕ} (hf : Fits (w.inodes par).toHeader)
    (hw : Words (w.inodes par).toHeader) (hne : par ≠ node) :
    inodeFetch (inodeDelete w node (some par)).disk (w.inodes par).index =
        { (w.inodes par).toHeader with childCount := sub32 (w.inodes par).childCount 1 } ∧
      ((inodeDelete w node (some par)).inodes node).index = (w.inodes node).index := by
  unfold inodeDelete
  simp only
  generalize hu : inodeUpdate (setInode w node fun n => { n with isvalid := 0 }) node = u
  have hpar : u.inodes par = w.inodes par := by
    rw [← hu, inodeUpdate_inodes, setInode_other _ hne]
  have hnode : (u.inodes node).index = (w.inodes node).index := by
    rw [← hu, inodeUpdate_inodes, setInode_self]
  have hlen : (tableAfter u par (.rem u.stray)).length ≤ (u.inodes par).size := by
    refine (childtableRemove_length_le _ _).trans ?_
    simp
  rw [← hpar] at hf hw ⊢
  have hr := @inodeChildSet_retabled _ _ _ none hf (hlen.trans_lt hf.word) (hlen.trans hf.room)
  have hself : ((inodeChildSet u par (.rem u.stray) none).inodes par).toHeader =
      { (u.inodes par).toHeader with childCount := sub32 (u.inodes par).childCount 1 } := by
    rw [hr.inodes, Function.update_self, max_eq_left hlen]
    rfl
  constructor
  · refine (hr.header ?_).trans hself
    rw [hself]
    refine ⟨hw.isvalid, hw.index, hw.size, hw.alloc, ?_, hw.type⟩
    exact Nat.mod_lt _ (by decide)
  · rw [hr.inodes, Function.update_of_ne hne.symm, hnode]

theorem afterDelete_frame {u : Volume} {node sec : ℕ} (truncate : Bool)
    (h : lba sec ≠ lba (u.inodes node).index) :
    inodeFetch (afterDelete u node truncate).disk sec = inodeFetch u.disk sec := by
  unfold afterDelete
  split_ifs
  · unfold inodeTruncate inodeUpdate
    apply inodeFetch_congr
    intro o _
    simp only [setInode_self]
    rw [ataWrite_other h]
    rfl
  · rfl

theorem openExisting_unlinked {w u : Volume} {o : Opened} {truncate : Bool} {dir : ℕ}
    (h : openExisting w truncate dir true o = (u, 0)) : ¬ HasChild (w.inodes o.node) := by
  rintro ⟨ht, hcc⟩
  unfold openExisting at h
  simp only [ht, hcc, if_true, ne_eq, Nat.one_ne_zero, not_false_eq_true, and_self] at h
  have hr : fsErrDirHasChild = 0 := by
    have hr := congrArg Prod.snd h
    cases truncate <;> exact hr
  exact absurd hr (by decide)

theorem Mounted.unlink {pathbuf : PathbufT} {create truncate : Bool} {dir : ℕ} {node : Option ℕ}
    {q : List Str} {name : Str} {e d : Extent} (h : Mounted s A root)
    (hpath : pathbuf.fields = q ++ [name]) (he : A (q ++ [name]) = some e)
    (hvalid : e.header.isvalid % 256 ≠ 0) (hd : A q = some d)
    (hopen : fsOpen s pathbuf create truncate dir true = some (t, node, 0)) :
    inodeFetch t.disk d.header.index =
      { d.header with childCount := sub32 d.header.childCount 1 } := by
  unfold fsOpen at hopen
  rcases hwalk : fsNodeOpen s pathbuf with _ | ⟨w, _ | o⟩
  · rw [hwalk] at hopen
    cases hopen
  · rw [hwalk] at hopen
    simp [fsErrInvalidPath] at hopen
  · obtain ⟨par, hpar, hnh, hph⟩ := h.opened hpath he hd hwalk
    rw [hwalk] at hopen
    obtain ⟨⟨u, r⟩, hbranch, hres⟩ := Option.map_eq_some_iff.mp hopen
    simp only [Prod.mk.injEq] at hres
    obtain ⟨rfl, -, rfl⟩ := hres
    have hv : (w.inodes o.node).isvalid = e.header.isvalid := congrArg Header.isvalid hnh
    rw [hv, if_neg hvalid, Option.some.injEq] at hbranch
    have hu : u = afterDelete (inodeDelete w o.node (some par)) o.node truncate := by
      have hdel := openExisting_delete truncate dir (openExisting_unlinked hbranch)
      rw [hbranch, hpar] at hdel
      exact hdel
    have hapart := h.layout.holds.disjoint (q ++ [name]) q e d he hd (by simp)
    have hb := h.layout.holds.below _ e he
    have hb' := h.layout.holds.below _ d hd
    have hl := h.layout.holds.limit
    have hni : (w.inodes o.node).index = e.header.index := congrArg Header.index hnh
    have hpi : (w.inodes par).index = d.header.index := congrArg Header.index hph
    have hne : par ≠ o.node := by
      rintro rfl
      omega
    obtain ⟨hdisk, hindex⟩ := inodeDelete_parent (by rw [hph]; exact h.layout.holds.fits hd)
      (by rw [hph]; exact h.layout.holds.words hd) hne
    rw [fsNodeClose_disk]
    change inodeFetch u.disk _ = _
    rw [hu, afterDelete_frame truncate (by
      rw [hindex, hni, lba_of_lt (by omega), lba_of_lt (by omega)]
      omega), ← hpi, hdisk, hph]

def remaining (rs : List (Str × ℕ)) (name : Str) : List (Str × ℕ) := rs.filter fun r => r.1 ≠ name

theorem length_remaining_le (rs : List (Str × ℕ)) (name : Str) :
    (encode (remaining rs name)).length ≤ (encode rs).length := by
  induction rs with
  | nil => exact le_rfl
  | cons r rs ih =>
    rw [remaining, List.filter_cons, encode_cons, List.length_append]
    split_ifs
    · rw [encode_cons, List.length_append]
      exact Nat.add_le_add_left ih _
    · exact ih.trans (Nat.le_add_left _ _)

theorem length_remaining_lt {rs : List (Str × ℕ)} {name : Str} {i : ℕ} (h : (name, i) ∈ rs) :
    (encode (remaining rs name)).length < (encode rs).length := by
  obtain ⟨qs, ts, rfl⟩ := List.append_of_mem h
  have hsplit : remaining (qs ++ (name, i) :: ts) name = remaining qs name ++ remaining ts name := by
    simp [remaining]
  have hqs := length_remaining_le qs name
  have hts := length_remaining_le ts name
  rw [hsplit, encode_append, encode_append, encode_cons, List.length_append, List.length_append,
    List.length_append, length_record]
  omega

/-- The parent holds the records without the one for `name`, as lookups in it show. -/
structure Unlinked (t : Volume) (parent : InodeT) (rs : List (Str × ℕ)) (name : Str) : Prop where
  absent : ∀ buffer, (inodeChild t parent name buffer).isvalid = 0
  others : ∀ n i buffer, (n, i) ∈ rs → n ≠ name → (inodeChild t parent n buffer).index = i
  size : parent.size = (encode (remaining rs name)).length
  childCount : parent.childCount = (remaining rs name).length

def onDisk (t : Volume) (index : ℕ) (buffer : InodeT) : InodeT :=
  { buffer with toHeader := inodeFetch t.disk index }

theorem Layout.recorded {q : List Str} {name : Str} {e d : Extent} {rs : List (Str × ℕ)} (h : Layout s A)
    (he : A (q ++ [name]) = some e) (hd : A q = some d) (hrs : d.bytes = encode rs) :
    ∃ i, (name, i) ∈ rs := by
  obtain ⟨d', hd', hdir⟩ := h.tree.parents q name e he
  obtain rfl : d' = d := Option.some.inj (hd'.symm.trans hd)
  obtain ⟨rs', hbytes, hnodup, -, hmem⟩ := h.tree.dirs q d' hd' hdir
  obtain ⟨qs, ts, rfl⟩ := List.append_of_mem ((hmem name e.header.index).mpr ⟨e, he, rfl⟩)
  have hq : name ∉ qs.map Prod.fst := by
    intro hm
    rw [List.map_append, List.map_cons] at hnodup
    exact (List.nodup_append.mp hnodup).2.2 name hm name List.mem_cons_self rfl
  have hfind := @childtableFind_encode [] qs ts name e.header.index hq
  by_contra hno
  push Not at hno
  have habsent : name ∉ rs.map Prod.fst := by
    rintro hm
    obtain ⟨⟨n, i⟩, hr, rfl⟩ := List.mem_map.mp hm
    exact hno i hr
  rw [← hbytes, hrs, childtableFind_absent [] habsent] at hfind
  cases hfind

theorem Mounted.not_unlinked {pathbuf : PathbufT} {create truncate : Bool} {dir : ℕ} {node : Option ℕ}
    {q : List Str} {name : Str} {e d : Extent} {rs : List (Str × ℕ)} {buffer : InodeT}
    (h : Mounted s A root) (hpath : pathbuf.fields = q ++ [name]) (he : A (q ++ [name]) = some e)
    (hvalid : e.header.isvalid % 256 ≠ 0) (hd : A q = some d) (hrs : d.bytes = encode rs)
    (hopen : fsOpen s pathbuf create truncate dir true = some (t, node, 0)) :
    ¬ Unlinked t (onDisk t d.header.index buffer) rs name := by
  intro hu
  have hsize : d.header.size = (encode (remaining rs name)).length := by
    have hparent := congrArg Header.size (h.unlink hpath he hvalid hd hopen)
    exact hparent.symm.trans hu.size
  have hlen := h.layout.holds.length_bytes hd
  obtain ⟨i, hi⟩ := h.layout.recorded he hd hrs
  have hlt := length_remaining_lt hi
  rw [hrs] at hlen
  omega

/-- Whatever the directory, a successful unlink leaves its size as it was. -/
theorem unlink_keeps_size (s t : Volume) (A : Image) (root : ℕ) (pathbuf : PathbufT) (create truncate : Bool)
    (dir : ℕ) (node : Option ℕ) (q : List Str) (name : Str) (e d : Extent) (rs : List (Str × ℕ))
    (buffer : InodeT) (h : Mounted s A root) (hpath : pathbuf.fields = q ++ [name])
    (he : A (q ++ [name]) = some e) (hvalid : e.header.isvalid % 256 ≠ 0) (hd : A q = some d)
    (hrs : d.bytes = encode rs)
    (hopen : fsOpen s pathbuf create truncate dir true = some (t, node, 0)) :
    (onDisk t d.header.index buffer).toHeader =
        { d.header with childCount := sub32 d.header.childCount 1 } ∧
      ¬ Unlinked t (onDisk t d.header.index buffer) rs name := by
  constructor
  · exact h.unlink hpath he hvalid hd hopen
  · exact h.not_unlinked hpath he hvalid hd hrs hopen

def rootOfFile : InodeT := ⟨⟨1, 2, 6, 1, 1, inodeTypeDir⟩, 2, pathbufRoot, none⟩

def fileOfRoot : InodeT := ⟨⟨1, 4, 1, 1, 0, inodeTypeFile⟩, 1, pathbufChild pathbufRoot fileName, some 0⟩

/-- The volume `oneFile` on a disk that also holds the headers. -/
def storedFile : Volume := { oneFile with
  disk := fun sec =>
    if sec = 1 then putWord (fun _ => 0) 0 2
    else if sec = 2 then inodeImage (fun _ _ => 0) rootOfFile
    else if sec = 3 then bytesOf (encode [(fileName, 4)])
    else inodeImage (fun _ _ => 0) fileOfRoot }

def fileImage : Image := fun p =>
  if p = [] then some ⟨rootOfFile.toHeader, encode [(fileName, 4)]⟩
  else if p = [fileName] then some ⟨fileOfRoot.toHeader, slice (content storedFile.disk 4) 0 1⟩
  else none

theorem fileImage_some {p : List Str} {o : Extent} (h : fileImage p = some o) :
    p = [] ∧ o = ⟨rootOfFile.toHeader, encode [(fileName, 4)]⟩ ∨
      p = [fileName] ∧ o = ⟨fileOfRoot.toHeader, slice (content storedFile.disk 4) 0 1⟩ := by
  unfold fileImage at h
  split_ifs at h with h1 h2
  · exact Or.inl ⟨h1, (Option.some.inj h).symm⟩
  · exact Or.inr ⟨h2, (Option.some.inj h).symm⟩

theorem storedFile_mounted : Mounted storedFile fileImage 0 := by
  refine ⟨⟨⟨by decide, ?_, ?_, ?_, ?_, ?_, ?_⟩, ⟨⟨_, rfl, rfl, ?_⟩, ?_, ?_⟩, ⟨?_, ?_⟩⟩, rfl, rfl, ?_, ?_⟩
  · intro p o h
    rcases fileImage_some h with ⟨rfl, rfl⟩ | ⟨rfl, rfl⟩ <;> decide
  · intro p o h
    rcases fileImage_some h with ⟨rfl, rfl⟩ | ⟨rfl, rfl⟩ <;> decide
  · intro p o h
    rcases fileImage_some h with ⟨rfl, rfl⟩ | ⟨rfl, rfl⟩ <;> decide
  · intro p q o k h h' hne
    rcases fileImage_some h with ⟨rfl, rfl⟩ | ⟨rfl, rfl⟩ <;>
      rcases fileImage_some h' with ⟨rfl, rfl⟩ | ⟨rfl, rfl⟩
    · exact absurd rfl hne
    · exact Or.inl (by decide)
    · exact Or.inr (by decide)
    · exact absurd rfl hne
  · intro p o h
    rcases fileImage_some h with ⟨rfl, rfl⟩ | ⟨rfl, rfl⟩
    · exact @inodeFetch_of_image _ _ (fun _ _ => 0) rootOfFile
        ⟨by decide, by decide, by decide, by decide, by decide, by decide⟩ fun _ _ => rfl
    · exact @inodeFetch_of_image _ _ (fun _ _ => 0) fileOfRoot
        ⟨by decide, by decide, by decide, by decide, by decide, by decide⟩ fun _ _ => rfl
  · intro p o h
    rcases fileImage_some h with ⟨rfl, rfl⟩ | ⟨rfl, rfl⟩
    · decide
    · rfl
  · exact wordAt_putWord _ 0 2
  · intro p o h hdir
    rcases fileImage_some h with ⟨rfl, rfl⟩ | ⟨rfl, rfl⟩
    · refine ⟨[(fileName, 4)], rfl, by simp, rfl, fun n i => ?_⟩
      simp only [List.mem_singleton, Prod.mk.injEq, List.nil_append, fileImage, List.cons_ne_nil, if_false]
      constructor
      · rintro ⟨rfl, rfl⟩
        exact ⟨_, if_pos rfl, rfl⟩
      · rintro ⟨k, hk, rfl⟩
        split_ifs at hk with hn
        rw [← Option.some.inj hk]
        exact ⟨List.singleton_inj.mp hn, rfl⟩
    · cases hdir
  · intro p n k h
    rcases fileImage_some h with ⟨hp, -⟩ | ⟨hp, -⟩
    · simp at hp
    · obtain ⟨rfl, -⟩ : p = [] ∧ n = fileName := by
        exact (List.append_eq_singleton_iff.mp hp).resolve_right (by simp) |>.imp_right List.singleton_inj.mp
      exact ⟨_, rfl, rfl⟩
  · decide
  · intro c hc o h
    rcases List.mem_cons.mp hc with rfl | hc
    · rw [← Option.some.inj h]
      rfl
    · obtain rfl := List.mem_singleton.mp hc
      rw [← Option.some.inj h]
      rfl
  · unfold Allocated
    decide
  · unfold Rooted
    decide

theorem unlink_stored_file : ∃ t, fsOpen storedFile (pathbufChild pathbufRoot fileName) false false 0 true =
    some (t, some 1, 0) ∧ ¬ Unlinked t (onDisk t 2 rootOfFile) [(fileName, 4)] fileName :=
  ⟨_, rfl, (unlink_keeps_size storedFile _ fileImage 0 (pathbufChild pathbufRoot fileName) false false 0 _ []
    fileName _ _ [(fileName, 4)] rootOfFile storedFile_mounted rfl rfl (by decide) rfl rfl rfl).2⟩

/-- The only file of the root directory, unlinked while the stray pointer happens to show its name. -/
theorem unlinked_file : ¬ ∀ (s t : Volume) (A : Image) (root : ℕ) (pathbuf : PathbufT) (create truncate : Bool)
    (dir : ℕ) (node : Option ℕ) (q : List Str) (name : Str) (e d : Extent) (rs : List (Str × ℕ))
    (buffer : InodeT), Mounted s A root → pathbuf.fields = q ++ [name] → A (q ++ [name]) = some e →
    e.header.isvalid % 256 ≠ 0 → A q = some d → d.bytes = encode rs →
    fsOpen s pathbuf create truncate dir true = some (t, node, 0) →
    Unlinked t (onDisk t d.header.index buffer) rs name := by
  intro h
  have hopen : ∃ t, fsOpen storedFile (pathbufChild pathbufRoot fileName) false false 0 true =
      some (t, some 1, 0) := ⟨_, rfl⟩
  obtain ⟨t, hopen⟩ := hopen
  exact storedFile_mounted.not_unlinked (q := []) rfl rfl (by decide) rfl rfl hopen
    (h storedFile t fileImage 0 _ false false 0 _ [] fileName _ _ [(fileName, 4)] rootOfFile
      storedFile_mounted rfl rfl (by decide) rfl rfl hopen)

end Eedox.Fs
