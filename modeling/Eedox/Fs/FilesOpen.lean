import Eedox.Fs.Files

namespace Eedox.Fs

open Util Library.Bytes Ata Pathbuf Childtable

/-- Every directory on the way to the path is there. -/
def Reachable (F : Files) (p : List Str) : Prop := ∀ j < p.length, F (p.take j) = some .dir

instance (F : Files) (p : List Str) : Decidable (Reachable F p) :=
  inferInstanceAs (Decidable (∀ j < p.length, _ = _))

/-- A walk that has come to `ptr` through directories that were not cached. -/
structure Passing (s : Volume) (A : Image) (F : Files) (root : ℕ) (held : List ℕ) (pathbuf : PathbufT)
    (ptr : ℕ) (loaded : List ℕ) : Prop where
  stores : Stores s A F
  descending : Descending s root held pathbuf ptr loaded
  path : ∀ i v, (loaded ++ [ptr])[i]? = some v → (s.inodes v).pathbuf = upTo pathbuf i
  dirs : ∀ j < loaded.length, F (pathbuf.fields.take j) = some .dir

variable {s t : Volume} {A : Image} {F : Files} {root ptr node : ℕ} {held loaded nodes : List ℕ}
  {pathbuf : PathbufT}

theorem Passing.mem (h : Passing s A F root held pathbuf ptr loaded) {v : ℕ} (hv : v ∈ loaded ++ [ptr]) :
    v ∈ s.inodelist := by
  apply h.descending.counted.mem
  rcases List.mem_append.mp hv with hv | hv
  · exact List.mem_cons_of_mem _ (List.mem_cons_of_mem _ (List.mem_append_left _ hv))
  · rw [List.mem_singleton.mp hv]
    exact List.mem_cons_of_mem _ List.mem_cons_self

theorem Passing.ptr_mem (h : Passing s A F root held pathbuf ptr loaded) : ptr ∈ s.inodelist :=
  h.mem (List.mem_append_right _ (List.mem_singleton_self ptr))

theorem Passing.fields_ptr (h : Passing s A F root held pathbuf ptr loaded) :
    fields s ptr = pathbuf.fields.take loaded.length := by
  rw [fields, h.descending.path]
  rfl

theorem Passing.child {name : Str} (h : Passing s A F root held pathbuf ptr loaded)
    (hname : pathbuf.fields[loaded.length]? = some name)
    (hdir : F (pathbuf.fields.take loaded.length) = some .dir) :
    Passing (fsNodeChild s ptr name).1 A F root held pathbuf (fsNodeChild s ptr name).2 (loaded ++ [ptr]) := by
  have hlt : loaded.length < pathbufLen pathbuf := (List.getElem?_eq_some_iff.mp hname).1
  have hget : inodelistGet s (pathbufChild (s.inodes ptr).pathbuf name) = none := by
    rw [h.descending.path, upTo_succ hname]
    refine List.find?_eq_none.mpr fun p hp hcmp => ?_
    exact h.descending.cold p hp _ (Nat.lt_succ_self _) hlt (pathbufCmp_eq.mp hcmp)
  obtain ⟨-, -, hchild, hother⟩ := counted_newChild h.descending.counted hget
  have hnext := h.descending.child hname
  refine ⟨?_, hnext, fun i v hv => ?_, fun j hj => ?_⟩
  · apply h.stores.child h.descending.counted h.ptr_mem _ hget
    rw [h.fields_ptr]
    exact hdir
  · rcases snoc_cases hv with hv | ⟨rfl, rfl⟩
    · have hmem := h.mem (List.mem_of_getElem? hv)
      rw [hother v (h.descending.counted.lt hmem).ne]
      exact h.path i v hv
    · exact hnext.path
  · rw [List.length_append, List.length_singleton] at hj
    rcases Nat.lt_succ_iff_lt_or_eq.mp hj with hj | rfl
    · exact h.dirs j hj
    · exact hdir

/-- The inodes that a lookup returns for a path: its own and the two directories above it. -/
structure Ends (s : Volume) (pathbuf : PathbufT) (o : Opened) : Prop where
  path : (s.inodes o.node).pathbuf = pathbuf
  parent : o.parent = none ∧ pathbuf.fields = [] ∨ ∃ par n, o.parent = some par ∧ RealParent s par o.node n ∧
    (o.gparent = none ∧ fields s par = [] ∨ ∃ g m, o.gparent = some g ∧ RealParent s g par m)

theorem Passing.fields_at (h : Passing s A F root held pathbuf ptr loaded) {i v : ℕ}
    (hv : (loaded ++ [ptr])[i]? = some v) : fields s v = pathbuf.fields.take i := by
  rw [fields, h.path i v hv]
  rfl

theorem Passing.realParent (h : Passing s A F root held pathbuf ptr loaded) {i v w : ℕ} {name : Str}
    (hv : (loaded ++ [ptr])[i]? = some v) (hw : (loaded ++ [ptr])[i + 1]? = some w)
    (hname : pathbuf.fields[i]? = some name) : RealParent s v w name := by
  refine ⟨h.mem (List.mem_of_getElem? hv), ?_⟩
  rw [h.fields_at hv, h.fields_at hw, List.take_add_one, hname]
  rfl

theorem Passing.ends (h : Passing s A F root held pathbuf ptr loaded)
    (hlen : loaded.length = pathbufLen pathbuf) :
    Ends s pathbuf ⟨ptr, loaded.getLast?, loaded.dropLast.getLast?⟩ := by
  have hname (i : ℕ) (hi : i < loaded.length) : ∃ name, pathbuf.fields[i]? = some name :=
    ⟨_, List.getElem?_eq_getElem (hi.trans_eq hlen)⟩
  refine ⟨?_, ?_⟩
  · rw [h.descending.path, hlen, upTo_len]
  rcases List.eq_nil_or_concat loaded with rfl | ⟨init, par, rfl⟩
  · exact Or.inl ⟨rfl, List.length_eq_zero_iff.mp hlen.symm⟩
  · rw [List.concat_eq_append] at *
    obtain ⟨n, hn⟩ := hname init.length (by simp)
    have hpar : (init ++ [par] ++ [ptr])[init.length]? = some par := by simp
    have hptr : (init ++ [par] ++ [ptr])[init.length + 1]? = some ptr := by simp
    refine Or.inr ⟨par, n, by simp, h.realParent hpar hptr hn, ?_⟩
    rw [List.dropLast_concat]
    rcases List.eq_nil_or_concat init with rfl | ⟨rest, g, rfl⟩
    · refine Or.inl ⟨rfl, ?_⟩
      rw [h.fields_at hpar]
      rfl
    · rw [List.concat_eq_append] at *
      obtain ⟨m, hm⟩ := hname rest.length (by simp)
      refine Or.inr ⟨g, m, by simp, h.realParent (i := rest.length) ?_ ?_ hm⟩
      · simp
      · simp

theorem Ends.congr {o : Opened} (h : Ends s pathbuf o) (hp : ∀ p, (t.inodes p).pathbuf = (s.inodes p).pathbuf)
    (hl : ∀ p ∈ o.parent.toList ++ o.gparent.toList, p ∈ t.inodelist) : Ends t pathbuf o := by
  have hfields (p : ℕ) : fields t p = fields s p := by rw [fields, hp]
  refine ⟨by rw [hp, h.path], ?_⟩
  rcases h.parent with ⟨hpar, hnil⟩ | ⟨par, n, hpar, hreal, hg⟩
  · exact Or.inl ⟨hpar, hnil⟩
  · refine Or.inr ⟨par, n, hpar, ⟨hl par (by simp [hpar]), by rw [hfields, hfields, hreal.fields]⟩, ?_⟩
    rcases hg with ⟨hg, hnil⟩ | ⟨g, m, hg, hgreal⟩
    · exact Or.inl ⟨hg, by rw [hfields, hnil]⟩
    · exact Or.inr ⟨g, m, hg, hl g (by simp [hg]), by rw [hfields, hfields, hgreal.fields]⟩

/-- What the directories on the disk lead to. -/
def childHeader (d : Disk) (h : Header) (name : Str) : Option Header :=
  if h.type = inodeTypeDir then
    let index := childtableGet ⟨slice (content d h.index) 0 h.size, h.alloc⟩ name
    if index = 0 then none else some (inodeFetch d index)
  else none

def diskHeader (d : Disk) (p : List Str) : Option Header :=
  p.foldl (fun h name => h.bind fun h => childHeader d h name) (some (inodeFetch d (wordAt (d 1) 0)))

theorem diskHeader_append (d : Disk) (p : List Str) (name : Str) :
    diskHeader d (p ++ [name]) = (diskHeader d p).bind fun h => childHeader d h name := by
  unfold diskHeader
  rw [List.foldl_append]
  rfl

/-- The image of a layout is what its disk says. -/
theorem Layout.diskHeader (h : Layout s A) (p : List Str) :
    diskHeader s.disk p = (A p).map Extent.header := by
  have hl := h.holds.limit
  induction p using List.reverseRecOn with
  | nil =>
    obtain ⟨o, ho, -, hroot⟩ := h.tree.root
    have hheader := h.holds.header _ o ho
    rw [← hroot] at hheader
    rw [ho, Option.map_some, ← hheader]
    rfl
  | append_singleton p name ih =>
    have hdead (hp : ¬ IsDir A p) : A (p ++ [name]) = none := by
      rcases hA : A (p ++ [name]) with _ | k
      · rfl
      · exact absurd (h.tree.parents p name k hA) hp
    rw [diskHeader_append, ih]
    rcases hp : A p with _ | o
    · rw [hdead (by rintro ⟨o, ho, -⟩; rw [hp] at ho; cases ho)]
      rfl
    · simp only [Option.map_some, Option.bind_some, childHeader]
      by_cases hd : o.header.type = inodeTypeDir
      · rw [if_pos hd, h.holds.bytes p o hp]
        obtain ⟨rs, hrs, hnodup, -, hmem⟩ := h.tree.dirs p o hp hd
        rw [hrs]
        rcases hA : A (p ++ [name]) with _ | k
        · have hnone : name ∉ rs.map Prod.fst := by
            intro hm
            obtain ⟨⟨m, i⟩, hmi, rfl⟩ := List.mem_map.mp hm
            obtain ⟨k, hk, -⟩ := (hmem m i).mp hmi
            rw [hA] at hk
            cases hk
          rw [childtableGet_absent _ hnone, if_pos rfl]
          rfl
        · have hs := h.holds.start _ k hA
          have hb := h.holds.below _ k hA
          have hget := childtableGet_mem o.header.alloc hnodup ((hmem name k.header.index).mpr ⟨k, hA, rfl⟩)
          rw [Nat.mod_eq_of_lt (by omega)] at hget
          rw [hget, if_neg (by omega), h.holds.header _ k hA]
          rfl
      · rw [if_neg hd, hdead]
        · rfl
        · rintro ⟨o', ho', hd'⟩
          obtain rfl := Option.some.inj (hp.symm.trans ho')
          exact hd hd'

/-- There is room for one more record in the directory's table, which may have to be moved for it. -/
structure RoomFor (s : Volume) (h : Header) (name : Str) : Prop where
  nonempty : 0 < name.chars.length
  short : name.chars.length ≤ 256
  word : h.size + name.chars.length + 5 < 2 ^ 32
  limit : s.ballocPtr < 2 ^ 28
  room : 512 * h.alloc < h.size + name.chars.length + 5 →
    s.ballocPtr + 1 + sectorsFor 0 (h.size + name.chars.length + 5) < 2 ^ 28

/-- A path that is not cached; what is created fits on the disk, and directories are not truncated. -/
structure OpenCall (s : Volume) (pathbuf : PathbufT) (create truncate : Bool) : Prop where
  rooted : Rooted pathbuf
  cold : Cold s pathbuf 0
  refs : ∀ root, s.inodelist.head? = some root → (s.inodes root).refs + 1 < 2 ^ 32
  room : create = true → diskHeader s.disk pathbuf.fields = none → ∀ q name h,
    pathbuf.fields = q ++ [name] → diskHeader s.disk q = some h → RoomFor s h name
  file : truncate = true → ∀ h, diskHeader s.disk pathbuf.fields = some h → h.type ≠ inodeTypeDir

def Files.created (F : Files) (p : List Str) (create : Bool) (dir : ℕ) : Files :=
  if create then Function.update F p (some (if dir ≠ 0 then .dir else .file [])) else F

/-- What opening a path does to the files. -/
def Files.opened (F : Files) (p : List Str) (create truncate : Bool) (dir : ℕ) : Files :=
  if Reachable F p then
    match F p with
    | none => F.created p create dir
    | some _ => if truncate then Function.update F p (some (.file [])) else F
  else F

def Files.result (F : Files) (p : List Str) (create : Bool) (dir : ℕ) : ℤ :=
  if Reachable F p then
    match F p with
    | none => if create then 0 else fsErrNonexisting
    | some n => if dir ≠ 2 ∧ dir ≠ (if n = .dir then 1 else 0) then fsErrInvalidPath else 0
  else fsErrInvalidPath

theorem Ends.createCall {o : Opened} {n : Str} {par : ℕ} (h : Stores s A F) (he : Ends s pathbuf o)
    (hmem : o.node ∈ s.inodelist) (hreal : RealParent s par o.node n)
    (hgrand : o.gparent = none ∧ fields s par = [] ∨ ∃ g m, o.gparent = some g ∧ RealParent s g par m)
    (hr : Reachable F pathbuf.fields) (hF : F pathbuf.fields = none)
    (hroom : ∀ q name h, pathbuf.fields = q ++ [name] → diskHeader s.disk q = some h → RoomFor s h name) :
    CreateCall s A par n o.node o.gparent := by
  have hnode : fields s o.node = pathbuf.fields := by rw [fields, he.path]
  have hsplit : pathbuf.fields = fields s par ++ [n] := hnode.symm.trans hreal.fields
  have hdir : F (fields s par) = some .dir := by
    have hlast := hr (fields s par).length (by rw [hsplit]; simp)
    rwa [hsplit, List.take_left'] at hlast
    rfl
  obtain ⟨oq, hq, hqd⟩ := h.isDir_iff.mpr hdir
  have hagree := h.layout.cached.agree par hreal.mem oq hq
  have hsize : (s.inodes par).size = oq.header.size := congrArg Header.size hagree
  have halloc : (s.inodes par).alloc = oq.header.alloc := congrArg Header.alloc hagree
  have hfits := hroom _ n oq.header hsplit (by rw [h.layout.diskHeader, hq]; rfl)
  refine ⟨hmem, hreal, hgrand, ⟨oq, hq, hqd⟩, ?_, hfits.nonempty, hfits.short, ?_, hfits.limit, ?_⟩
  · rw [hnode]
    exact h.none_iff.mp hF
  · rw [hsize]
    exact hfits.word
  · rw [hsize, halloc]
    exact hfits.room

theorem Stores.openMissing {o : Opened} {create : Bool} (truncate : Bool) (h : Stores s A F) (he : Ends s pathbuf o)
    (hmem : o.node ∈ s.inodelist) (hr : Reachable F pathbuf.fields) (hF : F pathbuf.fields = none)
    (hroom : create = true → ∀ q name h, pathbuf.fields = q ++ [name] → diskHeader s.disk q = some h →
      RoomFor s h name) (dir : ℕ) :
    ∃ t B, openMissing s pathbuf create dir o = some (t, F.result pathbuf.fields create dir) ∧
      Stores t B (F.opened pathbuf.fields create truncate dir) := by
  have hnode : fields s o.node = pathbuf.fields := by rw [fields, he.path]
  unfold Files.result Files.opened Files.created Fs.openMissing
  rw [if_pos hr, if_pos hr, hF]
  cases create with
  | false => exact ⟨s, A, rfl, h⟩
  | true =>
    rcases he.parent with ⟨-, hnil⟩ | ⟨par, n, hpar, hreal, hgrand⟩
    · rw [hnil, h.rootDir] at hF
      cases hF
    have hcall := he.createCall h hmem hreal hgrand hr hF (hroom rfl)
    obtain ⟨t, ht, hsets⟩ := h.layout.create_sets hcall dir
    have hentry : (⟨1, if dir ≠ 0 then inodeTypeDir else inodeTypeFile, []⟩ : Entry) =
        (if dir ≠ 0 then Node.dir else Node.file []).entry := by
      split_ifs <;> rfl
    rw [hentry] at hsets
    obtain ⟨B, hB⟩ := h.set hsets (bookkept_inodeCreate ht)
    rw [hnode] at hB
    have hname : pathbufName pathbuf = some n := by
      rw [pathbufName, ← hnode, hreal.fields, List.getLast?_concat]
    simp only [if_true, hpar, hname, ht, Option.map_some]
    exact ⟨t, B, rfl, hB⟩

theorem Stores.openExisting {o : Opened} {n : Node} {truncate : Bool} (create : Bool) (h : Stores s A F)
    (hnode : fields s o.node = pathbuf.fields) (hmem : o.node ∈ s.inodelist)
    (hr : Reachable F pathbuf.fields) (hF : F pathbuf.fields = some n)
    (hfile : truncate = true → ∀ h, diskHeader s.disk pathbuf.fields = some h → h.type ≠ inodeTypeDir)
    (dir : ℕ) : ∃ t B, openExisting s truncate dir false o = (t, F.result pathbuf.fields create dir) ∧
      Stores t B (F.opened pathbuf.fields create truncate dir) := by
  have htype := (h.type hmem (by rw [hnode]; exact hF)).2
  have hisDir : (if (s.inodes o.node).type = inodeTypeDir then 1 else 0) = if n = .dir then 1 else 0 := by
    rw [htype]
    cases n with
    | dir => rfl
    | file bytes => rfl
  unfold Files.result Files.opened Fs.openExisting
  rw [if_pos hr, if_pos hr, hF, hisDir]
  cases truncate with
  | false => exact ⟨s, A, rfl, h⟩
  | true =>
    obtain ⟨k, hk, he⟩ := h.extent hF
    have hkd := hfile rfl k.header (by rw [h.layout.diskHeader, hk]; rfl)
    have hempty : (⟨k.header.isvalid, k.header.type, []⟩ : Entry) = (Node.file []).entry := by
      cases n with
      | dir => exact absurd (entry_dir he).2 hkd
      | file bytes =>
        rw [(entry_file he).1, (entry_file he).2.1]
        rfl
    have hsets := h.layout.truncate_sets hmem (by rw [hnode]; exact hk) hkd
    rw [hempty] at hsets
    obtain ⟨B, hB⟩ := h.set hsets (bookkept_inodeTruncate s o.node)
    rw [hnode] at hB
    exact ⟨inodeTruncate s o.node, B, rfl, hB⟩

end Eedox.Fs
