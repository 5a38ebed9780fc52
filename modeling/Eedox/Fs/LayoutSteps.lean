import Eedox.Fs.Layout

namespace Eedox.Fs

open Util Library.Bytes Ata Pathbuf Childtable

abbrev fields (s : Volume) (node : ℕ) : List Str := (s.inodes node).pathbuf.fields

theorem Cached.update {s t : Volume} {A : Image} {node : ℕ} {o : Extent} (h : Cached s A)
    (hmem : node ∈ s.inodelist) (hlist : t.inodelist = s.inodelist)
    (hother : ∀ c, c ≠ node → t.inodes c = s.inodes c)
    (hpath : (t.inodes node).pathbuf = (s.inodes node).pathbuf)
    (ho : o.header = (t.inodes node).toHeader) :
    Cached t (Function.update A (fields s node) (some o)) := by
  have hfields (c : ℕ) : fields t c = fields s c := by
    by_cases hc : c = node
    · subst hc
      rw [fields, hpath]
    · rw [fields, hother c hc]
  refine ⟨fun c hc c' hc' he => ?_, fun c hc k hk => ?_⟩
  · rw [hlist] at hc hc'
    exact h.unique c hc c' hc' ((hfields c).symm.trans (he.trans (hfields c')))
  · rw [hlist] at hc
    change Function.update A (fields s node) (some o) (fields t c) = some k at hk
    rw [hfields] at hk
    by_cases hcn : c = node
    · subst hcn
      rw [Function.update_self] at hk
      rw [← Option.some.inj hk, ho]
    · have hne : fields s c ≠ fields s node := fun he => hcn (h.unique c hc node hmem he)
      rw [Function.update_of_ne hne] at hk
      rw [hother c hcn]
      exact h.agree c hc k hk

theorem Cached.edit {s : Volume} {A : Image} {q : List Str} {o o' : Extent} (h : Cached s A)
    (ho : A q = some o) (hhead : o'.header = o.header) : Cached s (Function.update A q (some o')) := by
  refine ⟨h.unique, fun c hc k hk => ?_⟩
  by_cases hq : (s.inodes c).pathbuf.fields = q
  · rw [hq, Function.update_self] at hk
    obtain rfl := Option.some.inj hk
    rw [hhead]
    exact h.agree c hc o (by rw [hq, ho])
  · rw [Function.update_of_ne hq] at hk
    exact h.agree c hc k hk

theorem Layout.stored {s t : Volume} {A : Image} {node bytesFrom : ℕ} {buffer : List UInt8} {o : Extent}
    (h : Layout s A) (hmem : node ∈ s.inodelist) (ho : A (fields s node) = some o)
    (hfile : o.header.type ≠ inodeTypeDir) (hfrom : bytesFrom ≤ o.header.size)
    (hroom : bytesFrom + buffer.length ≤ 512 * o.header.alloc) (hst : Stored s t node bytesFrom buffer) :
    Layout t (Function.update A (fields s node)
      (some ⟨(t.inodes node).toHeader, overlay o.bytes bytesFrom buffer⟩)) := by
  have hn := h.cached.agree node hmem o ho
  have hs := h.holds.start _ o ho
  have hindex : (s.inodes node).index = o.header.index := congrArg Header.index hn
  have hnode : (t.inodes node).toHeader =
      { o.header with size := max o.header.size (bytesFrom + buffer.length) } := by
    rw [hst.inodes, Function.update_self, ← hn]
    rfl
  refine ⟨h.holds.stored ho hn hfrom hroom hst, ?_, ?_⟩
  · rw [hst.frame 1 (by omega)]
    refine h.tree.rewrite ho ?_ ?_ fun hd => ?_
    · rw [hnode]
    · rw [hnode]
    · rw [hnode] at hd
      exact absurd hd hfile
  · refine h.cached.update hmem hst.inodelist (fun c hc => ?_) ?_ rfl
    · rw [hst.inodes, Function.update_of_ne hc]
    · rw [hst.inodes, Function.update_self]
      rfl

/-- The disk holds the allocation pointer. -/
def Saved (s : Volume) : Prop := wordAt (s.disk 0) 0 = s.ballocPtr

theorem Saved.congr {s t : Volume} (h : Saved s) (hd : t.disk 0 = s.disk 0)
    (hp : t.ballocPtr = s.ballocPtr) : Saved t := by
  unfold Saved
  rw [hd, hp]
  exact h

theorem balloc_saved (s : Volume) (size : ℕ) : Saved (balloc s size) := by
  have hw := wordAt_congr (b := (balloc s size).disk 0)
    (c := putWord s.junk 0 ((s.ballocPtr + size) % 2 ^ 32)) (k := 0) fun j _ hj => by
      change ataWrite s.disk 0 _ 0 j = _
      rw [ataWrite_self (by omega) (by omega)]
  unfold Saved
  rw [hw, wordAt_putWord, Nat.mod_mod]
  rfl

theorem moveExtent_saved {s : Volume} {node sectors : ℕ} (hpos : 0 < s.ballocPtr)
    (hgrow : (s.inodes node).alloc ≤ sectors) (hroom : s.ballocPtr + sectors < 2 ^ 28) :
    Saved (moveExtent s node sectors) := by
  obtain ⟨u, hu, hindex, hptr, hdisk⟩ : ∃ u : Volume, moveExtent s node sectors = inodeUpdate u node ∧
      (u.inodes node).index = s.ballocPtr ∧ u.ballocPtr = (balloc s ((sectors + 1) % 2 ^ 32)).ballocPtr ∧
      u.disk = copySectors (balloc s ((sectors + 1) % 2 ^ 32)).disk ((s.inodes node).index + 1)
        (s.ballocPtr + 1) (s.inodes node).alloc := by
    refine ⟨_, rfl, ?_, rfl, rfl⟩
    rw [setInode_self]
  rw [hu]
  apply (balloc_saved s ((sectors + 1) % 2 ^ 32)).congr
  · rw [inodeUpdate_other (by omega) (by omega), hdisk, copySectors_outside (by omega) (by omega)]
  · exact hptr

theorem Relocated.saved {s : Volume} {node sectors : ℕ} {parent : Option ℕ} (hpos : 1 < s.ballocPtr)
    (hbelow : (s.inodes node).index + (s.inodes node).alloc < s.ballocPtr)
    (hgrow : (s.inodes node).alloc ≤ sectors) (hroom : s.ballocPtr + sectors < 2 ^ 28)
    (habove : ∀ p, parent = some p → Above s p node) : Saved (inodeRealloc s node sectors parent) := by
  have hsaved := moveExtent_saved (by omega) hgrow hroom
  have hm := moveExtent_moved (by omega) hbelow hgrow hroom
  cases parent with
  | none =>
    apply hsaved.congr
    · have hdisk : (inodeRealloc s node sectors none).disk = ataWrite (moveExtent s node sectors).disk 1
          (putWord (moveExtent s node sectors).junk 0 ((moveExtent s node sectors).inodes node).index) := by
        rw [inodeRealloc]
      rw [hdisk, ataWrite_other (by decide)]
    · rw [inodeRealloc]
  | some p =>
    have hp : (moveExtent s node sectors).inodes p = s.inodes p := by
      rw [hm.inodes, Function.update_of_ne (habove p rfl).ne]
    have hpp := (habove p rfl).pos
    have hpr := (habove p rfl).fits.room
    have hpw := (habove p rfl).fits.word
    have hr := @inodeChildSet_retabled (moveExtent s node sectors) p (relocate s node s.ballocPtr) none
      (by rw [hp]; exact (habove p rfl).fits)
      (by
        rw [relocate]
        simp only [tableAfter, ChildOperation.table, childtableEditIndex_length, length_slice, hp]
        exact hpw)
      (by
        rw [relocate]
        simp only [tableAfter, ChildOperation.table, childtableEditIndex_length, length_slice, hp]
        exact hpr)
    rw [inodeRealloc_some]
    apply hsaved.congr
    · exact hr.frame 0 (by rw [hp]; omega)
    · exact hr.ballocPtr

/-- `t` is laid out as `s` was, but for one entry. -/
def Sets (s t : Volume) (A : Image) (p : List Str) (e : Entry) : Prop :=
  ∃ B, Layout t B ∧ entries B = Function.update (entries A) p (some e) ∧ (Saved s → Saved t) ∧
    ∀ c, fields s c ≠ p → (t.inodes c).isvalid = (s.inodes c).isvalid

theorem update_isvalid {inodes : ℕ → InodeT} {node : ℕ} {n : InodeT} (h : n.isvalid = (inodes node).isvalid)
    (c : ℕ) : (Function.update inodes node n c).isvalid = (inodes c).isvalid := by
  by_cases hc : c = node
  · subst hc
    rw [Function.update_self, h]
  · rw [Function.update_of_ne hc]

structure RealParent (s : Volume) (par node : ℕ) (n : Str) : Prop where
  mem : par ∈ s.inodelist
  fields : fields s node = fields s par ++ [n]

theorem RealParent.ne {s : Volume} {par node : ℕ} {n : Str} (h : RealParent s par node n) : par ≠ node := by
  rintro rfl
  have := h.fields
  simp at this

theorem RealParent.name {s : Volume} {par node : ℕ} {n : Str} (h : RealParent s par node n) :
    nodeName s node = n := by
  have hf := h.fields
  simp only [Fs.fields] at hf
  simp [nodeName, pathbufName, hf]

theorem Layout.realloc {s : Volume} {A : Image} {node par sectors : ℕ} {n : Str} {o : Extent}
    (h : Layout s A) (hmem : node ∈ s.inodelist) (hpar : RealParent s par node n)
    (ho : A (fields s node) = some o) (hgrow : o.header.alloc ≤ sectors)
    (hroom : s.ballocPtr + sectors < 2 ^ 28) :
    ∃ B, Relocated s (inodeRealloc s node sectors (some par)) node (some par) sectors ∧
      Layout (inodeRealloc s node sectors (some par)) B ∧
      B (fields s node) =
        some ⟨((inodeRealloc s node sectors (some par)).inodes node).toHeader, o.bytes⟩ ∧
      entries B = entries A ∧ Saved (inodeRealloc s node sectors (some par)) := by
  have hpath := hpar.fields
  have hn := h.cached.agree node hmem o ho
  rw [hpath] at ho
  obtain ⟨oq, hq, hqd⟩ := h.tree.parents _ n o ho
  have hqn := h.cached.agree par hpar.mem oq hq
  obtain ⟨hrel, hhold⟩ := h.holds.realloc_child ho (congrArg Header.index hn)
    (congrArg Header.size hn) (congrArg Header.alloc hn) (by rw [hn]; exact h.holds.words ho) hgrow hroom
    hq (by simp) hqn hpar.ne
  rw [hpar.name] at hhold
  have hqs := h.holds.start _ oq hq
  have hqb := h.holds.below _ oq hq
  have hb := h.holds.below _ o ho
  have hs := h.holds.start _ o ho
  have hsaved : Saved (inodeRealloc s node sectors (some par)) := by
    have hni : (s.inodes node).index = o.header.index := congrArg Header.index hn
    have hna : (s.inodes node).alloc = o.header.alloc := congrArg Header.alloc hn
    have hpi : (s.inodes par).index = oq.header.index := congrArg Header.index hqn
    have hpa : (s.inodes par).alloc = oq.header.alloc := congrArg Header.alloc hqn
    apply Relocated.saved (by omega) (by omega) (by omega) hroom
    intro p hp
    obtain rfl := Option.some.inj hp
    exact ⟨hpar.ne, by rw [hqn]; exact h.holds.fits hq, by omega, by omega⟩
  generalize inodeRealloc s node sectors (some par) = t at hrel hhold hsaved ⊢
  have hnode : t.inodes node = withExtent (s.inodes node) s.ballocPtr sectors := by
    rw [hrel.inodes, Function.update_self]
  refine ⟨_, hrel, ⟨hhold, ?_, ?_⟩, ?_, ?_, hsaved⟩
  · have hroot : t.disk 1 = s.disk 1 := by
      refine hrel.frame 1 (by omega) (by omega) (fun p hp => ?_) (by simp)
      obtain rfl := Option.some.inj hp
      have hi : (s.inodes par).index = oq.header.index := congrArg Header.index hqn
      omega
    rw [hroot]
    refine h.tree.move ho ?_ ?_ rfl hq rfl ⟨oq.header.alloc, ?_⟩
    · rw [hnode, ← hn]
      rfl
    · rw [hnode, ← hn]
      rfl
    · rw [hnode]
      rfl
  · have hc := h.cached.update (o := ⟨(t.inodes node).toHeader, o.bytes⟩) hmem hrel.inodelist
      (fun c hc => by rw [hrel.inodes, Function.update_of_ne hc]) (by rw [hnode]; rfl) rfl
    rw [hpath] at hc
    exact hc.edit (o := oq) (by rw [Function.update_of_ne (by simp), hq]) rfl
  · rw [hpath, Function.update_of_ne (by simp), Function.update_self]
  · rw [entries_rewrite (o := oq) (by rw [Function.update_of_ne (by simp), hq])]
    · apply entries_rewrite ho
      apply entry_eq
      · rw [hnode]
        exact (congrArg Header.isvalid hn :)
      · rw [hnode]
        exact (congrArg Header.type hn :)
      · exact fun _ => rfl
    · exact entry_eq rfl rfl fun hd => absurd hqd hd

structure FileWrite (s : Volume) (A : Image) (node bytesFrom : ℕ) (buffer : List UInt8) (par : ℕ) :
    Prop where
  mem : node ∈ s.inodelist
  file : ∃ o, A (fields s node) = some o ∧ o.header.type ≠ inodeTypeDir
  parent : ∃ n, RealParent s par node n
  inside : bytesFrom ≤ (s.inodes node).size
  word : bytesFrom + buffer.length < 2 ^ 32
  room : 512 * (s.inodes node).alloc < bytesFrom + buffer.length →
    s.ballocPtr + sectorsFor bytesFrom buffer.length < 2 ^ 28

theorem entry_stored {o : Extent} {header : Header} {bytesFrom : ℕ} {buffer : List UInt8}
    (hv : header.isvalid = o.header.isvalid) (ht : header.type = o.header.type)
    (hfile : o.header.type ≠ inodeTypeDir) :
    Extent.entry ⟨header, overlay o.bytes bytesFrom buffer⟩ =
      ⟨o.header.isvalid, o.header.type, overlay o.bytes bytesFrom buffer⟩ := by
  unfold Extent.entry
  rw [hv, ht, if_neg hfile]

theorem Layout.write_sets {s : Volume} {A : Image} {node bytesFrom par : ℕ} {buffer : List UInt8} {o : Extent}
    (h : Layout s A) (hc : FileWrite s A node bytesFrom buffer par) (ho : A (fields s node) = some o) :
    Sets s (inodeWrite s node bytesFrom buffer (some par)) A (fields s node)
      ⟨o.header.isvalid, o.header.type, overlay o.bytes bytesFrom buffer⟩ := by
  obtain ⟨o', ho', hfile⟩ := hc.file
  obtain rfl := Option.some.inj (ho.symm.trans ho')
  obtain ⟨n, hpar⟩ := hc.parent
  have hn := h.cached.agree node hc.mem o ho
  have hsize : (s.inodes node).size = o.header.size := congrArg Header.size hn
  have halloc : (s.inodes node).alloc = o.header.alloc := congrArg Header.alloc hn
  have hf : Fits (s.inodes node).toHeader := by
    rw [hn]
    exact h.holds.fits ho
  have hin := hc.inside
  rcases Nat.lt_or_ge (512 * (s.inodes node).alloc) (bytesFrom + buffer.length) with hover | hfit
  · have hsec : bytesFrom + buffer.length ≤ 512 * sectorsFor bytesFrom buffer.length := by
      unfold sectorsFor
      omega
    have hr := hf.room
    obtain ⟨B, hrel, hB, hBo, hBe, hsaved⟩ := h.realloc hc.mem hpar ho
      (by omega) (hc.room hover)
    rw [inodeWrite_over hf (by omega) hc.word hover, ← sectorsFor]
    generalize inodeRealloc s node (sectorsFor bytesFrom buffer.length) (some par) = r at hrel hB hBo hsaved ⊢
    have hnode : r.inodes node =
        withExtent (s.inodes node) s.ballocPtr (sectorsFor bytesFrom buffer.length) := by
      rw [hrel.inodes, Function.update_self]
    have hfields : fields r node = fields s node := by
      rw [fields, hnode]
      rfl
    rw [← hfields] at hBo
    have hst : Stored r (storeBytes r node bytesFrom buffer) node bytesFrom buffer := by
      apply storeBytes_stored
      · exact (hB.holds.fits hBo :)
      · omega
      · exact hc.word
      · rw [hnode]
        exact hsec
    have hv : (r.inodes node).isvalid = o.header.isvalid := by
      rw [hnode]
      exact (congrArg Header.isvalid hn :)
    have ht : (r.inodes node).type = o.header.type := by
      rw [hnode]
      exact (congrArg Header.type hn :)
    have hfile' : (r.inodes node).type ≠ inodeTypeDir := by rwa [ht]
    refine ⟨_, hB.stored (by rw [hrel.inodelist]; exact hc.mem) hBo hfile' ?_ ?_ hst, ?_, fun _ => ?_, fun c _ => ?_⟩
    · rw [hnode]
      exact hin
    · rw [hnode]
      exact hsec
    · rw [entries_update, hBe, hfields, entry_stored (o := ⟨(r.inodes node).toHeader, o.bytes⟩) _ _ hfile']
      · exact congrArg _ (congrArg some (by rw [hv, ht]))
      · rw [hst.inodes, Function.update_self]
        rfl
      · rw [hst.inodes, Function.update_self]
        rfl
    · have hri : 2 ≤ (r.inodes node).index := hB.holds.start _ _ hBo
      exact hsaved.congr (hst.frame 0 (by omega)) hst.ballocPtr
    · rw [hst.inodes]
      refine (update_isvalid (by rfl) c).trans ?_
      rw [hrel.inodes]
      exact update_isvalid (by rfl) c
  · have hst := @inodeWrite_stored _ _ _ _ (some par) hf hc.inside hc.word hfit
    have hs := h.holds.start _ o ho
    have hi : (s.inodes node).index = o.header.index := congrArg Header.index hn
    refine ⟨_, h.stored hc.mem ho hfile (by omega) (by omega) hst, ?_, fun hsaved => ?_, fun c _ => ?_⟩
    · rw [entries_update, entry_stored _ _ hfile]
      · rw [hst.inodes, Function.update_self]
        exact (congrArg Header.isvalid hn :)
      · rw [hst.inodes, Function.update_self]
        exact (congrArg Header.type hn :)
    · exact hsaved.congr (hst.frame 0 (by omega)) hst.ballocPtr
    · rw [hst.inodes]
      exact update_isvalid (by rfl) c

theorem Layout.write {s : Volume} {A : Image} {node bytesFrom par : ℕ} {buffer : List UInt8}
    (h : Layout s A) (hc : FileWrite s A node bytesFrom buffer par) :
    ∃ B, Layout (inodeWrite s node bytesFrom buffer (some par)) B := by
  obtain ⟨o, ho, -⟩ := hc.file
  obtain ⟨B, hB, -⟩ := h.write_sets hc ho
  exact ⟨B, hB⟩

theorem Layout.truncate_sets {s : Volume} {A : Image} {node : ℕ} {o : Extent} (h : Layout s A)
    (hmem : node ∈ s.inodelist) (ho : A (fields s node) = some o) (hfile : o.header.type ≠ inodeTypeDir) :
    Sets s (inodeTruncate s node) A (fields s node) ⟨o.header.isvalid, o.header.type, []⟩ := by
  have hn := h.cached.agree node hmem o ho
  have hindex : (s.inodes node).index = o.header.index := congrArg Header.index hn
  have hs := h.holds.start _ o ho
  have hb := h.holds.below _ o ho
  have hl := h.holds.limit
  have hw := h.holds.words ho
  obtain ⟨u, hu, hinodes, hdisk, hptr, hlist⟩ : ∃ u, inodeTruncate s node = inodeUpdate u node ∧
      u.inodes = Function.update s.inodes node { s.inodes node with alloc := 0, size := 0 } ∧
      u.disk = s.disk ∧ u.ballocPtr = s.ballocPtr ∧ u.inodelist = s.inodelist :=
    ⟨_, rfl, rfl, rfl, rfl, rfl⟩
  have hhead : (u.inodes node).toHeader = { o.header with alloc := 0, size := 0 } := by
    rw [hinodes, Function.update_self, ← hn]
  have hui : (u.inodes node).index = o.header.index := (congrArg Header.index hhead :)
  have hother (sec : ℕ) (hsec : sec ≠ o.header.index) : (inodeUpdate u node).disk sec = s.disk sec := by
    rw [inodeUpdate_other (by omega) (by omega), hdisk]
  have hhold : Holds (inodeUpdate u node).disk (inodeUpdate u node).ballocPtr
      (Function.update A (fields s node) (some ⟨(u.inodes node).toHeader, []⟩)) := by
    change Holds _ u.ballocPtr _
    rw [hptr]
    apply h.holds.update le_rfl hl
    · exact Or.inl ⟨o, ho, hui.symm, by rw [hhead]; exact Nat.zero_le _⟩
    · exact hui.ge.trans' hs
    · rw [hhead]
      change o.header.index + 0 < _
      omega
    · rw [hhead]
      exact Nat.zero_le _
    · refine inodeFetch_inodeUpdate (by omega) ?_
      rw [hhead]
      exact ⟨hw.isvalid, hw.index, by simp, by simp, hw.childCount, hw.type⟩
    · rw [hhead]
      rfl
    · intro q k hq hk sec h1 h2
      have := h.holds.disjoint q _ k o hk ho hq
      exact hother sec (by omega)
  have hv : (u.inodes node).isvalid = o.header.isvalid := (congrArg Header.isvalid hhead :)
  have ht : (u.inodes node).type = o.header.type := (congrArg Header.type hhead :)
  rw [hu]
  refine ⟨_, ⟨hhold, ?_, ?_⟩, ?_, fun hsaved => hsaved.congr (hother 0 (by omega)) hptr, fun c _ => ?_⟩
  · rw [hother 1 (by omega)]
    refine h.tree.rewrite ho ?_ ?_ fun hd => ?_
    · exact hui
    · exact ht
    · exact absurd (ht.symm.trans hd) hfile
  · refine h.cached.update hmem hlist (fun c hc => ?_) ?_ rfl
    · change u.inodes c = _
      rw [hinodes, Function.update_of_ne hc]
    · change (u.inodes node).pathbuf = _
      rw [hinodes, Function.update_self]
  · rw [entries_update]
    exact congrArg _ (congrArg some (by rw [Extent.entry, hv, ht, if_neg hfile]))
  · rw [inodeUpdate_inodes, hinodes]
    exact update_isvalid (by rfl) c

theorem Layout.truncate {s : Volume} {A : Image} {node : ℕ} {o : Extent} (h : Layout s A)
    (hmem : node ∈ s.inodelist) (ho : A (fields s node) = some o) (hfile : o.header.type ≠ inodeTypeDir) :
    ∃ B, Layout (inodeTruncate s node) B := by
  obtain ⟨B, hB, -⟩ := h.truncate_sets hmem ho hfile
  exact ⟨B, hB⟩

theorem length_encode_ge (rs : List (Str × ℕ)) : 5 * rs.length ≤ (encode rs).length := by
  induction rs with
  | nil => simp
  | cons r rs ih =>
    simp only [List.length_cons, encode_cons, List.length_append, length_record]
    omega

theorem Holds.inodeUpdate {s : Volume} {A : Image} {p : List Str} {o : Extent} {node : ℕ}
    (h : Holds s.disk s.ballocPtr A) (ho : A p = some o) (hn : (s.inodes node).toHeader = o.header) :
    Holds (inodeUpdate s node).disk (Fs.inodeUpdate s node).ballocPtr A := by
  have hi : (s.inodes node).index = o.header.index := congrArg Header.index hn
  have hb := h.below p o ho
  have hl := h.limit
  have hother (sec : ℕ) (hsec : sec ≠ o.header.index) : (Fs.inodeUpdate s node).disk sec = s.disk sec :=
    inodeUpdate_other (by omega) (by omega)
  have hup := h.update (e := (Fs.inodeUpdate s node).disk) (p := p) (o := o) le_rfl hl
    (Or.inl ⟨o, ho, rfl, le_rfl⟩) (h.start p o ho) hb (h.room p o ho)
    (by
      rw [← hn]
      exact inodeFetch_inodeUpdate (by omega) (by rw [hn]; exact h.words ho))
    (by
      rw [← h.bytes p o ho]
      apply slice_congr
      intro k _ _
      rw [content, hother _ (by omega), content])
    (fun q k hq hk sec h1 h2 => by
      have := h.disjoint q p k o hk ho hq
      exact hother sec (by omega))
  rwa [← ho, Function.update_eq_self] at hup

/-- `inode_create` with the real parent and grandparent and a name that the parent does not have. The
sectors that it takes lie on the disk. -/
structure CreateCall (s : Volume) (A : Image) (par : ℕ) (name : Str) (node : ℕ)
    (gparent : Option ℕ) : Prop where
  mem : node ∈ s.inodelist
  parent : RealParent s par node name
  grand : gparent = none ∧ fields s par = [] ∨ ∃ g m, gparent = some g ∧ RealParent s g par m
  dir : IsDir A (fields s par)
  fresh : A (fields s node) = none
  nonempty : 0 < name.chars.length
  short : name.chars.length ≤ 256
  word : (s.inodes par).size + name.chars.length + 5 < 2 ^ 32
  limit : s.ballocPtr < 2 ^ 28
  room : 512 * (s.inodes par).alloc < (s.inodes par).size + name.chars.length + 5 →
    s.ballocPtr + 1 + sectorsFor 0 ((s.inodes par).size + name.chars.length + 5) < 2 ^ 28

def newHeader (index dir : ℕ) : Header :=
  ⟨1, index, 0, 0, 0, if dir ≠ 0 then inodeTypeDir else inodeTypeFile⟩

structure Allotted (s u : Volume) (node dir : ℕ) : Prop where
  header : (u.inodes node).toHeader = newHeader s.ballocPtr dir
  pathbuf : (u.inodes node).pathbuf = (s.inodes node).pathbuf
  other : ∀ c, c ≠ node → u.inodes c = s.inodes c
  fetch : inodeFetch u.disk s.ballocPtr = newHeader s.ballocPtr dir
  frame : ∀ sec, sec ≠ 0 → sec ≠ s.ballocPtr → u.disk sec = s.disk sec
  ballocPtr : u.ballocPtr = s.ballocPtr + 1
  inodelist : u.inodelist = s.inodelist

theorem inodeCreate_allotted {s : Volume} (dir parent : ℕ) {name : Str} (node : ℕ) (gparent : Option ℕ)
    (hshort : name.chars.length ≤ 256) (hpos : 0 < s.ballocPtr) (hlimit : s.ballocPtr < 2 ^ 28) :
    ∃ u, inodeCreate s dir parent name node gparent =
      some (inodeChildSet u parent (.add name s.ballocPtr) gparent) ∧ Allotted s u node dir ∧ Saved u := by
  have hlen : ¬ strlen name.chars > 256 := by
    rw [strlen_str]
    omega
  have hptr : (s.ballocPtr + 1) % 2 ^ 32 = s.ballocPtr + 1 := by omega
  let n : InodeT := { s.inodes node with toHeader := newHeader s.ballocPtr dir }
  let b := setInode (balloc s 1) node fun _ => n
  have hb : b.inodes node = n := setInode_self _ _ _
  have hbi : (b.inodes node).index = s.ballocPtr := by rw [hb]; rfl
  have hframe (sec : ℕ) (h0 : sec ≠ 0) : b.disk sec = s.disk sec :=
    ataWrite_other (by simpa [lba] using h0)
  have hw : Words (newHeader s.ballocPtr dir) := by
    have hp : s.ballocPtr < 2 ^ 32 := by omega
    refine ⟨by simp [newHeader], hp, by simp [newHeader], by simp [newHeader], by simp [newHeader], ?_⟩
    simp only [newHeader, inodeTypeDir, inodeTypeFile]
    split_ifs <;> omega
  refine ⟨inodeUpdate b node, ?_, ⟨?_, ?_, fun c hc => ?_, ?_, fun sec h0 hs => ?_, ?_, rfl⟩, ?_⟩
  · rw [inodeCreate, if_neg hlen]
    rfl
  · exact congrArg InodeT.toHeader hb
  · exact (congrArg InodeT.pathbuf hb :)
  · change b.inodes c = (balloc s 1).inodes c
    exact setInode_other _ hc
  · have hfetch := @inodeFetch_inodeUpdate b node (by omega) (by rw [hb]; exact hw)
    rwa [hb] at hfetch
  · rw [inodeUpdate_other (by omega) (by omega), hframe sec h0]
  · exact hptr
  · have hdisk : b.disk = (balloc s 1).disk := by
      unfold b setInode
      rfl
    apply (balloc_saved s 1).congr
    · rw [inodeUpdate_other (by omega) (by omega), hdisk]
    · unfold inodeUpdate b setInode
      rfl

theorem Holds.allotted {s u : Volume} {A : Image} {node dir : ℕ} {p : List Str}
    (h : Holds s.disk s.ballocPtr A) (hpos : 2 ≤ s.ballocPtr) (hlimit : s.ballocPtr < 2 ^ 28)
    (hu : Allotted s u node dir) :
    Holds u.disk u.ballocPtr (Function.update A p (some ⟨newHeader s.ballocPtr dir, []⟩)) := by
  rw [hu.ballocPtr]
  apply h.update (by omega) hlimit
  · exact Or.inr le_rfl
  · exact hpos
  · change s.ballocPtr + 0 < _
    omega
  · exact Nat.zero_le _
  · exact hu.fetch
  · rfl
  · intro q k _ hk sec h1 h2
    have hs := h.start q k hk
    have hb := h.below q k hk
    exact hu.frame sec (by omega) (by omega)

theorem overlay_all {old new : List UInt8} (h : old.length ≤ new.length) : overlay old 0 new = new := by
  rw [overlay, List.take_zero, Nat.zero_add, List.drop_eq_nil_of_le h, List.append_nil, List.nil_append]

theorem inodeUpdate_ballocPtr (s : Volume) (node : ℕ) : (inodeUpdate s node).ballocPtr = s.ballocPtr := by
  unfold inodeUpdate
  rfl

theorem Holds.tableMoved {r : Volume} {C : Image} {q : List Str} {par : ℕ} {bytes data : List UInt8}
    (h : Holds r.disk r.ballocPtr C) (hq : C q = some ⟨(r.inodes par).toHeader, bytes⟩)
    (hlen : bytes.length ≤ data.length) (hpos : 0 < data.length) (hw : data.length < 2 ^ 32)
    (hroom : data.length ≤ 512 * (r.inodes par).alloc) :
    ∃ t, Fs.inodeUpdate (storeBytes r par 0 data) par = t ∧
      t.inodes = Function.update r.inodes par (withSize (r.inodes par) data.length) ∧
      (∀ sec, sec < 2 → t.disk sec = r.disk sec) ∧ t.ballocPtr = r.ballocPtr ∧ t.inodelist = r.inodelist ∧
      Holds t.disk t.ballocPtr (Function.update C q (some ⟨(t.inodes par).toHeader, data⟩)) := by
  have hs : 2 ≤ (r.inodes par).index := h.start q _ hq
  have hb : (r.inodes par).index + (r.inodes par).alloc < r.ballocPtr := h.below q _ hq
  have hl := h.limit
  have hsize : bytes.length = (r.inodes par).size := h.length_bytes hq
  have hfit : 0 + data.length ≤ 512 * (r.inodes par).alloc := by omega
  have hst := storeBytes_stored (s := r) (h.fits hq) hpos (by omega) hfit
  have hhold := h.stored hq rfl (Nat.zero_le _) hfit hst
  generalize storeBytes r par 0 data = w at hst hhold ⊢
  have hinodes : w.inodes = Function.update r.inodes par (withSize (r.inodes par) data.length) := by
    rw [hst.inodes, max_eq_right (by omega), Nat.zero_add]
  have hwi : (w.inodes par).index = (r.inodes par).index := by
    rw [hinodes, Function.update_self]
    rfl
  rw [overlay_all hlen] at hhold
  refine ⟨Fs.inodeUpdate w par, rfl, ?_, fun sec hsec => ?_, ?_, ?_, ?_⟩
  · rw [inodeUpdate_inodes, hinodes]
  · rw [inodeUpdate_other (by omega) (by omega), hst.frame sec (by omega)]
  · rw [inodeUpdate_ballocPtr, hst.ballocPtr]
  · rw [inodeUpdate_inodelist, hst.inodelist]
  · exact hhold.inodeUpdate (Function.update_self ..) rfl

/-- A directory whose table gets the record of a new inode: the inode's header is on the disk, and
`data` is the new table. -/
structure Adding (s u : Volume) (A : Image) (par node : ℕ) (name : Str) (o oq : Extent)
    (data : List UInt8) : Prop where
  holds : Holds u.disk u.ballocPtr (Function.update A (fields s par ++ [name]) (some o))
  cached : Cached u (Function.update A (fields s par ++ [name]) (some o))
  entry : Function.update A (fields s par ++ [name]) (some o) (fields s par) = some oq
  header : (u.inodes par).toHeader = oq.header
  mem : par ∈ u.inodelist
  path : fields u par = fields s par
  table : tableAfter u par (.add name o.header.index) = data
  longer : oq.header.size < data.length
  word : data.length < 2 ^ 32
  count : oq.header.childCount + 1 < 2 ^ 32
  root : u.disk 1 = s.disk 1
  tree : ∀ o', o'.header.index = oq.header.index → o'.header.type = oq.header.type →
    o'.header.childCount = oq.header.childCount + 1 → o'.bytes = data →
    Tree (wordAt (s.disk 1) 0) (Function.update (Function.update A (fields s par ++ [name]) (some o))
      (fields s par) (some o'))

theorem Layout.adding {s u : Volume} {A : Image} {par node dir : ℕ} {name : Str} {gparent : Option ℕ}
    (h : Layout s A) (hc : CreateCall s A par name node gparent) (hu : Allotted s u node dir) :
    ∃ oq data, Adding s u A par node name ⟨newHeader s.ballocPtr dir, []⟩ oq data ∧
      A (fields s par) = some oq ∧ data.length = oq.header.size + name.chars.length + 5 := by
  obtain ⟨oq, hq, hqd⟩ := hc.dir
  obtain ⟨rs, hrs, -, hcount, -⟩ := h.tree.dirs _ oq hq hqd
  have hpath := hc.parent.fields
  have hne := hc.parent.ne
  have hfresh := hc.fresh
  have hparn := h.cached.agree par hc.parent.mem oq hq
  have hqs := h.holds.start _ oq hq
  have hqb := h.holds.below _ oq hq
  have hqlen := h.holds.length_bytes hq
  have hword := hc.word
  have hsize : (s.inodes par).size = oq.header.size := congrArg Header.size hparn
  have hhold := h.holds.allotted (p := fields s par ++ [name]) (by omega) hc.limit hu
  have hBq : Function.update A (fields s par ++ [name]) (some ⟨newHeader s.ballocPtr dir, []⟩)
      (fields s par) = some oq := by rw [Function.update_of_ne (by simp), hq]
  have hupar : u.inodes par = s.inodes par := hu.other par hne
  have hun : (u.inodes par).toHeader = oq.header := by rw [hupar, hparn]
  have hlen : (encode (rs ++ [(name, s.ballocPtr)])).length = oq.header.size + name.chars.length + 5 := by
    rw [← hqlen, hrs]
    simp [Nat.add_assoc]
  have hge := length_encode_ge rs
  rw [← hrs, hqlen, ← hcount] at hge
  refine ⟨oq, encode (rs ++ [(name, s.ballocPtr)]), ?_, hq, hlen⟩
  refine ⟨hhold, ?_, hBq, hun, ?_, ?_, ?_, by omega, by omega, by omega, ?_, fun o' hi ht hcc hb => ?_⟩
  · rw [← hpath]
    exact h.cached.update hc.mem hu.inodelist hu.other hu.pathbuf hu.header.symm
  · rw [hu.inodelist]
    exact hc.parent.mem
  · rw [fields, hupar]
  · rw [hhold.tableAfter_eq hBq hun, hrs]
    have hl : (encode rs).length + name.chars.length + 5 < 2 ^ 32 := by
      rw [← hrs]
      omega
    exact childtableAdd_encode hl
  · rw [hu.frame 1 (by omega) (by omega)]
  · rw [hpath] at hfresh
    exact h.tree.add hfresh hq hqd rfl rfl hi ht hcc
      (by rw [hb, hrs, encode_append]; rfl)

theorem Adding.entries_retabled {s u : Volume} {A : Image} {par node : ℕ} {name : Str} {o oq : Extent}
    {data : List UInt8} (h : Adding s u A par node name o oq data) (hqd : oq.header.type = inodeTypeDir)
    {header : Header} (hv : header.isvalid = oq.header.isvalid) (ht : header.type = oq.header.type) :
    entries (Function.update (Function.update A (fields s par ++ [name]) (some o)) (fields s par)
      (some ⟨header, data⟩)) = Function.update (entries A) (fields s par ++ [name]) (some o.entry) := by
  rw [entries_rewrite h.entry, entries_update]
  exact entry_eq hv ht fun hd => absurd hqd hd

theorem Adding.inside {s u : Volume} {A : Image} {par node : ℕ} {name : Str} {o oq : Extent}
    {data : List UInt8} (h : Adding s u A par node name o oq data)
    (hqd : oq.header.type = inodeTypeDir) (hroom : data.length ≤ 512 * oq.header.alloc)
    (gparent : Option ℕ) : Sets u (inodeChildSet u par (.add name o.header.index) gparent) A
      (fields s par ++ [name]) o.entry := by
  have hhold := h.holds
  have hw := hhold.words h.entry
  have hqs := hhold.start _ oq h.entry
  have hword := h.word
  have hcount := h.count
  have hindex : (u.inodes par).index = oq.header.index := congrArg Header.index h.header
  have halloc : (u.inodes par).alloc = oq.header.alloc := congrArg Header.alloc h.header
  have hsize : (u.inodes par).size = oq.header.size := congrArg Header.size h.header
  have hcc : (u.inodes par).childCount = oq.header.childCount := congrArg Header.childCount h.header
  have hr := @inodeChildSet_retabled u _ _ gparent
    (by rw [h.header]; exact hhold.fits h.entry) (by rw [h.table]; exact hword) (by rw [h.table, halloc]; exact hroom)
  rw [h.table] at hr
  generalize inodeChildSet u par (.add name o.header.index) gparent = t at hr ⊢
  have hhead : (t.inodes par).toHeader =
      { oq.header with size := data.length, childCount := oq.header.childCount + 1 } := by
    have hmod : (oq.header.childCount + 1) % 2 ^ 32 = oq.header.childCount + 1 := Nat.mod_eq_of_lt hcount
    rw [hr.inodes, Function.update_self, hsize, max_eq_right h.longer.le, ChildOperation.count, hcc, hmod,
      ← h.header]
    rfl
  refine ⟨_, ⟨hhold.retabled h.entry h.header h.longer.le hroom ?_ hr, ?_, ?_⟩, ?_,
    fun hsaved => hsaved.congr (hr.frame 0 (by omega)) hr.ballocPtr, fun c _ => ?_⟩
  · rw [hhead]
    exact ⟨hw.isvalid, hw.index, hword, hw.alloc, hcount, hw.type⟩
  · rw [hr.frame 1 (by omega), h.root]
    refine h.tree _ ?_ ?_ ?_ rfl
    · rw [hhead]
    · rw [hhead]
    · rw [hhead]
  · have hc := h.cached.update (t := t) (o := ⟨(t.inodes par).toHeader, data⟩) h.mem hr.inodelist
      (fun c hc => by rw [hr.inodes, Function.update_of_ne hc])
      (by rw [hr.inodes, Function.update_self]; rfl) rfl
    rwa [h.path] at hc
  · apply h.entries_retabled hqd
    · rw [hhead]
    · rw [hhead]
  · rw [hr.inodes]
    exact update_isvalid (by rfl) c

theorem Adding.over {s u : Volume} {A : Image} {par node : ℕ} {name : Str} {o oq : Extent}
    {data : List UInt8} (h : Adding s u A par node name o oq data)
    (hover : 512 * oq.header.alloc < data.length) (gparent : Option ℕ) :
    ∃ v, inodeChildSet u par (.add name o.header.index) gparent =
        inodeUpdate (storeBytes (inodeRealloc v par (sectorsFor 0 data.length) gparent) par 0 data) par ∧
      v.disk = u.disk ∧ v.ballocPtr = u.ballocPtr ∧ v.inodelist = u.inodelist ∧
      v.inodes = Function.update u.inodes par (withCount (u.inodes par) (oq.header.childCount + 1)) := by
  have hcc : (u.inodes par).childCount = oq.header.childCount := congrArg Header.childCount h.header
  have halloc : (u.inodes par).alloc = oq.header.alloc := congrArg Header.alloc h.header
  have hmod : (oq.header.childCount + 1) % 2 ^ 32 = oq.header.childCount + 1 := Nat.mod_eq_of_lt h.count
  have hfits := h.holds.fits h.entry
  have hfu : Fits (u.inodes par).toHeader := by rwa [h.header]
  have hword := h.word
  obtain ⟨v, hv, hinodes⟩ : ∃ v, v = setInode u par (fun n => withCount n
      ((ChildOperation.add name o.header.index).count n.childCount)) ∧
      v.inodes = Function.update u.inodes par (withCount (u.inodes par) (oq.header.childCount + 1)) := by
    refine ⟨_, rfl, ?_⟩
    rw [← hmod, ← hcc]
    rfl
  have hnode : v.inodes par = withCount (u.inodes par) (oq.header.childCount + 1) := by
    rw [hinodes, Function.update_self]
  refine ⟨v, ?_, by rw [hv]; rfl, by rw [hv]; rfl, by rw [hv]; rfl, hinodes⟩
  have hfv : Fits (v.inodes par).toHeader := by
    rw [hnode]
    exact ⟨hfu.disk, hfu.room, hfu.word⟩
  have hva : (v.inodes par).alloc = oq.header.alloc := by rw [hnode]; exact halloc
  rw [inodeChildSet_eq _ _ hfu, h.table, ← hv,
    inodeWrite_over hfv (by omega) (by omega) (by rw [hva]; omega)]
  rfl

theorem Adding.final_header {s u v r t : Volume} {A : Image} {par node sectors : ℕ} {name : Str}
    {gparent : Option ℕ} {o oq : Extent} {data : List UInt8} (h : Adding s u A par node name o oq data)
    (hv : v.inodes = Function.update u.inodes par (withCount (u.inodes par) (oq.header.childCount + 1)))
    (hrel : Relocated v r par gparent sectors)
    (ht : t.inodes = Function.update r.inodes par (withSize (r.inodes par) data.length)) :
    (t.inodes par).toHeader = { oq.header with
      index := v.ballocPtr, alloc := sectors, size := data.length
      childCount := oq.header.childCount + 1 } := by
  rw [ht, Function.update_self, hrel.inodes, Function.update_self, hv, Function.update_self, ← h.header]
  rfl

theorem final_isvalid {u v r t : Volume} {par sectors count size : ℕ} {gparent : Option ℕ}
    (hv : v.inodes = Function.update u.inodes par (withCount (u.inodes par) count))
    (hrel : Relocated v r par gparent sectors)
    (ht : t.inodes = Function.update r.inodes par (withSize (r.inodes par) size)) (c : ℕ) :
    (t.inodes c).isvalid = (u.inodes c).isvalid := by
  calc (t.inodes c).isvalid = (r.inodes c).isvalid := by
        rw [ht]
        exact update_isvalid (by rfl) c
    _ = (v.inodes c).isvalid := by
        rw [hrel.inodes]
        exact update_isvalid (by rfl) c
    _ = (u.inodes c).isvalid := by
        rw [hv]
        exact update_isvalid (by rfl) c

theorem Adding.final_cached {s u v r t : Volume} {A : Image} {par node sectors : ℕ} {name : Str}
    {gparent : Option ℕ} {o oq : Extent} {data : List UInt8} (h : Adding s u A par node name o oq data)
    (hvl : v.inodelist = u.inodelist)
    (hv : v.inodes = Function.update u.inodes par (withCount (u.inodes par) (oq.header.childCount + 1)))
    (hrel : Relocated v r par gparent sectors) (htl : t.inodelist = r.inodelist)
    (ht : t.inodes = Function.update r.inodes par (withSize (r.inodes par) data.length)) :
    Cached t (Function.update (Function.update A (fields s par ++ [name]) (some o)) (fields s par)
      (some ⟨(t.inodes par).toHeader, data⟩)) := by
  have hc := h.cached.update (t := t) (o := ⟨(t.inodes par).toHeader, data⟩) h.mem
    (htl.trans (hrel.inodelist.trans hvl))
    (fun c hc => by
      rw [ht, Function.update_of_ne hc, hrel.inodes, Function.update_of_ne hc, hv, Function.update_of_ne hc])
    (by
      rw [ht, Function.update_self, hrel.inodes, Function.update_self, hv, Function.update_self]
      rfl) rfl
  rwa [h.path] at hc

theorem Adding.moved_root {s u : Volume} {A : Image} {par node : ℕ} {name : Str} {o oq : Extent}
    {data : List UInt8} (h : Adding s u A par node name o oq data) (hqd : oq.header.type = inodeTypeDir)
    (hover : 512 * oq.header.alloc < data.length) (hpath : fields s par = [])
    (hroom : u.ballocPtr + sectorsFor 0 data.length < 2 ^ 28) :
    Sets u (inodeChildSet u par (.add name o.header.index) none) A (fields s par ++ [name]) o.entry := by
  have hhold := h.holds
  have hw := hhold.words h.entry
  have hword := h.word
  have hcount := h.count
  obtain ⟨v, he, hvd, hvp, hvl, hv⟩ := h.over hover none
  have hvn : v.inodes par = withCount (u.inodes par) (oq.header.childCount + 1) := by
    rw [hv, Function.update_self]
  rw [← hvd, ← hvp] at hhold
  have hsec : data.length ≤ 512 * sectorsFor 0 data.length := by
    unfold sectorsFor
    omega
  obtain ⟨hrel, hrh⟩ := @Holds.realloc_root _ _ _ _ _ (sectorsFor 0 data.length) hhold h.entry
    (by rw [hvn]; exact (congrArg Header.index h.header :)) (by rw [hvn]; exact (congrArg Header.size h.header :))
    (by rw [hvn]; exact (congrArg Header.alloc h.header :))
    (by
      rw [hvn]
      have hu := h.header
      rw [← hu] at hw
      exact ⟨hw.isvalid, hw.index, hw.size, hw.alloc, hcount, hw.type⟩)
    (by omega) (by rw [hvp]; exact hroom)
  have hvi : (v.inodes par).index = oq.header.index := by
    rw [hvn]
    exact (congrArg Header.index h.header :)
  have hva : (v.inodes par).alloc = oq.header.alloc := by
    rw [hvn]
    exact (congrArg Header.alloc h.header :)
  have hqs := hhold.start _ oq h.entry
  have hqb := hhold.below _ oq h.entry
  have hsaved : Saved (inodeRealloc v par (sectorsFor 0 data.length) none) :=
    Relocated.saved (by omega) (by omega) (by omega) (by rw [hvp]; exact hroom) (by simp)
  rw [he]
  generalize inodeRealloc v par (sectorsFor 0 data.length) none = r at hrel hrh hsaved ⊢
  have hra : (r.inodes par).alloc = sectorsFor 0 data.length := by
    rw [hrel.inodes, Function.update_self]
    rfl
  have hlong := h.longer
  have hlen := hhold.length_bytes h.entry
  obtain ⟨t, ht, hti, htd, htp, htl, hth⟩ := hrh.tableMoved
    (Function.update_self ..) (by omega) (by omega) hword (by rw [hra]; exact hsec)
  rw [ht]
  have hhead := h.final_header hv hrel hti
  rw [Function.update_idem] at hth
  refine ⟨_, ⟨hth, ?_, h.final_cached hvl hv hrel htl hti⟩,
    h.entries_retabled hqd (by rw [hhead]) (by rw [hhead]), fun _ => hsaved.congr (htd 0 (by omega)) htp,
    fun c _ => final_isvalid hv hrel hti c⟩
  have htree := h.tree ⟨{ oq.header with childCount := oq.header.childCount + 1 }, data⟩ rfl rfl rfl rfl
  have hmove := @Tree.move_root _ _
    ⟨{ oq.header with childCount := oq.header.childCount + 1 }, data⟩
    ⟨(t.inodes par).toHeader, data⟩ htree (by rw [hpath, Function.update_self]) (by rw [hhead])
    (by rw [hhead]) rfl
  rw [hpath, Function.update_idem] at hmove
  rw [hpath, htd 1 (by omega), hrel.root rfl]
  have hi : (t.inodes par).index = v.ballocPtr := (congrArg Header.index hhead :)
  rwa [hi] at hmove

theorem Adding.moved_child {s u : Volume} {A : Image} {par node g : ℕ} {name m : Str} {o oq og : Extent}
    {data : List UInt8} (h : Adding s u A par node name o oq data) (hqd : oq.header.type = inodeTypeDir)
    (hover : 512 * oq.header.alloc < data.length) (hpath : fields s par = fields s g ++ [m])
    (hg : A (fields s g) = some og) (hgd : og.header.type = inodeTypeDir)
    (hgn : (u.inodes g).toHeader = og.header) (hne : g ≠ par)
    (hroom : u.ballocPtr + sectorsFor 0 data.length < 2 ^ 28) :
    Sets u (inodeChildSet u par (.add name o.header.index) (some g)) A (fields s par ++ [name]) o.entry := by
  have hhold := h.holds
  have hw := hhold.words h.entry
  have hword := h.word
  have hcount := h.count
  have hgp : fields s g ≠ fields s par := by
    rw [hpath]
    simp
  have hgB : Function.update A (fields s par ++ [name]) (some o) (fields s g) = some og := by
    rw [Function.update_of_ne (by rw [hpath]; simp), hg]
  obtain ⟨v, he, hvd, hvp, hvl, hv⟩ := h.over hover (some g)
  have hvn : v.inodes par = withCount (u.inodes par) (oq.header.childCount + 1) := by
    rw [hv, Function.update_self]
  have hname : nodeName v par = m := by
    have hp := h.path
    rw [hpath] at hp
    simp only [fields] at hp
    simp [nodeName, pathbufName, hvn, withCount, hp]
  have hgv : (v.inodes g).toHeader = og.header := by rw [hv, Function.update_of_ne hne, hgn]
  have hsec : data.length ≤ 512 * sectorsFor 0 data.length := by
    unfold sectorsFor
    omega
  rw [← hvd, ← hvp] at hhold
  obtain ⟨hrel, hrh⟩ := @Holds.realloc_child _ _ _ _ _ _ _ _
    (sectorsFor 0 data.length) hhold h.entry
    (by rw [hvn]; exact (congrArg Header.index h.header :)) (by rw [hvn]; exact (congrArg Header.size h.header :))
    (by rw [hvn]; exact (congrArg Header.alloc h.header :))
    (by
      rw [hvn]
      have hu := h.header
      rw [← hu] at hw
      exact ⟨hw.isvalid, hw.index, hw.size, hw.alloc, hcount, hw.type⟩)
    (by omega) (by rw [hvp]; exact hroom) hgB hgp hgv hne
  have hvi : (v.inodes par).index = oq.header.index := by
    rw [hvn]
    exact (congrArg Header.index h.header :)
  have hva : (v.inodes par).alloc = oq.header.alloc := by
    rw [hvn]
    exact (congrArg Header.alloc h.header :)
  have hgs := hhold.start _ og hgB
  have hgb := hhold.below _ og hgB
  have hgi : (v.inodes g).index = og.header.index := congrArg Header.index hgv
  have hga : (v.inodes g).alloc = og.header.alloc := congrArg Header.alloc hgv
  have hqs := hhold.start _ oq h.entry
  have hqb := hhold.below _ oq h.entry
  have hsaved : Saved (inodeRealloc v par (sectorsFor 0 data.length) (some g)) := by
    apply Relocated.saved (by omega) (by omega) (by omega) (by rw [hvp]; exact hroom)
    intro p hp
    obtain rfl := Option.some.inj hp
    exact ⟨hne, by rw [hgv]; exact hhold.fits hgB, by omega, by omega⟩
  rw [he]
  generalize inodeRealloc v par (sectorsFor 0 data.length) (some g) = r at hrel hrh hsaved ⊢
  have hra : (r.inodes par).alloc = sectorsFor 0 data.length := by
    rw [hrel.inodes, Function.update_self]
    rfl
  have hlong := h.longer
  have hlen := hhold.length_bytes h.entry
  obtain ⟨t, ht, hti, htd, htp, htl, hth⟩ := hrh.tableMoved (q := fields s par)
    (by rw [Function.update_of_ne hgp.symm, Function.update_self]) (by omega)
    (by omega) hword (by rw [hra]; exact hsec)
  rw [ht]
  have hhead := h.final_header hv hrel hti
  rw [hname, Function.update_comm hgp, Function.update_idem] at hth
  have hgB' : Function.update (Function.update A (fields s par ++ [name]) (some o)) (fields s par)
      (some ⟨(t.inodes par).toHeader, data⟩) (fields s g) = some og := by
    rw [Function.update_of_ne hgp, hgB]
  refine ⟨_, ⟨hth, ?_, ?_⟩, ?_, fun _ => hsaved.congr (htd 0 (by omega)) htp,
    fun c _ => final_isvalid hv hrel hti c⟩
  · have hroot : r.disk 1 = v.disk 1 := by
      refine hrel.frame 1 (by omega) (by omega) (fun p hp => ?_) (by simp)
      obtain rfl := Option.some.inj hp
      omega
    rw [htd 1 (by omega), hroot, hvd, h.root]
    have htree := h.tree ⟨{ oq.header with childCount := oq.header.childCount + 1 }, data⟩ rfl rfl rfl rfl
    have hi : (t.inodes par).index = v.ballocPtr := (congrArg Header.index hhead :)
    have hmove := @Tree.move _ _ (fields s g) m
      ⟨{ oq.header with childCount := oq.header.childCount + 1 }, data⟩
      ⟨(t.inodes par).toHeader, data⟩ og
      ⟨og.header, (childtableEditIndex ⟨og.bytes, og.header.alloc⟩ m v.ballocPtr).data⟩ htree
      (by rw [← hpath, Function.update_self]) (by rw [hhead]) (by rw [hhead]) rfl
      (by rw [Function.update_of_ne hgp, hgB]) rfl ⟨og.header.alloc, by rw [← hi]⟩
    rwa [← hpath, Function.update_idem] at hmove
  · have hc := h.final_cached hvl hv hrel htl hti
    exact hc.edit hgB' rfl
  · rw [entries_rewrite hgB']
    rotate_left
    · exact entry_eq rfl rfl fun hd => absurd hgd hd
    exact h.entries_retabled hqd (by rw [hhead]) (by rw [hhead])

theorem Layout.create_sets {s : Volume} {A : Image} {par node : ℕ} {name : Str} {gparent : Option ℕ}
    (h : Layout s A) (hc : CreateCall s A par name node gparent) (dir : ℕ) :
    ∃ t, inodeCreate s dir par name node gparent = some t ∧
      Sets s t A (fields s node) ⟨1, if dir ≠ 0 then inodeTypeDir else inodeTypeFile, []⟩ := by
  obtain ⟨oq₀, hq₀, hqd⟩ := hc.dir
  have hqs := h.holds.start _ oq₀ hq₀
  have hqb := h.holds.below _ oq₀ hq₀
  obtain ⟨u, he, hu, hsaved⟩ := inodeCreate_allotted dir par node gparent hc.short (by omega) hc.limit
  obtain ⟨oq, data, hadd, hq, hlen⟩ := h.adding hc hu
  obtain rfl := Option.some.inj (hq₀.symm.trans hq)
  have hparn := h.cached.agree par hc.parent.mem oq₀ hq
  have hsize : (s.inodes par).size = oq₀.header.size := congrArg Header.size hparn
  have halloc : (s.inodes par).alloc = oq₀.header.alloc := congrArg Header.alloc hparn
  have hroom := hc.room
  rw [hsize, halloc, ← hlen, ← hu.ballocPtr] at hroom
  rw [he]
  have hentry : Extent.entry ⟨newHeader s.ballocPtr dir, []⟩ =
      ⟨1, if dir ≠ 0 then inodeTypeDir else inodeTypeFile, []⟩ := by
    rw [Extent.entry, ite_self]
    rfl
  suffices hgoal : Sets u (inodeChildSet u par (.add name s.ballocPtr) gparent) A (fields s par ++ [name])
      (Extent.entry ⟨newHeader s.ballocPtr dir, []⟩) by
    obtain ⟨B, hB, hBe, hBs, hBv⟩ := hgoal
    rw [hentry, ← hc.parent.fields] at hBe
    refine ⟨_, rfl, B, hB, hBe, fun _ => hBs hsaved, fun c hcn => ?_⟩
    have hne : c ≠ node := fun he => hcn (by rw [he])
    have hpath : fields u c = fields s c := by rw [fields, hu.other c hne]
    rw [hBv c (by rw [hpath, ← hc.parent.fields]; exact hcn), hu.other c hne]
  rcases Nat.lt_or_ge (512 * oq₀.header.alloc) data.length with hover | hfit
  · rcases hc.grand with ⟨rfl, hroot⟩ | ⟨g, m, rfl, hg⟩
    · exact hadd.moved_root hqd hover hroot (hroom hover)
    · have hpath := hg.fields
      rw [hpath] at hq
      obtain ⟨og, hog, hogd⟩ := h.tree.parents _ m oq₀ hq
      have hgnode : g ≠ node := by
        rintro rfl
        have hp := hc.parent.fields
        rw [hpath] at hp
        simp at hp
      have hgn : (u.inodes g).toHeader = og.header := by
        rw [hu.other g hgnode]
        exact h.cached.agree g hg.mem og hog
      exact hadd.moved_child hqd hover hpath hog hogd hgn hg.ne (hroom hover)
  · exact hadd.inside hqd hfit gparent

theorem Layout.create {s : Volume} {A : Image} {par node : ℕ} {name : Str} {gparent : Option ℕ}
    (h : Layout s A) (hc : CreateCall s A par name node gparent) (dir : ℕ) :
    ∃ t B, inodeCreate s dir par name node gparent = some t ∧ Layout t B := by
  obtain ⟨t, ht, B, hB, -⟩ := h.create_sets hc dir
  exact ⟨t, B, ht, hB⟩

inductive Operation
  | create (dir par : ℕ) (name : Str) (node : ℕ) (gparent : Option ℕ)
  | write (node bytesFrom : ℕ) (buffer : List UInt8) (par : ℕ)
  | truncate (node : ℕ)

def perform (s : Volume) : Operation → Option Volume
  | .create dir par name node gparent => inodeCreate s dir par name node gparent
  | .write node bytesFrom buffer par => some (inodeWrite s node bytesFrom buffer (some par))
  | .truncate node => some (inodeTruncate s node)

/-- A fresh name for a new inode, a file for the other operations, and the real parents. -/
def Legal (s : Volume) (A : Image) : Operation → Prop
  | .create _ par name node gparent => CreateCall s A par name node gparent
  | .write node bytesFrom buffer par => FileWrite s A node bytesFrom buffer par
  | .truncate node =>
    node ∈ s.inodelist ∧ ∃ o, A (fields s node) = some o ∧ o.header.type ≠ inodeTypeDir

/-- Each operation succeeds and keeps the layout invariant, also when an inode has to be moved. -/
theorem layout_perform (s : Volume) (A : Image) (op : Operation) (h : Layout s A) (hl : Legal s A op) :
    ∃ t B, perform s op = some t ∧ Layout t B := by
  cases op with
  | create dir par name node gparent => exact h.create hl dir
  | write node bytesFrom buffer par =>
    obtain ⟨B, hB⟩ := h.write hl
    exact ⟨_, B, rfl, hB⟩
  | truncate node =>
    obtain ⟨hmem, o, ho, hfile⟩ := hl
    obtain ⟨B, hB⟩ := h.truncate hmem ho hfile
    exact ⟨_, B, rfl, hB⟩

def rootHeader : Header := ⟨1, 2, 0, 0, 0, inodeTypeDir⟩

/-- An empty root directory in sector 2, and the cached inode of a name that it does not have. -/
def emptyRoot : Volume where
  disk := fun sec => if sec = 1 then putWord (fun _ => 0) 0 2 else
    inodeImage (fun _ _ => 0) ⟨rootHeader, 1, pathbufRoot, none⟩
  ballocPtr := 3
  inodes := fun p => if p = 0 then ⟨rootHeader, 1, pathbufRoot, none⟩
    else ⟨⟨0, 0, 0, 0, 0, 0⟩, 1, pathbufChild pathbufRoot fileName, none⟩
  inodelist := [0, 1]
  nextInode := 2
  freed := []
  junk := fun _ => 0
  tail := fun _ _ => 0
  stray := fileName

def emptyImage : Image := fun p => if p = [] then some ⟨rootHeader, []⟩ else none

theorem emptyImage_some {p : List Str} {o : Extent} (h : emptyImage p = some o) :
    p = [] ∧ o = ⟨rootHeader, []⟩ := by
  unfold emptyImage at h
  split_ifs at h with hp
  exact ⟨hp, (Option.some.inj h).symm⟩

theorem emptyRoot_layout : Layout emptyRoot emptyImage := by
  refine ⟨⟨by decide, ?_, ?_, ?_, ?_, ?_, ?_⟩, ⟨⟨_, rfl, rfl, ?_⟩, ?_, ?_⟩, ⟨?_, ?_⟩⟩
  · rintro p o h
    obtain ⟨rfl, rfl⟩ := emptyImage_some h
    decide
  · rintro p o h
    obtain ⟨rfl, rfl⟩ := emptyImage_some h
    decide
  · rintro p o h
    obtain ⟨rfl, rfl⟩ := emptyImage_some h
    decide
  · rintro p q o k h h' hne
    exact absurd ((emptyImage_some h).1.trans (emptyImage_some h').1.symm) hne
  · rintro p o h
    obtain ⟨rfl, rfl⟩ := emptyImage_some h
    exact @inodeFetch_of_image _ _ (fun _ _ => 0) ⟨rootHeader, 1, pathbufRoot, none⟩
      ⟨by decide, by decide, by decide, by decide, by decide, by decide⟩ fun _ _ => rfl
  · rintro p o h
    obtain ⟨rfl, rfl⟩ := emptyImage_some h
    rfl
  · exact wordAt_putWord _ 0 2
  · rintro p o h -
    obtain ⟨rfl, rfl⟩ := emptyImage_some h
    exact ⟨[], rfl, by simp, rfl, fun n i => by simp [emptyImage]⟩
  · rintro p n k h
    simp [emptyImage] at h
  · decide
  · rintro c hc o h
    obtain ⟨hp, rfl⟩ := emptyImage_some h
    rcases List.mem_cons.mp hc with rfl | hc
    · rfl
    · obtain rfl := List.mem_singleton.mp hc
      cases hp

theorem layout_first_file : ∃ t B, perform emptyRoot (.create 0 0 fileName 1 none) = some t ∧ Layout t B :=
  layout_perform emptyRoot emptyImage (.create 0 0 fileName 1 none) emptyRoot_layout
    ⟨by decide, ⟨by decide, rfl⟩, Or.inl ⟨rfl, rfl⟩, ⟨_, rfl, rfl⟩, rfl, by decide, by decide, by decide,
      by decide, by decide⟩

end Eedox.Fs
