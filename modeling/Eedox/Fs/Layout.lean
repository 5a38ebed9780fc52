import Eedox.Fs.ReadWrite

namespace Eedox.Fs

open Util Library.Bytes Ata Pathbuf Childtable

structure Extent where
  header : Header
  bytes : List UInt8

/-- The inodes that the directory records lead to, by path. -/
abbrev Image := List Str → Option Extent

/-- The extents of the image lie apart between sector 2 and the allocation pointer, and the disk holds
their headers and bytes. -/
structure Holds (d : Disk) (ptr : ℕ) (A : Image) : Prop where
  limit : ptr ≤ 2 ^ 28
  start : ∀ p o, A p = some o → 2 ≤ o.header.index
  below : ∀ p o, A p = some o → o.header.index + o.header.alloc < ptr
  room : ∀ p o, A p = some o → o.header.size ≤ 512 * o.header.alloc
  disjoint : ∀ p q o k, A p = some o → A q = some k → p ≠ q →
    o.header.index + o.header.alloc < k.header.index ∨ k.header.index + k.header.alloc < o.header.index
  header : ∀ p o, A p = some o → inodeFetch d o.header.index = o.header
  bytes : ∀ p o, A p = some o → slice (content d o.header.index) 0 o.header.size = o.bytes

/-- A table with these bytes and this many records names the children of `p` and their indices. -/
def Lists (A : Image) (p : List Str) (bytes : List UInt8) (childCount : ℕ) : Prop :=
  ∃ rs, bytes = encode rs ∧ (rs.map Prod.fst).Nodup ∧ childCount = rs.length ∧
    ∀ n i, (n, i) ∈ rs ↔ ∃ k, A (p ++ [n]) = some k ∧ k.header.index = i

def IsDir (A : Image) (p : List Str) : Prop := ∃ o, A p = some o ∧ o.header.type = inodeTypeDir

/-- What of an inode its users see. -/
structure Entry where
  isvalid : ℕ
  type : ℕ
  bytes : List UInt8

def Extent.entry (o : Extent) : Entry :=
  ⟨o.header.isvalid, o.header.type, if o.header.type = inodeTypeDir then [] else o.bytes⟩

def entries (A : Image) (p : List Str) : Option Entry := (A p).map Extent.entry

/-- The records of every directory name its children's indices, each child once. -/
structure Tree (root : ℕ) (A : Image) : Prop where
  root : ∃ o, A [] = some o ∧ o.header.type = inodeTypeDir ∧ root = o.header.index
  dirs : ∀ p o, A p = some o → o.header.type = inodeTypeDir → Lists A p o.bytes o.header.childCount
  parents : ∀ p n k, A (p ++ [n]) = some k → IsDir A p

structure Cached (s : Volume) (A : Image) : Prop where
  unique : ∀ c ∈ s.inodelist, ∀ c' ∈ s.inodelist,
    (s.inodes c).pathbuf.fields = (s.inodes c').pathbuf.fields → c = c'
  agree : ∀ c ∈ s.inodelist, ∀ o, A (s.inodes c).pathbuf.fields = some o →
    (s.inodes c).toHeader = o.header

structure Layout (s : Volume) (A : Image) : Prop where
  holds : Holds s.disk s.ballocPtr A
  tree : Tree (wordAt (s.disk 1) 0) A
  cached : Cached s A

theorem Holds.words {d : Disk} {ptr : ℕ} {A : Image} {p : List Str} {o : Extent} (h : Holds d ptr A)
    (ho : A p = some o) : Words o.header := by
  rw [← h.header p o ho]
  exact words_fetch _ _

theorem Holds.fits {d : Disk} {ptr : ℕ} {A : Image} {p : List Str} {o : Extent} (h : Holds d ptr A)
    (ho : A p = some o) : Fits o.header :=
  ⟨(h.below p o ho).trans_le h.limit, h.room p o ho, (h.words ho).size⟩

theorem Holds.length_bytes {d : Disk} {ptr : ℕ} {A : Image} {p : List Str} {o : Extent}
    (h : Holds d ptr A) (ho : A p = some o) : o.bytes.length = o.header.size := by
  rw [← h.bytes p o ho, length_slice]

theorem Holds.update {d e : Disk} {ptr ptr' : ℕ} {A : Image} {p : List Str} {o : Extent}
    (h : Holds d ptr A) (hptr : ptr ≤ ptr') (hlim : ptr' ≤ 2 ^ 28)
    (hplace : (∃ old, A p = some old ∧ old.header.index = o.header.index ∧
      o.header.alloc ≤ old.header.alloc) ∨ ptr ≤ o.header.index)
    (hstart : 2 ≤ o.header.index) (hbelow : o.header.index + o.header.alloc < ptr')
    (hroom : o.header.size ≤ 512 * o.header.alloc) (hheader : inodeFetch e o.header.index = o.header)
    (hbytes : slice (content e o.header.index) 0 o.header.size = o.bytes)
    (hframe : ∀ q k, q ≠ p → A q = some k → ∀ sec, k.header.index ≤ sec →
      sec ≤ k.header.index + k.header.alloc → e sec = d sec) :
    Holds e ptr' (Function.update A p (some o)) := by
  have hcases (q : List Str) (k : Extent) (hk : Function.update A p (some o) q = some k) :
      q = p ∧ k = o ∨ q ≠ p ∧ A q = some k := by
    by_cases hq : q = p
    · subst hq
      rw [Function.update_self] at hk
      exact Or.inl ⟨rfl, (Option.some.inj hk).symm⟩
    · rw [Function.update_of_ne hq] at hk
      exact Or.inr ⟨hq, hk⟩
  have hapart (q : List Str) (k : Extent) (hq : q ≠ p) (hk : A q = some k) :
      o.header.index + o.header.alloc < k.header.index ∨
        k.header.index + k.header.alloc < o.header.index := by
    have hkb := h.below q k hk
    rcases hplace with ⟨old, hold, hi, ha⟩ | hfresh
    · have := h.disjoint p q old k hold hk (Ne.symm hq)
      omega
    · omega
  refine ⟨hlim, ?_, ?_, ?_, ?_, ?_, ?_⟩
  · intro q k hk
    rcases hcases q k hk with ⟨-, rfl⟩ | ⟨-, hk⟩
    · exact hstart
    · exact h.start q k hk
  · intro q k hk
    rcases hcases q k hk with ⟨-, rfl⟩ | ⟨-, hk⟩
    · exact hbelow
    · exact (h.below q k hk).trans_le hptr
  · intro q k hk
    rcases hcases q k hk with ⟨-, rfl⟩ | ⟨-, hk⟩
    · exact hroom
    · exact h.room q k hk
  · intro q r k l hk hl hne
    rcases hcases q k hk with ⟨rfl, rfl⟩ | ⟨hq, hk'⟩
    · rcases hcases r l hl with ⟨rfl, rfl⟩ | ⟨hr, hl'⟩
      · exact absurd rfl hne
      · exact hapart r l hr hl'
    · rcases hcases r l hl with ⟨rfl, rfl⟩ | ⟨hr, hl'⟩
      · exact (hapart q k hq hk').symm
      · exact h.disjoint q r k l hk' hl' hne
  · intro q k hk
    rcases hcases q k hk with ⟨-, rfl⟩ | ⟨hq, hk⟩
    · exact hheader
    · have hkb := h.below q k hk
      have hlim' := h.limit
      rw [← h.header q k hk]
      have hsame := hframe q k hq hk k.header.index le_rfl (Nat.le_add_right _ _)
      rw [h.header q k hk]
      refine (inodeFetch_congr fun o _ => ?_).trans (h.header q k hk)
      rw [lba_of_lt (by omega), hsame]
  · intro q k hk
    rcases hcases q k hk with ⟨-, rfl⟩ | ⟨hq, hk⟩
    · exact hbytes
    · have hr := h.room q k hk
      rw [← h.bytes q k hk]
      apply slice_congr
      intro j _ hj
      rw [content, content, hframe q k hq hk _ (by omega) (by omega)]

theorem Holds.congr {d e : Disk} {ptr : ℕ} {A : Image} (h : Holds d ptr A)
    (hd : ∀ sec, 2 ≤ sec → e sec = d sec) : Holds e ptr A := by
  refine ⟨h.limit, h.start, h.below, h.room, h.disjoint, fun p o ho => ?_, fun p o ho => ?_⟩
  · have hs := h.start p o ho
    have hb := h.below p o ho
    have hl := h.limit
    refine (inodeFetch_congr fun j _ => ?_).trans (h.header p o ho)
    rw [lba_of_lt (by omega), hd _ hs]
  · have hs := h.start p o ho
    rw [← h.bytes p o ho]
    apply slice_congr
    intro j _ _
    rw [content, content, hd _ (by omega)]

theorem Holds.grow {d : Disk} {ptr ptr' : ℕ} {A : Image} (h : Holds d ptr A) (hptr : ptr ≤ ptr')
    (hlim : ptr' ≤ 2 ^ 28) : Holds d ptr' A :=
  ⟨hlim, h.start, fun p o ho => (h.below p o ho).trans_le hptr, h.room, h.disjoint, h.header, h.bytes⟩

theorem Holds.stored {s t : Volume} {A : Image} {p : List Str} {o : Extent} {node bytesFrom : ℕ}
    {buffer : List UInt8} (h : Holds s.disk s.ballocPtr A) (ho : A p = some o)
    (hn : (s.inodes node).toHeader = o.header) (hfrom : bytesFrom ≤ o.header.size)
    (hroom : bytesFrom + buffer.length ≤ 512 * o.header.alloc)
    (hst : Stored s t node bytesFrom buffer) : Holds t.disk t.ballocPtr
      (Function.update A p (some ⟨(t.inodes node).toHeader, overlay o.bytes bytesFrom buffer⟩)) := by
  have hhead : (t.inodes node).toHeader =
      { o.header with size := max o.header.size (bytesFrom + buffer.length) } := by
    rw [hst.inodes, Function.update_self, ← hn]
    rfl
  have hindex : (s.inodes node).index = o.header.index := congrArg Header.index hn
  have halloc : (s.inodes node).alloc = o.header.alloc := congrArg Header.alloc hn
  have hr := h.room p o ho
  have hframe := hst.frame
  rw [hindex, halloc] at hframe
  rw [hst.ballocPtr]
  apply h.update le_rfl h.limit
  · exact Or.inl ⟨o, ho, by rw [hhead], by rw [hhead]⟩
  · rw [hhead]
    exact h.start p o ho
  · rw [hhead]
    exact h.below p o ho
  · rw [hhead]
    simp only
    omega
  · have hfetch := hst.header (by rw [hn]; exact h.words ho) (by rw [hindex, hn]; exact h.header p o ho)
    have hi : (t.inodes node).index = o.header.index := by rw [hhead]
    change inodeFetch t.disk (t.inodes node).index = (t.inodes node).toHeader
    rw [hi, ← hindex, hfetch]
  · simp only [hhead]
    rw [← h.bytes p o ho, overlay_slice hfrom]
    apply slice_congr
    intro k _ hk
    have hk' := hst.content k (by rw [halloc]; omega)
    rwa [hindex] at hk'
  · intro q k hq hk sec h1 h2
    have := h.disjoint q p k o hk ho hq
    exact hframe sec (by omega)

theorem Holds.tableAfter_eq {s : Volume} {A : Image} {p : List Str} {o : Extent} {node : ℕ}
    (h : Holds s.disk s.ballocPtr A) (ho : A p = some o) (hn : (s.inodes node).toHeader = o.header)
    (op : ChildOperation) : tableAfter s node op = (op.table ⟨o.bytes, o.header.alloc⟩).data := by
  have hi : (s.inodes node).index = o.header.index := congrArg Header.index hn
  have hs : (s.inodes node).size = o.header.size := congrArg Header.size hn
  have ha : (s.inodes node).alloc = o.header.alloc := congrArg Header.alloc hn
  rw [tableAfter, hi, hs, ha, h.bytes p o ho]

theorem Holds.retabled {s t : Volume} {A : Image} {p : List Str} {o : Extent} {node : ℕ}
    {op : ChildOperation} {data : List UInt8} (h : Holds s.disk s.ballocPtr A) (ho : A p = some o)
    (hn : (s.inodes node).toHeader = o.header) (hlen : o.header.size ≤ data.length)
    (hroom : data.length ≤ 512 * o.header.alloc) (hw : Words (t.inodes node).toHeader)
    (hr : Retabled s t node op data) : Holds t.disk t.ballocPtr
      (Function.update A p (some ⟨(t.inodes node).toHeader, data⟩)) := by
  have hhead : (t.inodes node).toHeader =
      { o.header with size := data.length, childCount := op.count o.header.childCount } := by
    have hs : (s.inodes node).size = o.header.size := congrArg Header.size hn
    rw [hr.inodes, Function.update_self, ← hn, hs, max_eq_right hlen]
    rfl
  have hindex : (s.inodes node).index = o.header.index := congrArg Header.index hn
  have halloc : (s.inodes node).alloc = o.header.alloc := congrArg Header.alloc hn
  have hframe := hr.frame
  rw [hindex, halloc] at hframe
  rw [hr.ballocPtr]
  apply h.update le_rfl h.limit
  · exact Or.inl ⟨o, ho, by rw [hhead], by rw [hhead]⟩
  · rw [hhead]
    exact h.start p o ho
  · rw [hhead]
    exact h.below p o ho
  · rw [hhead]
    exact hroom
  · have hi : (t.inodes node).index = o.header.index := by rw [hhead]
    change inodeFetch t.disk (t.inodes node).index = (t.inodes node).toHeader
    rw [hi, ← hindex, hr.header hw]
  · simp only [hhead]
    apply slice_eq
    intro k hk
    have hk' := hr.content k (by rw [halloc]; omega)
    rw [hindex, blit_inside (by omega) (by omega), bytesOf_eq (by omega)] at hk'
    rw [Nat.zero_add]
    exact hk'
  · intro q k hq hk sec h1 h2
    have := h.disjoint q p k o hk ho hq
    exact hframe sec (by omega)

theorem Holds.moved {s t : Volume} {A : Image} {p : List Str} {o : Extent} {node sectors : ℕ}
    (h : Holds s.disk s.ballocPtr A) (ho : A p = some o)
    (hindex : (s.inodes node).index = o.header.index) (hsize : (s.inodes node).size = o.header.size)
    (halloc : (s.inodes node).alloc = o.header.alloc) (hw : Words (s.inodes node).toHeader)
    (hgrow : o.header.alloc ≤ sectors) (hroom : s.ballocPtr + sectors < 2 ^ 28)
    (hm : Moved s t node sectors) : Holds t.disk t.ballocPtr
      (Function.update A p (some ⟨(t.inodes node).toHeader, o.bytes⟩)) := by
  have hnode : t.inodes node = withExtent (s.inodes node) s.ballocPtr sectors := by
    rw [hm.inodes, Function.update_self]
  have hs := h.start p o ho
  have hb := h.below p o ho
  have hr := h.room p o ho
  rw [hm.ballocPtr]
  apply h.update (by omega) (by omega)
  · exact Or.inr (by rw [hnode]; exact le_rfl)
  · rw [hnode]
    change 2 ≤ s.ballocPtr
    omega
  · rw [hnode]
    change s.ballocPtr + sectors < _
    omega
  · rw [hnode]
    change (s.inodes node).size ≤ 512 * sectors
    omega
  · have hi : (t.inodes node).index = s.ballocPtr := by rw [hnode]; rfl
    change inodeFetch t.disk (t.inodes node).index = (t.inodes node).toHeader
    rw [hi, hm.header hw]
  · have hi : (t.inodes node).index = s.ballocPtr := by rw [hnode]; rfl
    have hz : (t.inodes node).size = o.header.size := by rw [hnode]; exact hsize
    rw [← h.bytes p o ho]
    change slice (content t.disk (t.inodes node).index) 0 (t.inodes node).size = _
    rw [hi, hz, ← hindex]
    exact slice_congr fun k _ hk => hm.content k (by omega)
  · intro q k hq hk sec h1 h2
    have hqs := h.start q k hk
    have hqb := h.below q k hk
    exact hm.frame sec (by omega) (by omega)

theorem Holds.realloc_child {s : Volume} {A : Image} {p q : List Str} {o oq : Extent}
    {node par sectors : ℕ} (h : Holds s.disk s.ballocPtr A) (ho : A p = some o)
    (hindex : (s.inodes node).index = o.header.index) (hsize : (s.inodes node).size = o.header.size)
    (halloc : (s.inodes node).alloc = o.header.alloc) (hw : Words (s.inodes node).toHeader)
    (hgrow : o.header.alloc ≤ sectors) (hroom : s.ballocPtr + sectors < 2 ^ 28) (hq : A q = some oq)
    (hqp : q ≠ p) (hpar : (s.inodes par).toHeader = oq.header) (hne : par ≠ node) :
    Relocated s (inodeRealloc s node sectors (some par)) node (some par) sectors ∧
    Holds (inodeRealloc s node sectors (some par)).disk (inodeRealloc s node sectors (some par)).ballocPtr
      (Function.update (Function.update A p
          (some ⟨((inodeRealloc s node sectors (some par)).inodes node).toHeader, o.bytes⟩)) q
        (some ⟨oq.header, (childtableEditIndex ⟨oq.bytes, oq.header.alloc⟩ (nodeName s node)
          s.ballocPtr).data⟩)) := by
  have hs := h.start p o ho
  have hb := h.below p o ho
  have hqs := h.start q oq hq
  have hqb := h.below q oq hq
  have hpi : (s.inodes par).index = oq.header.index := congrArg Header.index hpar
  have hpa : (s.inodes par).alloc = oq.header.alloc := congrArg Header.alloc hpar
  have habove : Above s par node :=
    ⟨hne, by rw [hpar]; exact h.fits hq, by omega, by omega⟩
  have hrel := inodeRealloc_child (by omega) (by omega) (by omega) hroom habove
  refine ⟨hrel, ?_⟩
  have hm := @moveExtent_moved s node _ (by omega) (by omega) (by omega) hroom
  have hhold := h.moved ho hindex hsize halloc hw hgrow hroom hm
  rw [inodeRealloc_some] at hrel ⊢
  generalize moveExtent s node sectors = m at hm hhold hrel ⊢
  have hmpar : (m.inodes par).toHeader = oq.header := by rw [hm.inodes, Function.update_of_ne hne, hpar]
  have hmq : Function.update A p (some ⟨(m.inodes node).toHeader, o.bytes⟩) q = some oq := by
    rw [Function.update_of_ne hqp, hq]
  have htable := hhold.tableAfter_eq hmq hmpar (relocate s node s.ballocPtr)
  have hlen : (tableAfter m par (relocate s node s.ballocPtr)).length = oq.header.size := by
    rw [htable]
    simpa [relocate, ChildOperation.table] using h.length_bytes hq
  have hfits := h.fits hq
  have hr := @inodeChildSet_retabled m _ _ none (by rw [hmpar]; exact hfits)
    (by rw [hlen]; exact hfits.word) (by
      have hma : (m.inodes par).alloc = oq.header.alloc := congrArg Header.alloc hmpar
      rw [hlen, hma]
      exact hfits.room)
  generalize inodeChildSet m par (relocate s node s.ballocPtr) none = t at hr hrel ⊢
  have hti : t.inodes = m.inodes := hrel.inodes.trans hm.inodes.symm
  have hfinal := hhold.retabled hmq hmpar hlen.ge (by rw [hlen]; exact hfits.room)
    (by rw [hti, hmpar]; exact h.words hq) hr
  rw [hti, hmpar, htable] at hfinal
  rw [hti]
  exact hfinal

theorem Holds.realloc_root {s : Volume} {A : Image} {p : List Str} {o : Extent} {node sectors : ℕ}
    (h : Holds s.disk s.ballocPtr A) (ho : A p = some o)
    (hindex : (s.inodes node).index = o.header.index) (hsize : (s.inodes node).size = o.header.size)
    (halloc : (s.inodes node).alloc = o.header.alloc) (hw : Words (s.inodes node).toHeader)
    (hgrow : o.header.alloc ≤ sectors) (hroom : s.ballocPtr + sectors < 2 ^ 28) :
    Relocated s (inodeRealloc s node sectors none) node none sectors ∧
    Holds (inodeRealloc s node sectors none).disk (inodeRealloc s node sectors none).ballocPtr
      (Function.update A p (some ⟨((inodeRealloc s node sectors none).inodes node).toHeader, o.bytes⟩)) := by
  have hs := h.start p o ho
  have hb := h.below p o ho
  have hrel := @inodeRealloc_root s node _ (by omega) (by omega) (by omega) hroom
  have hm := @moveExtent_moved s node _ (by omega) (by omega) (by omega) hroom
  have hhold := h.moved ho hindex hsize halloc hw hgrow hroom hm
  have hdisk (sec : ℕ) (h2 : 2 ≤ sec) :
      (inodeRealloc s node sectors none).disk sec = (moveExtent s node sectors).disk sec := by
    rw [inodeRealloc]
    exact ataWrite_other (by simp only [lba]; omega)
  refine ⟨hrel, ?_⟩
  rw [hrel.inodes, ← hm.inodes, hrel.ballocPtr, ← hm.ballocPtr]
  exact hhold.congr hdisk

theorem Lists.congr {A B : Image} {p : List Str} {bytes : List UInt8} {childCount : ℕ}
    (h : Lists A p bytes childCount)
    (hB : ∀ n i, (∃ k, A (p ++ [n]) = some k ∧ k.header.index = i) ↔
      ∃ k, B (p ++ [n]) = some k ∧ k.header.index = i) : Lists B p bytes childCount := by
  obtain ⟨rs, he, hn, hc, hr⟩ := h
  exact ⟨rs, he, hn, hc, fun n i => (hr n i).trans (hB n i)⟩

theorem update_index {A : Image} {p : List Str} {o o' : Extent} (ho : A p = some o)
    (hi : o'.header.index = o.header.index) (x : List Str) (i : ℕ) :
    (∃ k, A x = some k ∧ k.header.index = i) ↔
      ∃ k, Function.update A p (some o') x = some k ∧ k.header.index = i := by
  by_cases hx : x = p
  · subst hx
    simp [ho, hi]
  · simp [hx]

theorem entries_update (A : Image) (p : List Str) (o : Extent) :
    entries (Function.update A p (some o)) = Function.update (entries A) p (some o.entry) := by
  funext x
  unfold entries
  by_cases hx : x = p
  · subst hx
    rw [Function.update_self, Function.update_self]
    rfl
  · rw [Function.update_of_ne hx, Function.update_of_ne hx]

theorem entries_rewrite {A : Image} {p : List Str} {o o' : Extent} (ho : A p = some o)
    (he : o'.entry = o.entry) : entries (Function.update A p (some o')) = entries A := by
  rw [entries_update, he]
  apply Function.update_eq_self_iff.mpr
  rw [entries, ho]
  rfl

theorem entry_eq {o o' : Extent} (hv : o'.header.isvalid = o.header.isvalid)
    (ht : o'.header.type = o.header.type) (hb : o.header.type ≠ inodeTypeDir → o'.bytes = o.bytes) :
    o'.entry = o.entry := by
  unfold Extent.entry
  rw [hv, ht]
  by_cases hd : o.header.type = inodeTypeDir
  · rw [if_pos hd, if_pos hd]
  · rw [if_neg hd, if_neg hd, hb hd]

theorem update_isDir {A : Image} {p : List Str} {o o' : Extent} (ho : A p = some o)
    (ht : o'.header.type = o.header.type) (x : List Str) :
    IsDir (Function.update A p (some o')) x ↔ IsDir A x := by
  unfold IsDir
  by_cases hx : x = p
  · subst hx
    simp [ho, ht]
  · simp [hx]

theorem update_isSome {A : Image} {p : List Str} {o o' : Extent} (ho : A p = some o) (x : List Str) :
    (Function.update A p (some o') x).isSome = (A x).isSome := by
  by_cases hx : x = p
  · subst hx
    simp [ho]
  · simp [hx]

theorem Tree.rewrite {root : ℕ} {A : Image} {p : List Str} {o o' : Extent} (h : Tree root A)
    (ho : A p = some o) (hi : o'.header.index = o.header.index) (ht : o'.header.type = o.header.type)
    (hd : o'.header.type = inodeTypeDir → Lists A p o'.bytes o'.header.childCount) :
    Tree root (Function.update A p (some o')) := by
  refine ⟨?_, fun x k hk hkd => ?_, fun x n k hk => ?_⟩
  · obtain ⟨r, hr, hrd, hri⟩ := h.root
    obtain ⟨k, hk, hki⟩ := (update_index ho hi [] r.header.index).mp ⟨r, hr, rfl⟩
    obtain ⟨k', hk', hkd⟩ := (update_isDir ho ht []).mpr ⟨r, hr, hrd⟩
    obtain rfl := Option.some.inj (hk.symm.trans hk')
    exact ⟨k, hk, hkd, hri.trans hki.symm⟩
  · have hl : Lists A x k.bytes k.header.childCount := by
      by_cases hx : x = p
      · subst hx
        rw [Function.update_self] at hk
        obtain rfl := Option.some.inj hk
        exact hd hkd
      · rw [Function.update_of_ne hx] at hk
        exact h.dirs x k hk hkd
    exact hl.congr fun n i => update_index ho hi _ i
  · have hk' := @update_isSome _ _ _ o' ho (x ++ [n])
    rw [hk] at hk'
    obtain ⟨l, hl⟩ := Option.isSome_iff_exists.mp hk'.symm
    exact (update_isDir ho ht x).mpr (h.parents x n l hl)

theorem Tree.move_root {root : ℕ} {A : Image} {o o' : Extent} (h : Tree root A) (ho : A [] = some o)
    (ht : o'.header.type = o.header.type) (hc : o'.header.childCount = o.header.childCount)
    (hb : o'.bytes = o.bytes) : Tree o'.header.index (Function.update A [] (some o')) := by
  obtain ⟨r, hr, hrd, -⟩ := h.root
  obtain rfl := Option.some.inj (hr.symm.trans ho)
  refine ⟨⟨o', Function.update_self .., ht.trans hrd, rfl⟩, fun x k hk hkd => ?_, fun x n k hk => ?_⟩
  · have hl : Lists A x k.bytes k.header.childCount := by
      by_cases hx : x = []
      · subst hx
        rw [Function.update_self] at hk
        obtain rfl := Option.some.inj hk
        rw [hb, hc]
        exact h.dirs [] r hr hrd
      · rw [Function.update_of_ne hx] at hk
        exact h.dirs x k hk hkd
    exact hl.congr fun n i => by rw [Function.update_of_ne (by simp)]
  · rw [Function.update_of_ne (by simp)] at hk
    exact (update_isDir ho ht x).mpr (h.parents x n k hk)

theorem Lists.edit {A : Image} {q : List Str} {n : Str} {bytes : List UInt8} {childCount : ℕ}
    {o o' : Extent} (h : Lists A q bytes childCount) (ho : A (q ++ [n]) = some o) (alloc : ℕ) :
    Lists (Function.update A (q ++ [n]) (some o')) q
      (childtableEditIndex ⟨bytes, alloc⟩ n o'.header.index).data childCount := by
  obtain ⟨rs, rfl, hn, hc, hr⟩ := h
  obtain ⟨qs, ts, rfl⟩ := List.append_of_mem ((hr n o.header.index).mpr ⟨o, ho, rfl⟩)
  have hnq : n ∉ qs.map Prod.fst ∧ n ∉ ts.map Prod.fst := by
    simp only [List.map_append, List.map_cons, List.nodup_append, List.nodup_cons] at hn
    exact ⟨fun hm => hn.2.2 n hm n (by simp) rfl, hn.2.1.1⟩
  refine ⟨qs ++ (n, o'.header.index) :: ts, childtableEditIndex_encode _ _ hnq.1, by simpa using hn,
    by simpa using hc, fun m i => ?_⟩
  by_cases hm : m = n
  · subst hm
    rw [Function.update_self]
    have hq (j : ℕ) : (m, j) ∉ qs := fun hj => hnq.1 (List.mem_map_of_mem hj)
    have ht (j : ℕ) : (m, j) ∉ ts := fun hj => hnq.2 (List.mem_map_of_mem hj)
    simp [hq, ht, eq_comm]
  · rw [Function.update_of_ne (by simpa using hm), ← hr m i]
    simp [hm]

theorem Tree.move {root : ℕ} {A : Image} {q : List Str} {n : Str} {o o' oq oq' : Extent}
    (h : Tree root A) (ho : A (q ++ [n]) = some o) (ht : o'.header.type = o.header.type)
    (hc : o'.header.childCount = o.header.childCount) (hb : o'.bytes = o.bytes) (hq : A q = some oq)
    (hhead : oq'.header = oq.header)
    (hedit : ∃ alloc, oq'.bytes = (childtableEditIndex ⟨oq.bytes, alloc⟩ n o'.header.index).data) :
    Tree root (Function.update (Function.update A (q ++ [n]) (some o')) q (some oq')) := by
  have hqp : q ≠ q ++ [n] := by simp
  have hB : Function.update A (q ++ [n]) (some o') q = some oq := by rw [Function.update_of_ne hqp, hq]
  have hi : oq'.header.index = oq.header.index := by rw [hhead]
  have hti : oq'.header.type = oq.header.type := by rw [hhead]
  obtain ⟨alloc, hbytes⟩ := hedit
  refine ⟨?_, fun x k hk hkd => ?_, fun x m k hk => ?_⟩
  · obtain ⟨r, hr, hrd, hri⟩ := h.root
    have hr' : Function.update A (q ++ [n]) (some o') [] = some r := by
      rw [Function.update_of_ne (by simp), hr]
    obtain ⟨k, hk, hki⟩ := (update_index hB hi [] r.header.index).mp ⟨r, hr', rfl⟩
    obtain ⟨k', hk', hkd⟩ := (update_isDir hB hti []).mpr ⟨r, hr', hrd⟩
    obtain rfl := Option.some.inj (hk.symm.trans hk')
    exact ⟨k, hk, hkd, hri.trans hki.symm⟩
  · have hl : Lists (Function.update A (q ++ [n]) (some o')) x k.bytes k.header.childCount := by
      by_cases hx : x = q
      · subst hx
        rw [Function.update_self] at hk
        obtain rfl := Option.some.inj hk
        rw [hbytes, hhead]
        exact (h.dirs x oq hq (hti.symm.trans hkd)).edit ho alloc
      · rw [Function.update_of_ne hx] at hk
        have hold : Lists A x k.bytes k.header.childCount := by
          by_cases hxp : x = q ++ [n]
          · subst hxp
            rw [Function.update_self] at hk
            obtain rfl := Option.some.inj hk
            rw [hb, hc]
            exact h.dirs _ o ho (ht.symm.trans hkd)
          · rw [Function.update_of_ne hxp] at hk
            exact h.dirs x k hk hkd
        exact hold.congr fun m i => by rw [Function.update_of_ne (by simp [hx])]
    exact hl.congr fun m i => update_index hB hi _ i
  · have hk' := @update_isSome _ _ _ oq' hB (x ++ [m])
    rw [update_isSome ho, hk] at hk'
    obtain ⟨l, hl⟩ := Option.isSome_iff_exists.mp hk'.symm
    exact (update_isDir hB hti x).mpr ((update_isDir ho ht x).mpr (h.parents x m l hl))

theorem Tree.add {root : ℕ} {A : Image} {q : List Str} {n : Str} {o' oq oq' : Extent}
    (h : Tree root A) (hfresh : A (q ++ [n]) = none) (hq : A q = some oq)
    (hqd : oq.header.type = inodeTypeDir) (hempty : o'.bytes = []) (hnone : o'.header.childCount = 0)
    (hi : oq'.header.index = oq.header.index) (ht : oq'.header.type = oq.header.type)
    (hc : oq'.header.childCount = oq.header.childCount + 1)
    (hadd : oq'.bytes = oq.bytes ++ encode [(n, o'.header.index)]) :
    Tree root (Function.update (Function.update A (q ++ [n]) (some o')) q (some oq')) := by
  have hqp : q ≠ q ++ [n] := by simp
  have hB : Function.update A (q ++ [n]) (some o') q = some oq := by rw [Function.update_of_ne hqp, hq]
  have hchild (m : Str) : A (q ++ [n] ++ [m]) = none := by
    rcases hA : A (q ++ [n] ++ [m]) with _ | k
    · rfl
    · obtain ⟨l, hl, -⟩ := h.parents (q ++ [n]) m k hA
      rw [hfresh] at hl
      cases hl
  refine ⟨?_, fun x k hk hkd => ?_, fun x m k hk => ?_⟩
  · obtain ⟨r, hr, hrd, hri⟩ := h.root
    have hr' : Function.update A (q ++ [n]) (some o') [] = some r := by
      rw [Function.update_of_ne (by simp), hr]
    obtain ⟨k, hk, hki⟩ := (update_index hB hi [] r.header.index).mp ⟨r, hr', rfl⟩
    obtain ⟨k', hk', hkd⟩ := (update_isDir hB ht []).mpr ⟨r, hr', hrd⟩
    obtain rfl := Option.some.inj (hk.symm.trans hk')
    exact ⟨k, hk, hkd, hri.trans hki.symm⟩
  · have hl : Lists (Function.update A (q ++ [n]) (some o')) x k.bytes k.header.childCount := by
      by_cases hx : x = q
      · subst hx
        rw [Function.update_self] at hk
        obtain rfl := Option.some.inj hk
        obtain ⟨rs, he, hn, hcount, hr⟩ := h.dirs x oq hq hqd
        have hnew : n ∉ rs.map Prod.fst := by
          intro hm
          obtain ⟨⟨m, i⟩, hmem, rfl⟩ := List.mem_map.mp hm
          obtain ⟨l, hl, -⟩ := (hr m i).mp hmem
          rw [hfresh] at hl
          cases hl
        refine ⟨rs ++ [(n, o'.header.index)], by rw [hadd, he, encode_append], ?_, by simp [hc, hcount], fun m i => ?_⟩
        · rw [List.map_append, List.nodup_append]
          refine ⟨hn, by simp, fun a ha b hb => ?_⟩
          rintro rfl
          simp only [List.map_cons, List.map_nil, List.mem_singleton] at hb
          exact hnew (hb ▸ ha)
        · by_cases hm : m = n
          · subst hm
            have hmem (j : ℕ) : (m, j) ∉ rs := fun hj => hnew (List.mem_map_of_mem hj)
            simp [hmem, eq_comm]
          · rw [Function.update_of_ne (by simpa using hm), ← hr m i]
            simp [hm]
      · rw [Function.update_of_ne hx] at hk
        by_cases hxp : x = q ++ [n]
        · subst hxp
          rw [Function.update_self] at hk
          obtain rfl := Option.some.inj hk
          refine ⟨[], hempty, by simp, hnone, fun m i => ?_⟩
          rw [Function.update_of_ne (by simp), hchild m]
          simp
        · rw [Function.update_of_ne hxp] at hk
          have hold : Lists A x k.bytes k.header.childCount := h.dirs x k hk hkd
          exact hold.congr fun m i => by rw [Function.update_of_ne (by simp [hx])]
    exact hl.congr fun m i => update_index hB hi _ i
  · refine (update_isDir hB ht x).mpr ?_
    have hk' := @update_isSome _ _ _ oq' hB (x ++ [m])
    rw [hk] at hk'
    by_cases hx : x = q
    · subst hx
      exact ⟨oq, hB, hqd⟩
    · rw [Function.update_of_ne (by simp [hx])] at hk'
      obtain ⟨l, hl⟩ := Option.isSome_iff_exists.mp hk'.symm
      obtain ⟨r, hr, hrd⟩ := h.parents x m l hl
      have hxp : x ≠ q ++ [n] := by
        rintro rfl
        rw [hfresh] at hr
        cases hr
      exact ⟨r, by rw [Function.update_of_ne hxp, hr], hrd⟩

end Eedox.Fs
