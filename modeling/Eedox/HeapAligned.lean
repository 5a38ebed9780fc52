import Eedox.HeapRuns

namespace Eedox.HeapAligned

open Library.Bytes Library.Words Library.Blocks KernelHeap HeapTiling HeapSteps HeapWatch HeapCalls

/-- The headers fill the heap with the right links, no two holes meet, and the index lists the holes. -/
structure Whole (h : Heap) (bs : List Block) : Prop where
  tiled : Tiled h bs
  separate : Separate bs
  index : h.index.Perm (holes 9 h.start bs)

/-- What an aligned request is to do: the heap is left as it is, or a block that starts a page joins the
blocks in use. -/
def Served (h : Heap) (bs : List Block) (size : ℕ) : Prop :=
  heapAlloc h size true = some (h, 0) ∨
    ∃ h' ptr us b vs, heapAlloc h size true = some (h', ptr) ∧ ptr ≠ 0 ∧ ptr % 0x1000 = 0 ∧
      Whole h' (us ++ b :: vs) ∧ h'.start = h.start ∧ h'.size = h.size ∧
      ptr = h.start + extent 9 us + 9 ∧ b.request = some size ∧ size ≤ b.size ∧
      (inUse 9 h.start (us ++ b :: vs)).Perm ((ptr, size) :: inUse 9 h.start bs)

/-- The room between a hole and the header in front of the next page. -/
def extraSize (hole : ℕ) : ℕ := sub32 (alignmentO hole (0x1000 - hheaderSize)) hole

def pagePayload (hole : ℕ) : ℕ := add32 (alignmentO hole (0x1000 - hheaderSize)) hheaderSize

/-- The slack in front is nothing, behind another block, or it makes a hole; in the latter case what is
left behind the new block makes one too or nothing follows. -/
def SlackHandled (h : Heap) (size hole : ℕ) : Prop :=
  (extraSize hole = 0 ∧ hole ≠ h.start) ∨
    (hheaderSize < extraSize hole ∧
      (hheaderSize + (extraSize hole + size) < (header h.mem hole).size ∨
        hheaderIsvalid h (hheaderNext h.mem hole) = false))

/-- The first entry of the index with room for the request is one where the slack is handled, and the
watcher has no objection. -/
def Placeable (h : Heap) (size : ℕ) : Prop :=
  ∀ hole, h.index.find? (fits h.mem size true) = some hole →
    SlackHandled h size hole ∧ heapwatchAlloc h.watcher (pagePayload hole) size ≠ none

variable {h h' h1 h2 h3 : Heap} {bs cs ds : List Block} {b : Block} {n a e : ℕ}

theorem extraSize_spec (ha : a < 2 ^ 32) : (a + extraSize a) % 0x1000 = 0xff7 ∧ extraSize a < 0x1000 ∧
    (a + extraSize a < 2 ^ 32 → alignmentO a (0x1000 - hheaderSize) = a + extraSize a) := by
  unfold extraSize alignmentO hheaderSize sub32 add32
  split_ifs <;> omega

theorem putWord_wordAt (m : Mem) (k : ℕ) : putWord m k (wordAt m k) = m := by
  have hbyte (i : ℕ) (x : UInt8) (hx : wordAt m k / 2 ^ (8 * i) % 2 ^ 8 = x.toNat) :
      byteOf (wordAt m k) i = x := by
    rw [← UInt8.toNat_inj, toNat_byteOf, hx]
  have h0 := (m k).toNat_lt
  have h1 := (m (k + 1)).toNat_lt
  have h2 := (m (k + 2)).toNat_lt
  have h3 := (m (k + 3)).toNat_lt
  funext j
  unfold putWord
  split_ifs with hj
  · obtain rfl | rfl | rfl | rfl : j = k ∨ j = k + 1 ∨ j = k + 2 ∨ j = k + 3 := by omega
    · rw [Nat.sub_self]
      refine hbyte 0 _ ?_
      unfold wordAt
      omega
    · rw [Nat.add_sub_cancel_left]
      refine hbyte 1 _ ?_
      unfold wordAt
      omega
    · rw [Nat.add_sub_cancel_left]
      refine hbyte 2 _ ?_
      unfold wordAt
      omega
    · rw [Nat.add_sub_cancel_left]
      refine hbyte 3 _ ?_
      unfold wordAt
      omega
  · rfl

theorem setSize_same (m : Mem) (a : ℕ) : setSize m a (header m a).size = m := putWord_wordAt m _

theorem setPrev_same (m : Mem) (a : ℕ) : setPrev m a (header m a).prev = m := putWord_wordAt m _

theorem setIsHole_same (m : Mem) (a : ℕ) : setIsHole m a (UInt8.ofNat (header m a).isHole) = m := by
  have hbyte : UInt8.ofNat (header m a).isHole = m a := UInt8.ofNat_toNat
  rw [hbyte, setIsHole, Function.update_eq_self]

/-- The header at one address is written to another. -/
def moveHeader (m : Mem) (src dst : ℕ) : Mem :=
  setPrev (setSize (setIsHole m dst (UInt8.ofNat (header m src).isHole)) dst (header m src).size) dst
    (header m src).prev

theorem moveHeader_same (m : Mem) (a : ℕ) : moveHeader m a a = m := by
  unfold moveHeader
  rw [setIsHole_same, setSize_same, setPrev_same]

theorem header_moveHeader (m : Mem) (src dst : ℕ) : header (moveHeader m src dst) dst = header m src := by
  have hbyte : (UInt8.ofNat (header m src).isHole).toNat = (header m src).isHole := by
    have hlt : (header m src).isHole < 2 ^ 8 := (m src).toNat_lt
    simpa using hlt
  have hsize : (header m src).size < 2 ^ 32 := wordAt_lt m _
  have hprev : (header m src).prev < 2 ^ 32 := wordAt_lt m _
  unfold moveHeader
  rw [header_setPrev, header_setSize, header_setIsHole, hbyte, Nat.mod_eq_of_lt hsize,
    Nat.mod_eq_of_lt hprev]

theorem moveHeader_other {m : Mem} {src dst x : ℕ} (hx : x < dst ∨ dst + 9 ≤ x) :
    moveHeader m src dst x = m x := by
  unfold moveHeader
  rw [setPrev_other _ (by omega), setSize_other _ (by omega), setIsHole_other _ (by omega)]

section AlignHole

variable {newaddr : ℕ} (hnew : alignmentO a (0x1000 - hheaderSize) = newaddr) (he : extraSize a = e)

include hnew he

theorem alignHole_split (hbig : 9 < e) : alignHole h a =
    (heapLowSplit { h with mem := moveHeader h.mem a newaddr } newaddr e, newaddr) := by
  subst hnew he
  unfold alignHole
  simp only
  rw [if_pos]
  · rfl
  · exact hbig

theorem alignHole_donate (hsmall : e ≤ 9) (hprev : (header h.mem a).prev ≠ 0) : alignHole h a =
    ({ h with
      mem := setSize (moveHeader h.mem a newaddr) (header h.mem a).prev
        (add32 (header (moveHeader h.mem a newaddr) (header h.mem a).prev).size e) }, newaddr) := by
  subst hnew he
  unfold alignHole
  simp only
  rw [if_neg, if_pos hprev]
  · rfl
  · exact not_lt.mpr hsmall

theorem alignHole_mark (hsmall : e ≤ 9) (hprev : (header h.mem a).prev = 0) : alignHole h a =
    ({ h with mem := setPrev (moveHeader h.mem a newaddr) newaddr 1 }, newaddr) := by
  subst hnew he
  unfold alignHole
  simp only
  rw [if_neg, if_neg (not_not.mpr hprev)]
  · rfl
  · exact not_lt.mpr hsmall

end AlignHole

section LowSplit

variable {s p newaddr f : ℕ} (hhead : header h.mem a = ⟨f, s, p⟩) (hbig : 9 < e) (hroom : e < s)
  (hnew : newaddr = a + e) (hword : a + (9 + s) < 2 ^ 32)

include hhead hbig hroom hnew hword

theorem lowSplit_mem : (heapLowSplit { h with mem := moveHeader h.mem a newaddr } newaddr e).mem =
    setIsHole (setPrev (setPrev (setSize (setSize (moveHeader h.mem a newaddr) a (e - 9)) newaddr (s - e))
      a p) newaddr a) a 1 := by
  have hsub : sub32 newaddr e = a := by
    rw [sub32_of_le (by omega) (by omega)]
    omega
  unfold heapLowSplit hheaderSize
  simp only
  rw [hsub, header_setSize_other _ (Or.inr (by omega)), header_moveHeader, hhead, header_setSize,
    header_setSize_other _ (Or.inr (by omega)), header_moveHeader, hhead]
  simp only
  rw [@sub32_of_le e 9 (by omega) (by omega), @sub32_of_le s e (by omega) (by omega)]

theorem lowSplit_hole : header (heapLowSplit { h with mem := moveHeader h.mem a newaddr } newaddr e).mem a =
    ⟨1, e - 9, p⟩ := by
  have hp : p < 2 ^ 32 := by
    have hlt := wordAt_lt h.mem (a + 5)
    have heq : wordAt h.mem (a + 5) = p := congrArg HHeader.prev hhead
    omega
  rw [lowSplit_mem hhead hbig hroom hnew hword, header_setIsHole,
    header_setPrev_other _ (Or.inl (by omega)), header_setPrev, header_setSize_other _ (Or.inl (by omega)),
    header_setSize, Nat.mod_eq_of_lt hp, Nat.mod_eq_of_lt (by omega)]
  rfl

theorem lowSplit_block :
    header (heapLowSplit { h with mem := moveHeader h.mem a newaddr } newaddr e).mem newaddr =
      ⟨f, s - e, a⟩ := by
  rw [lowSplit_mem hhead hbig hroom hnew hword, header_setIsHole_other _ (Or.inr (by omega)), header_setPrev,
    header_setPrev_other _ (Or.inr (by omega)), header_setSize, header_setSize_other _ (Or.inr (by omega)),
    header_moveHeader, hhead, Nat.mod_eq_of_lt (by omega), Nat.mod_eq_of_lt (by omega)]

theorem lowSplit_other {x : ℕ} (hx : x < a ∨ newaddr + 9 ≤ x) :
    (heapLowSplit { h with mem := moveHeader h.mem a newaddr } newaddr e).mem x = h.mem x := by
  rw [lowSplit_mem hhead hbig hroom hnew hword, setIsHole_other _ (by omega), setPrev_other _ (by omega),
    setPrev_other _ (by omega), setSize_other _ (by omega), setSize_other _ (by omega),
    moveHeader_other (by omega)]

omit hhead hbig in
theorem lowSplit_index : (heapLowSplit { h with mem := moveHeader h.mem a newaddr } newaddr e).index.Perm
    (a :: h.index) := by
  have hsub : sub32 newaddr e = a := by
    rw [sub32_of_le (by omega) (by omega)]
    omega
  unfold heapLowSplit
  simp only
  rw [hsub]
  exact ordlistInsert_perm _ _ _

end LowSplit

theorem heapAlloc_aligned (hcheck : heapCheck h = .passed) (hn : n ≠ 0) {i best newaddr rest : ℕ}
    (hi : h.index.findIdx? (fits h.mem n true) = some i) (hbest : h.index.getD i 0 = best)
    (hh1 : h1 = { h with mem := setIsHole h.mem best 0, index := ordlistRemove h.index (some i) })
    (halign : alignHole h1 best = (h2, newaddr)) (hrest : sub32 (header h2.mem newaddr).size n = rest)
    (hh3 : (if rest > 9 then heapHighSplit h2 newaddr rest else h2) = h3) :
    heapAlloc h n true = (heapwatchAlloc h3.watcher (add32 newaddr 9) n).bind fun watcher =>
      if heapCheck { h3 with watcher := watcher } = .passed then
        some ({ h3 with watcher := watcher }, add32 newaddr 9) else none := by
  unfold heapAlloc
  rw [if_neg (not_not.mpr hcheck), if_neg hn, hi]
  simp only [if_true, hbest]
  rw [← hh1, halign]
  subst hrest hh3
  rfl

theorem fits_aligned (ht : Tiled h (cs ++ b :: ds))
    (hfit : fits h.mem n true (h.start + extent 9 cs) = true) :
    extraSize (h.start + extent 9 cs) < b.size ∧ extraSize (h.start + extent 9 cs) + n ≤ b.size := by
  have hbound := ht.bounded
  have hword := ht.word
  unfold fits at hfit
  rw [ht.header_eq] at hfit
  simp only [if_true, Bool.and_eq_true, decide_eq_true_eq] at hfit
  change extraSize _ < b.size ∧ n ≤ sub32 b.size (extraSize _) at hfit
  rw [sub32_of_le hfit.1.le (by omega)] at hfit
  omega

/-- A request is served where the pieces fill the place of the hole. -/
theorem served_of_whole {us vs : List Block} {c : Block} {newaddr : ℕ} (hpos : 0 < n)
    (heq : heapAlloc h n true = (heapwatchAlloc h3.watcher (add32 newaddr 9) n).bind fun watcher =>
      if heapCheck { h3 with watcher := watcher } = .passed then
        some ({ h3 with watcher := watcher }, add32 newaddr 9) else none)
    (hwatch : heapwatchAlloc h.watcher (add32 newaddr 9) n ≠ none) (ht : Tiled h3 (us ++ c :: vs))
    (hs : Separate (us ++ c :: vs)) (hi : h3.index.Perm (holes 9 h.start (us ++ c :: vs)))
    (hstart : h3.start = h.start) (hsize : h3.size = h.size) (hwatcher : h3.watcher = h.watcher)
    (hplace : newaddr = h.start + extent 9 us)
    (hpage : newaddr % 0x1000 = 0xff7) (hc : c.request = some n) (hfit : n ≤ c.size)
    (hin : (inUse 9 h.start (us ++ c :: vs)).Perm ((newaddr + 9, n) :: inUse 9 h.start bs)) :
    Served h bs n := by
  have hbound := ht.bounded
  have hword := ht.word
  have hptr : add32 newaddr 9 = newaddr + 9 := add32_of_lt (by omega)
  rw [hptr] at heq hwatch
  obtain ⟨recs, hrecs⟩ := Option.ne_none_iff_exists'.mp hwatch
  have ht' := ht.relist h3.index recs
  rw [hwatcher, hrecs, Option.bind_some, if_pos (ht'.heapCheck_passed hs)] at heq
  rw [← hstart] at hi
  refine Or.inr ⟨_, _, us, c, vs, heq, by omega, by omega, ⟨ht', hs, hi⟩, hstart, hsize, ?_, hc, hfit, hin⟩
  rw [hplace]

/-- The hole that the search stops at, its address and the slack in front of the page. -/
structure Candidate (h : Heap) (n i : ℕ) (cs : List Block) (b : Block) (ds : List Block) (a e : ℕ) : Prop where
  whole : Whole h (cs ++ b :: ds)
  hole : b.request = none
  positive : 0 < n
  found : h.index.findIdx? (fits h.mem n true) = some i
  best : h.index.getD i 0 = a
  perm : h.index.Perm (a :: ordlistRemove h.index (some i))
  place : a = h.start + extent 9 cs
  extra : extraSize a = e
  below : e < b.size
  fitting : e + n ≤ b.size
  bound : a + (9 + b.size) + extent 9 ds = h.start + (9 + h.size)
  word : h.start + (9 + h.size) < 2 ^ 32
  low : 1 < h.start

theorem candidate_of_found (hw : Whole h bs) (hn : 0 < n) {i : ℕ}
    (hi : h.index.findIdx? (fits h.mem n true) = some i) :
    ∃ cs b ds a e, bs = cs ++ b :: ds ∧ Candidate h n i cs b ds a e := by
  obtain ⟨cs, b, ds, rfl, hb, hfit, hbest, hperm⟩ := found_hole hw.index hi
  obtain ⟨hbelow, hfits⟩ := fits_aligned hw.tiled hfit
  have hbound := hw.tiled.bounded
  exact ⟨cs, b, ds, _, _, rfl, hw, hb, hn, hi, hbest, hperm, rfl, rfl, hbelow, hfits, by omega,
    hw.tiled.word, hw.tiled.low⟩

/-- The heap with the hole taken off the index. -/
def taken (h : Heap) (i best : ℕ) : Heap :=
  { h with mem := setIsHole h.mem best 0, index := ordlistRemove h.index (some i) }

/-- The slack in front of the new block becomes a hole. -/
def lowered (h : Heap) (i a e : ℕ) : Heap :=
  heapLowSplit { taken h i a with mem := moveHeader (taken h i a).mem a (a + e) } (a + e) e

namespace Candidate

variable {i : ℕ} (hc : Candidate h n i cs b ds a e)

include hc

theorem taken_spec : Tiled (taken h i a) (cs ++ ⟨b.size, some n⟩ :: ds) ∧
    Separate (cs ++ ⟨b.size, some n⟩ :: ds) ∧
    (taken h i a).index.Perm (holes 9 h.start (cs ++ ⟨b.size, some n⟩ :: ds)) := by
  obtain rfl := hc.place
  exact take_spec hc.whole.tiled hc.whole.separate hc.whole.index hc.hole hc.perm

theorem header_taken : header (taken h i a).mem a = ⟨0, b.size, lastPlace 9 0 h.start cs⟩ := by
  obtain rfl := hc.place
  exact hc.taken_spec.1.header_eq

theorem newaddr_eq : alignmentO a (0x1000 - hheaderSize) = a + e := by
  obtain rfl := hc.extra
  have hbound := hc.bound
  have hword := hc.word
  have hbelow := hc.below
  exact (extraSize_spec (by omega)).2.2 (by omega)

theorem page : (a + e) % 0x1000 = 0xff7 := by
  obtain rfl := hc.extra
  have hbound := hc.bound
  have hword := hc.word
  exact (extraSize_spec (by omega)).1

theorem payload_eq : pagePayload a = add32 (a + e) 9 := by
  rw [pagePayload, hc.newaddr_eq, hheaderSize]

theorem inUse_old (x : ℕ) : inUse 9 x (cs ++ b :: ds) =
    inUse 9 x cs ++ inUse 9 (x + extent 9 cs + (9 + b.size)) ds := by
  rw [inUse_append, inUse_hole _ _ hc.hole]

/-- No slack: the request is served as one that is not aligned. -/
theorem served_even (he : e = 0) (hfirst : cs ≠ [])
    (hwatch : heapwatchAlloc h.watcher (pagePayload a) n ≠ none) : Served h (cs ++ b :: ds) n := by
  subst he
  have hlow := hc.low
  have hword := hc.word
  have hbound := hc.bound
  have hfits := hc.fitting
  have hpage := hc.page
  have hnew := hc.newaddr_eq
  have hhead := hc.header_taken
  rw [hc.payload_eq] at hwatch
  have hprev : (header (taken h i a).mem a).prev ≠ 0 := by
    rw [hhead]
    rcases lastPlace_eq cs h.start with ⟨hnil, -⟩ | ⟨us, u, -, hp⟩
    · exact absurd hnil hfirst
    · simp only [hp]
      omega
  have halign : alignHole (taken h i a) a = (taken h i a, a) := by
    have hzero (m : Mem) (x : ℕ) : add32 (header m x).size 0 = (header m x).size :=
      Nat.mod_eq_of_lt (wordAt_lt m (x + 1))
    rw [alignHole_donate hnew hc.extra (by omega) hprev, Nat.add_zero, moveHeader_same, hzero, setSize_same]
  have hrest : sub32 (header (taken h i a).mem a).size n = b.size - n := by
    rw [hhead]
    exact sub32_of_le (by simp only; omega) (by simp only; omega)
  have heq := heapAlloc_aligned (hc.whole.tiled.heapCheck_passed hc.whole.separate) (Nat.ne_of_gt hc.positive)
    hc.found hc.best rfl halign hrest rfl
  obtain ⟨ht1, hs1, hi1⟩ := hc.taken_spec
  obtain rfl := hc.place
  obtain ⟨c, rest, hreq, hfitc, -, hs2, hin2, hcarved⟩ := carve_spec ht1 rfl hc.positive (by simp only; omega)
    hi1 hs1 fun d hd => (separate_iff.mp hc.whole.separate).2.2.2 d hd hc.hole
  obtain ⟨ht3, hi3, hstart3, hsize3, hwatch3⟩ := hcarved
  refine served_of_whole hc.positive heq hwatch ht3 hs2 hi3 hstart3 hsize3 hwatch3 rfl hpage hreq hfitc ?_
  rw [hc.inUse_old, inUse_append, hin2]
  exact List.perm_middle

theorem halign (hbig : 9 < e) : alignHole (taken h i a) a = (lowered h i a e, a + e) :=
  alignHole_split hc.newaddr_eq hc.extra hbig

theorem lowered_index : (lowered h i a e).index.Perm (holes 9 h.start (cs ++ b :: ds)) := by
  have hbound := hc.bound
  have hword := hc.word
  have hindex : (lowered h i a e).index.Perm _ :=
    lowSplit_index (h := taken h i a) (s := b.size) hc.below rfl (by omega)
  exact hindex.trans (hc.perm.symm.trans hc.whole.index)

theorem lowered_hole (hbig : 9 < e) : header (lowered h i a e).mem a =
    ⟨1, e - 9, lastPlace 9 0 h.start cs⟩ := by
  have hbound := hc.bound
  have hword := hc.word
  exact lowSplit_hole hc.header_taken hbig hc.below rfl (by omega)

theorem lowered_block (hbig : 9 < e) : header (lowered h i a e).mem (a + e) = ⟨0, b.size - e, a⟩ := by
  have hbound := hc.bound
  have hword := hc.word
  exact lowSplit_block hc.header_taken hbig hc.below rfl (by omega)

theorem lowered_other (hbig : 9 < e) {x : ℕ} (hx : x < a ∨ a + e + 9 ≤ x) :
    (lowered h i a e).mem x = h.mem x := by
  have hbound := hc.bound
  have hword := hc.word
  have hother := lowSplit_other hc.header_taken hbig hc.below rfl (by omega) hx
  exact hother.trans (setIsHole_other 0 (by omega))

theorem lowered_rest (hbig : 9 < e) :
    sub32 (header (lowered h i a e).mem (a + e)).size n = b.size - e - n := by
  have hbound := hc.bound
  have hword := hc.word
  have hfits := hc.fitting
  rw [hc.lowered_block hbig]
  exact sub32_of_le (by simp only; omega) (by simp only; omega)

theorem separate_low {c : Block} (k : ℕ) (hused : c.request ≠ none) :
    Separate ((cs ++ [⟨k, none⟩]) ++ c :: ds) := by
  obtain ⟨h1, h2, h3, -⟩ := separate_iff.mp hc.whole.separate
  rw [List.append_assoc, List.singleton_append]
  refine separate_iff.mpr ⟨h1, List.isChain_cons.mpr ⟨fun _ _ hnone => absurd hnone hused, h2⟩, ?_, ?_⟩
  · intro d hd hnone
    exact absurd hc.hole (h3 d hd hnone)
  · intro d hd _
    obtain rfl := Option.some.inj hd
    exact hused

theorem separate_split {us : List Block} {c : Block} (k : ℕ) (hused : c.request ≠ none)
    (hs : Separate (us ++ c :: ds)) : Separate (us ++ c :: ⟨k, none⟩ :: ds) := by
  obtain ⟨h1, h2, h3, -⟩ := separate_iff.mp hs
  have hds := (separate_iff.mp hc.whole.separate).2.2.2
  exact separate_iff.mpr ⟨h1, List.isChain_cons.mpr ⟨fun d hd _ => hds d hd hc.hole, h2⟩, h3,
    fun _ _ hnone => absurd hnone hused⟩

theorem holes_low (hbig : 9 < e) (x : ℕ) :
    holes 9 x ((cs ++ [⟨e - 9, none⟩]) ++ ⟨b.size - e, some n⟩ :: ds) = holes 9 x (cs ++ b :: ds) := by
  have hbelow := hc.below
  have hplace : x + extent 9 cs + (9 + (e - 9)) + (9 + (b.size - e)) = x + extent 9 cs + (9 + b.size) := by
    omega
  rw [List.append_assoc, List.singleton_append]
  simp only [holes_append, holes_cons, hc.hole, Option.isNone_none, Option.isNone_some, if_true,
    Bool.false_eq_true, if_false]
  rw [hplace]

theorem inUse_low {rest : List Block} {m : ℕ} (hbig : 9 < e)
    (hm : extent 9 (⟨m, some n⟩ :: rest) = 9 + (b.size - e)) (hrest : ∀ x, inUse 9 x rest = []) :
    (inUse 9 h.start ((cs ++ [⟨e - 9, none⟩]) ++ ⟨m, some n⟩ :: (rest ++ ds))).Perm
      ((a + e + 9, n) :: inUse 9 h.start (cs ++ b :: ds)) := by
  obtain rfl := hc.place
  have hbelow := hc.below
  have hplace : h.start + extent 9 cs + (9 + (e - 9)) = h.start + extent 9 cs + e := by omega
  have hused := inUse_used (w := 9) (h.start + extent 9 cs + e) (rest ++ ds) (b := ⟨m, some n⟩) rfl
  have hhole := inUse_hole (w := 9) (h.start + extent 9 cs) (⟨m, some n⟩ :: (rest ++ ds))
    (b := ⟨e - 9, none⟩) rfl
  rw [List.append_assoc, List.singleton_append, inUse_append, hhole]
  simp only
  rw [hplace, hused, hc.inUse_old, inUse_append, hrest, List.nil_append]
  rw [extent_cons] at hm
  simp only at hm ⊢
  have hend : h.start + extent 9 cs + e + (9 + m) + extent 9 rest = h.start + extent 9 cs + (9 + b.size) := by
    omega
  rw [hend]
  exact List.perm_middle

theorem served_low {h3 : Heap} {rest : List Block} {m : ℕ} (hbig : 9 < e)
    (hh3 : (if b.size - e - n > 9 then heapHighSplit (lowered h i a e) (a + e) (b.size - e - n)
      else lowered h i a e) = h3)
    (hm : extent 9 (⟨m, some n⟩ :: rest) = 9 + (b.size - e)) (hfit : n ≤ m)
    (hrest : ∀ x, inUse 9 x rest = [])
    (ht : Tiled h3 (cs ++ (([⟨e - 9, none⟩, ⟨m, some n⟩] ++ rest) ++ ds)))
    (hs : Separate ((cs ++ [⟨e - 9, none⟩]) ++ ⟨m, some n⟩ :: (rest ++ ds)))
    (hi : h3.index.Perm (holes 9 h.start ((cs ++ [⟨e - 9, none⟩]) ++ ⟨m, some n⟩ :: (rest ++ ds))))
    (hwatch : heapwatchAlloc h.watcher (pagePayload a) n ≠ none) : Served h (cs ++ b :: ds) n := by
  have heq := heapAlloc_aligned (hc.whole.tiled.heapCheck_passed hc.whole.separate) (Nat.ne_of_gt hc.positive)
    hc.found hc.best rfl (hc.halign hbig) (hc.lowered_rest hbig) hh3
  have hshape : cs ++ (([⟨e - 9, none⟩, ⟨m, some n⟩] ++ rest) ++ ds) =
      (cs ++ [⟨e - 9, none⟩]) ++ ⟨m, some n⟩ :: (rest ++ ds) := by simp
  have hsame : h3.start = h.start ∧ h3.size = h.size ∧ h3.watcher = h.watcher := by
    subst hh3
    split_ifs <;> exact ⟨rfl, rfl, rfl⟩
  have hplace := hc.place
  rw [hshape] at ht
  rw [hc.payload_eq] at hwatch
  refine served_of_whole hc.positive heq hwatch ht hs hi hsame.1 hsame.2.1 hsame.2.2 ?_ hc.page rfl hfit
    (hc.inUse_low hbig hm hrest)
  rw [extent_append, extent_cons, extent_nil]
  simp only
  omega

/-- Nothing follows the hole: its end stays with the new block. -/
theorem served_last (hbig : 9 < e) (hlast : ds = []) (hsmall : b.size - e - n ≤ 9)
    (hwatch : heapwatchAlloc h.watcher (pagePayload a) n ≠ none) : Served h (cs ++ b :: ds) n := by
  have hbelow := hc.below
  have hfits := hc.fitting
  have hpos := hc.positive
  have hhole := hc.lowered_hole hbig
  have hblock := hc.lowered_block hbig
  have hother (x : ℕ) (hx : x < a ∨ a + e + 9 ≤ x) : (lowered h i a e).mem x = h.mem x :=
    hc.lowered_other hbig hx
  have ht : Tiled (lowered h i a e) (cs ++ (([⟨e - 9, none⟩, ⟨b.size - e, some n⟩] ++ []) ++ ds)) := by
    rw [hc.place] at hhole hblock hother ⊢
    apply splice [b] _ hc.whole.tiled
    · rfl
    · rfl
    · have hplace : h.start + extent 9 cs + (9 + (e - 9)) = h.start + extent 9 cs + e := by omega
      refine ⟨hhole, ?_, trivial⟩
      simp only
      rw [hplace]
      exact hblock
    · simp only [List.append_nil, extent_cons, extent_nil]
      omega
    · intro c hc'
      simp only [List.append_nil, List.mem_cons, List.not_mem_nil, or_false] at hc'
      rcases hc' with rfl | rfl <;> simp only <;> omega
    · intro x hx
      exact hother x (Or.inl hx)
    · intro hne
      exact absurd hlast hne
    · intro x hx
      rw [extent_cons, extent_nil] at hx
      exact hother x (Or.inr (by omega))
  refine hc.served_low hbig (if_neg (by omega)) ?_ (by omega) (fun _ => inUse_nil _) ht
    (hc.separate_low _ (Option.some_ne_none n))
    (hc.lowered_index.trans (List.Perm.of_eq (hc.holes_low hbig h.start).symm)) hwatch
  rw [extent_cons, extent_nil]
  rfl

/-- What is left behind the new block becomes a hole as well, and the block after it learns of it. -/
theorem served_split (hbig : 9 < e) (hlarge : 9 < b.size - e - n)
    (hwatch : heapwatchAlloc h.watcher (pagePayload a) n ≠ none) : Served h (cs ++ b :: ds) n := by
  have hbelow := hc.below
  have hfits := hc.fitting
  have hpos := hc.positive
  have hbound := hc.bound
  have hword := hc.word
  have hhole := hc.lowered_hole hbig
  have hblock := hc.lowered_block hbig
  have hother (x : ℕ) (hx : x < a ∨ a + e + 9 ≤ x) : (lowered h i a e).mem x = h.mem x :=
    hc.lowered_other hbig hx
  have hs : (header (lowered h i a e).mem (a + e)).size = b.size - e := by rw [hblock]
  have hnext : hheaderNext (lowered h i a e).mem (a + e) = a + (9 + b.size) := by
    unfold hheaderNext hheaderSize
    rw [hblock, @add32_of_lt _ 9 (by omega), add32_of_lt (by simp only; omega)]
    simp only
    omega
  have hnew : sub32 (a + (9 + b.size)) (b.size - e - n) = a + e + (9 + n) := by
    rw [sub32_of_le (by omega) (by omega)]
    omega
  have hkept := heapHighSplit_block hs (by omega) (by omega) hnext hnew rfl (Or.inl (by omega))
  have hcut := heapHighSplit_newhole hs (by omega) (by omega) hnext hnew rfl (Or.inl (by omega)) (by omega)
  have hvalid : hheaderIsvalid (lowered h i a e) (a + (9 + b.size)) = true ↔ ds ≠ [] := by
    rw [hc.place]
    exact hc.whole.tiled.valid_iff
  have hlearn (hds : ds ≠ []) :=
    heapHighSplit_next hs (by omega) (by omega) hnext hnew rfl (by omega) (hvalid.mpr hds) (by omega)
  have haway (x : ℕ) (hx : x < a + e ∨ a + e + (9 + n) + 9 ≤ x)
      (hx' : x < a + (9 + b.size) ∨ a + (9 + b.size) + 9 ≤ x) :=
    heapHighSplit_other hs (by omega) (by omega) hnext hnew rfl hx hx'
  have hindex : (heapHighSplit (lowered h i a e) (a + e) (b.size - e - n)).index.Perm
      ((a + e + (9 + n)) :: (lowered h i a e).index) := by
    unfold heapHighSplit
    simp only
    rw [hnext, hnew]
    exact ordlistInsert_perm _ _ _
  have ht : Tiled (heapHighSplit (lowered h i a e) (a + e) (b.size - e - n))
      (cs ++ (([⟨e - 9, none⟩, ⟨n, some n⟩] ++ [⟨b.size - e - n - 9, none⟩]) ++ ds)) := by
    have hplace := hc.place
    have hfirst : header (heapHighSplit (lowered h i a e) (a + e) (b.size - e - n)).mem a =
        ⟨1, e - 9, lastPlace 9 0 h.start cs⟩ := by
      rw [← hhole]
      exact header_congr fun x _ _ => haway x (Or.inl (by omega)) (Or.inl (by omega))
    have hend : a + (9 + b.size) = h.start + extent 9 cs + extent 9 [b] := by
      rw [extent_cons, extent_nil]
      omega
    apply splice [b] _ hc.whole.tiled
    · rfl
    · rfl
    · have hsecond : h.start + extent 9 cs + (9 + (e - 9)) = a + e := by omega
      refine ⟨hplace ▸ hfirst, ?_, ?_, trivial⟩
      · simp only
        rw [hsecond, hkept, hblock, hplace]
        rfl
      · simp only
        rw [hsecond, hcut]
        rfl
    · simp only [List.cons_append, List.nil_append, extent_cons, extent_nil]
      omega
    · intro c hc'
      simp only [List.cons_append, List.nil_append, List.mem_cons, List.not_mem_nil, or_false] at hc'
      rcases hc' with rfl | rfl | rfl <;> simp only <;> omega
    · intro x hx
      rw [haway x (Or.inl (by omega)) (Or.inl (by omega)), hother x (Or.inl (by omega))]
    · intro hds
      have hsame : header (lowered h i a e).mem (a + (9 + b.size)) = header h.mem (a + (9 + b.size)) :=
        header_congr fun x _ _ => hother x (Or.inr (by omega))
      rw [← hend, hlearn hds, hsame]
      refine HHeader.ext rfl rfl ?_
      simp only [List.cons_append, List.nil_append, lastPlace]
      omega
    · intro x hx
      rw [← hend] at hx
      rw [haway x (Or.inr (by omega)) (Or.inr (by omega)), hother x (Or.inr (by omega))]
  have hsplit := @holes_split (cs ++ [⟨e - 9, none⟩]) ds ⟨b.size - e, some n⟩ n
    (Option.some_ne_none n) (by simp only; omega) h.start
  have hlow := hc.lowered_index.trans (List.Perm.of_eq (hc.holes_low hbig h.start).symm)
  have hplace : h.start + extent 9 (cs ++ [⟨e - 9, none⟩]) = a + e := by
    rw [extent_append, extent_cons, extent_nil, hc.place]
    simp only
    omega
  rw [hplace] at hsplit
  refine hc.served_low hbig (if_pos (by omega)) ?_ (Nat.le_refl n) (fun _ => rfl) ht
    (hc.separate_split _ (Option.some_ne_none n) (hc.separate_low _ (Option.some_ne_none n)))
    (hindex.trans ((hlow.cons _).trans hsplit.symm)) hwatch
  simp only [extent_cons, extent_nil]
  omega

/-- What is known of the memory after a request was served. -/
theorem result_of_served (halign : alignHole (taken h i a) a = (h2, a + e)) {rest : ℕ}
    (hrest : sub32 (header h2.mem (a + e)).size n = rest)
    (hh3 : (if rest > 9 then heapHighSplit h2 (a + e) rest else h2) = h3)
    (hserved : Served h (cs ++ b :: ds) n) :
    heapwatchAlloc h3.watcher (pagePayload a) n ≠ none ∧
      ∃ h' us c vs, h'.mem = h3.mem ∧ h'.start = h.start ∧ h'.size = h.size ∧ Tiled h' (us ++ c :: vs) ∧
        a + e = h.start + extent 9 us ∧
        (inUse 9 h.start (us ++ c :: vs)).Perm ((a + e + 9, n) :: inUse 9 h.start (cs ++ b :: ds)) := by
  have hbound := hc.bound
  have hword := hc.word
  have hbelow := hc.below
  have heq := heapAlloc_aligned (hc.whole.tiled.heapCheck_passed hc.whole.separate) (Nat.ne_of_gt hc.positive)
    hc.found hc.best rfl halign hrest hh3
  have hptr : add32 (a + e) 9 = a + e + 9 := add32_of_lt (by omega)
  have hresult (r : Heap × ℕ) (hr : heapAlloc h n true = some r) :
      heapwatchAlloc h3.watcher (pagePayload a) n ≠ none ∧ r.1.mem = h3.mem ∧ r.2 = a + e + 9 := by
    rw [heq] at hr
    obtain ⟨recs, hrecs, hsome⟩ := Option.bind_eq_some_iff.mp hr
    split_ifs at hsome
    obtain rfl := Option.some.inj hsome
    rw [hc.payload_eq]
    exact ⟨by simp [hrecs], rfl, hptr⟩
  rcases hserved with hnull | ⟨h', ptr, us, c, vs, hsome, -, -, hw, hstart, hsize, hplace, -, -, hperm⟩
  · obtain ⟨-, -, hzero⟩ := hresult _ hnull
    simp only at hzero
    omega
  · obtain ⟨hwatch, hmem, hat⟩ := hresult _ hsome
    simp only at hmem hat
    rw [hat] at hperm hplace
    exact ⟨hwatch, h', us, c, vs, hmem, hstart, hsize, hw.tiled, by omega, hperm⟩

/-- The block behind the hole is in use, and stays where it is. -/
theorem next_head {cs' : List Block} (hds : ds ≠ [])
    (hperm : (inUse 9 h.start cs').Perm ((a + e + 9, n) :: inUse 9 h.start (cs ++ b :: ds))) :
    ∃ us d vs, cs' = us ++ d :: vs ∧ a + (9 + b.size) = h.start + extent 9 us := by
  obtain ⟨d, ds', rfl⟩ := List.exists_cons_of_ne_nil hds
  have hused : d.request ≠ none := (separate_iff.mp hc.whole.separate).2.2.2 d rfl hc.hole
  obtain ⟨r, hr⟩ := Option.ne_none_iff_exists'.mp hused
  have hmem : (a + (9 + b.size) + 9, r) ∈ inUse 9 h.start (cs ++ b :: d :: ds') := by
    rw [mem_inUse_iff]
    refine ⟨cs ++ [b], d, ds', by simp, hr, ?_⟩
    rw [extent_append, extent_cons, extent_nil, hc.place]
    simp only
    omega
  obtain ⟨us, u, vs, hcs, -, hplace⟩ := mem_inUse (hperm.mem_iff.mpr (List.mem_cons_of_mem _ hmem))
  simp only at hplace
  exact ⟨us, u, vs, hcs, by omega⟩

/-- No block can reach into what follows the hole. -/
theorem no_overrun {us vs : List Block} {c : Block} {y : ℕ} (hsize : h'.size = h.size)
    (ht : Tiled h' (us ++ c :: vs)) (hy : y = h.start + extent 9 us)
    (hperm : (inUse 9 h.start (us ++ c :: vs)).Perm ((a + e + 9, n) :: inUse 9 h.start (cs ++ b :: ds)))
    (hbefore : y < a + (9 + b.size)) : y + (9 + c.size) ≤ a + (9 + b.size) := by
  have hbound := hc.bound
  have hbound' := ht.bounded
  cases ds with
  | nil =>
    rw [extent_nil] at hbound
    omega
  | cons d ds' =>
    obtain ⟨us', d', vs', hlist, hplace⟩ := hc.next_head (by simp) hperm
    have hmem := place_mem (w := 9) h.start us vs c
    have hmem' := place_mem (w := 9) h.start us' vs' d'
    rw [← hlist] at hmem'
    rcases places_distinct hmem hmem' with hsame | hapart | hapart
    · have hat := congrArg Prod.fst hsame
      simp only at hat
      omega
    · simp only at hapart
      omega
    · simp only at hapart
      omega

/-- The first block is marked, although no slack is in front of it. -/
theorem not_served_first (he : e = 0) (hfirst : cs = []) : ¬Served h (cs ++ b :: ds) n := by
  intro hserved
  subst he hfirst
  have hbound := hc.bound
  have hword := hc.word
  have hfits := hc.fitting
  have hpos := hc.positive
  have hhead := hc.header_taken
  have hnew := hc.newaddr_eq
  have halign := alignHole_mark hnew hc.extra (by omega) (by rw [hhead]; rfl)
  rw [Nat.add_zero, moveHeader_same] at halign
  have hmark : header (setPrev (taken h i a).mem a 1) a = ⟨0, b.size, 1⟩ := by
    rw [header_setPrev, hhead, Nat.mod_eq_of_lt (by decide : 1 < 2 ^ 32)]
  have hrest : sub32 (header (setPrev (taken h i a).mem a 1) a).size n = b.size - n := by
    rw [hmark]
    exact sub32_of_le (by simp only; omega) (by simp only; omega)
  obtain ⟨-, h', us, c, vs, hmem, hstart, -, ht, hplace, -⟩ := hc.result_of_served halign hrest rfl hserved
  have hplace' := hc.place
  rw [extent_nil] at hplace'
  obtain rfl : us = [] := by
    cases us with
    | nil => rfl
    | cons u us =>
      rw [extent_cons] at hplace
      omega
  have hprev := congrArg HHeader.prev ht.header_first
  rw [hmem, hstart, ← Nat.add_zero h.start, ← hplace'] at hprev
  have hkept : (header (if b.size - n > 9 then heapHighSplit { taken h i a with
      mem := setPrev (taken h i a).mem a 1 } a (b.size - n) else { taken h i a with
      mem := setPrev (taken h i a).mem a 1 }).mem a).prev = 1 := by
    split_ifs with hcut
    · have hnext : hheaderNext (setPrev (taken h i a).mem a 1) a = a + (9 + b.size) := by
        unfold hheaderNext hheaderSize
        rw [hmark, @add32_of_lt _ 9 (by omega), add32_of_lt (by simp only; omega)]
        simp only
        omega
      have hsub : sub32 (a + (9 + b.size)) (b.size - n) = a + (9 + n) := by
        rw [sub32_of_le (by omega) (by omega)]
        omega
      have hblock := heapHighSplit_block (h := { taken h i a with mem := setPrev (taken h i a).mem a 1 })
        (congrArg HHeader.size hmark) (by simp only; omega) (by simp only; omega) hnext hsub rfl
        (Or.inl (by omega))
      exact (congrArg HHeader.prev hblock).trans (congrArg HHeader.prev hmark)
    · exact congrArg HHeader.prev hmark
  exact absurd (hkept.symm.trans hprev) (by simp)

/-- Too little slack for a hole: the header moves up, and keeps the size. -/
theorem align_small (hsmall : e ≤ 9) : ∃ h2 p, alignHole (taken h i a) a = (h2, a + e) ∧
    header h2.mem (a + e) = ⟨0, b.size, p⟩ := by
  have hlow := hc.low
  have hplace := hc.place
  have hhead := hc.header_taken
  rcases lastPlace_eq cs h.start with ⟨-, hp⟩ | ⟨us, u, hcs, hp⟩
  · rw [hp] at hhead
    refine ⟨_, 1, alignHole_mark hc.newaddr_eq hc.extra hsmall (by rw [hhead]), ?_⟩
    rw [header_setPrev, header_moveHeader, hhead, Nat.mod_eq_of_lt (by decide : 1 < 2 ^ 32)]
  · rw [hp] at hhead
    rw [hcs, extent_append, extent_cons, extent_nil] at hplace
    refine ⟨_, h.start + extent 9 us,
      alignHole_donate hc.newaddr_eq hc.extra hsmall (by rw [hhead]; simp only; omega), ?_⟩
    rw [hhead, header_setSize_other _ (Or.inr (by simp only; omega)), header_moveHeader, hhead]

/-- The block then reaches past its end. -/
theorem not_served_small (hpos : 0 < e) (hsmall : e ≤ 9) : ¬Served h (cs ++ b :: ds) n := by
  intro hserved
  have hbound := hc.bound
  have hword := hc.word
  have hbelow := hc.below
  have hfits := hc.fitting
  have hpage := hc.page
  obtain ⟨h2, p, halign, hmark⟩ := hc.align_small hsmall
  have hs : (header h2.mem (a + e)).size = b.size := by rw [hmark]
  have hrest : sub32 (header h2.mem (a + e)).size n = b.size - n := by
    rw [hs]
    exact sub32_of_le (by omega) (by omega)
  obtain ⟨-, h', us, c, vs, hmem, hstart, hsize, ht, hplace, hperm⟩ :=
    hc.result_of_served halign hrest rfl hserved
  have hblock := ht.header_eq
  rw [hmem, hstart, ← hplace] at hblock
  by_cases hcut : b.size - n > 9
  · rw [if_pos hcut] at hblock hmem
    obtain ⟨next, hnext⟩ : ∃ next, hheaderNext h2.mem (a + e) = next := ⟨_, rfl⟩
    have hwhere : next = (a + e + 9 + b.size) % 2 ^ 32 := by
      rw [← hnext, hheaderNext, hs, hheaderSize]
      unfold add32
      omega
    have hnew : sub32 next (b.size - n) = a + e + (9 + n) := by
      rw [hwhere]
      unfold sub32
      omega
    have hfar : a + e + (9 + n) + 9 ≤ next ∨ next + 9 ≤ a + e := by omega
    have hn := heapHighSplit_block hs (by omega) (by omega) hnext hnew rfl hfar
    have hhole := heapHighSplit_newhole hs (by omega) (by omega) hnext hnew rfl hfar (by omega)
    have hcsize : n = c.size := congrArg HHeader.size (hn.symm.trans hblock)
    have hbounded := ht.bounded
    cases vs with
    | nil =>
      rw [extent_nil] at hbounded
      omega
    | cons v vs =>
      obtain ⟨hsecond, -, -⟩ := Tiled.second ht
      rw [hmem, hstart, ← hplace, ← hcsize, hhole] at hsecond
      have hvsize : b.size - n - 9 = v.size := congrArg HHeader.size hsecond
      rw [List.append_cons] at ht hperm
      have hin := hc.no_overrun (y := a + e + (9 + n)) hsize ht
        (by rw [extent_append, extent_cons, extent_nil, hplace]; omega) hperm (by omega)
      omega
  · rw [if_neg hcut, hmark] at hblock
    have hcsize : b.size = c.size := congrArg HHeader.size hblock
    have hin := hc.no_overrun hsize ht hplace hperm (by omega)
    omega

/-- The block behind keeps its link to the hole that was there. -/
theorem not_served_stale (hbig : 9 < e) (hds : ds ≠ []) (hsmall : b.size - e - n ≤ 9) :
    ¬Served h (cs ++ b :: ds) n := by
  intro hserved
  have hbound := hc.bound
  have hword := hc.word
  have hbelow := hc.below
  have hblock := hc.lowered_block hbig
  obtain ⟨-, h', us, c, vs, hmem, hstart, hsize, ht, hplace, hperm⟩ :=
    hc.result_of_served (hc.halign hbig) (hc.lowered_rest hbig) (if_neg (by omega)) hserved
  have hhead := ht.header_eq
  rw [hmem, hstart, ← hplace, hblock] at hhead
  have hcsize : b.size - e = c.size := congrArg HHeader.size hhead
  have hbounded := ht.bounded
  obtain ⟨d, ds', rfl⟩ := List.exists_cons_of_ne_nil hds
  cases vs with
  | nil =>
    have hd := hc.whole.tiled.positive d (by simp)
    rw [extent_nil] at hbounded
    rw [extent_cons] at hbound
    omega
  | cons v vs =>
    obtain ⟨hsecond, -, -⟩ := Tiled.second ht
    have hbehind := (Tiled.second hc.whole.tiled).1
    rw [← hc.place] at hbehind
    rw [hmem, hstart, ← hplace, ← hcsize] at hsecond
    have hend : a + e + (9 + (b.size - e)) = a + (9 + b.size) := by omega
    have hsame : header (lowered h i a e).mem (a + (9 + b.size)) = header h.mem (a + (9 + b.size)) :=
      header_congr fun x _ _ => hc.lowered_other hbig (Or.inr (by omega))
    rw [hend, hsame, hbehind] at hsecond
    have hprev : a = a + e := congrArg HHeader.prev hsecond
    omega

theorem align_watcher : ∃ h2, alignHole (taken h i a) a = (h2, a + e) ∧ h2.watcher = h.watcher := by
  by_cases hbig : 9 < e
  · exact ⟨_, alignHole_split hc.newaddr_eq hc.extra hbig, rfl⟩
  · by_cases hprev : (header (taken h i a).mem a).prev = 0
    · exact ⟨_, alignHole_mark hc.newaddr_eq hc.extra (by omega) hprev, rfl⟩
    · exact ⟨_, alignHole_donate hc.newaddr_eq hc.extra (by omega) hprev, rfl⟩

theorem watcher_of_served (hserved : Served h (cs ++ b :: ds) n) :
    heapwatchAlloc h.watcher (pagePayload a) n ≠ none := by
  obtain ⟨h2, halign, hsame⟩ := hc.align_watcher
  obtain ⟨rest, hrest⟩ : ∃ rest, sub32 (header h2.mem (a + e)).size n = rest := ⟨_, rfl⟩
  obtain ⟨hwatch, -⟩ := hc.result_of_served halign hrest rfl hserved
  have hkept : (if rest > 9 then heapHighSplit h2 (a + e) rest else h2).watcher = h2.watcher := by
    split_ifs
    · rfl
    · rfl
  rwa [hkept, hsame] at hwatch

theorem slackHandled_iff : SlackHandled h n a ↔
    (e = 0 ∧ cs ≠ []) ∨ (9 < e ∧ (9 < b.size - e - n ∨ ds = [])) := by
  have hfits := hc.fitting
  have hfirst : a ≠ h.start ↔ cs ≠ [] := by
    rw [hc.place]
    cases cs with
    | nil => simp
    | cons c cs =>
      rw [extent_cons]
      simp only [ne_eq, reduceCtorEq, not_false_eq_true, iff_true]
      omega
  have hvalid : hheaderIsvalid h (hheaderNext h.mem a) = false ↔ ds = [] := by
    have hiff := hc.whole.tiled.valid_iff
    rw [← hc.whole.tiled.next_eq, ← hc.place] at hiff
    rw [← Bool.not_eq_true, hiff, ne_eq, not_not]
  have hsize : (header h.mem a).size = b.size := by rw [hc.place, hc.whole.tiled.header_eq]
  unfold SlackHandled hheaderSize
  rw [hfirst, hvalid, hsize, hc.extra]
  refine or_congr Iff.rfl (and_congr_right fun _ => or_congr_left ?_)
  omega

theorem served_iff : Served h (cs ++ b :: ds) n ↔
    SlackHandled h n a ∧ heapwatchAlloc h.watcher (pagePayload a) n ≠ none := by
  rw [hc.slackHandled_iff]
  constructor
  · intro hserved
    refine ⟨?_, hc.watcher_of_served hserved⟩
    by_contra hno
    rcases Nat.eq_zero_or_pos e with he | he
    · by_cases hcs : cs = []
      · exact hc.not_served_first he hcs hserved
      · exact hno (Or.inl ⟨he, hcs⟩)
    · by_cases hbig : 9 < e
      · refine hc.not_served_stale hbig (fun hds => hno (Or.inr ⟨hbig, Or.inr hds⟩)) ?_ hserved
        by_contra hlarge
        exact hno (Or.inr ⟨hbig, Or.inl (by omega)⟩)
      · exact hc.not_served_small he (by omega) hserved
  · rintro ⟨⟨he, hcs⟩ | ⟨hbig, hrest⟩, hwatch⟩
    · exact hc.served_even he hcs hwatch
    · by_cases hlarge : 9 < b.size - e - n
      · exact hc.served_split hbig hlarge hwatch
      · exact hc.served_last hbig (hrest.resolve_left hlarge) (by omega) hwatch

end Candidate

/-- An aligned request is answered as it should be exactly when the hole it meets is one where the slack
is handled. -/
theorem served_iff_placeable (hw : Whole h bs) (hn : 0 < n) : Served h bs n ↔ Placeable h n := by
  cases hi : h.index.findIdx? (fits h.mem n true) with
  | none =>
    have hnone : h.index.find? (fits h.mem n true) = none := by
      rw [List.find?_eq_none]
      intro x hx
      simpa using List.findIdx?_eq_none_iff.mp hi x hx
    refine iff_of_true (Or.inl ?_) fun hole hhole => by rw [hnone] at hhole; cases hhole
    rw [heapAlloc, if_neg (not_not.mpr (hw.tiled.heapCheck_passed hw.separate)), if_neg (by omega), hi]
  | some i =>
    obtain ⟨cs, b, ds, a, e, rfl, hc⟩ := candidate_of_found hw hn hi
    have hfind : h.index.find? (fits h.mem n true) = some a := by
      obtain ⟨hlt, hp, hfirst⟩ := List.findIdx?_eq_some_iff_getElem.mp hi
      have hbest := hc.best
      rw [List.getD_eq_getElem?_getD, List.getElem?_eq_getElem hlt, Option.getD_some] at hbest
      exact List.find?_eq_some_iff_getElem.mpr ⟨hbest ▸ hp, i, hlt, hbest, fun j hj => by
        simpa using hfirst j hj⟩
    rw [hc.served_iff]
    unfold Placeable
    rw [hfind]
    simp

section Samples

open HeapRuns

theorem whole_init : Whole (heapInit (fun _ => 0) 0x1000 0x4000 0x4000) [⟨0x4000, none⟩] := by
  have hi := @inv_init (fun _ => 0) 0x1000 0x4000 0x4000 (by decide) (by decide) (by decide) (by decide)
  exact ⟨hi.kept.tiled, hi.kept.separate, hi.kept.index⟩

theorem served_iff_placeable_sample :
    Served (heapInit (fun _ => 0) 0x1000 0x4000 0x4000) [⟨0x4000, none⟩] 100 ↔
      Placeable (heapInit (fun _ => 0) 0x1000 0x4000 0x4000) 100 :=
  served_iff_placeable whole_init (by decide)

def fragmented : Option State :=
  (step ⟨heapInit (fun _ => 0) 0x1000 0x4000 0x4000, []⟩ (.alloc 0x1800)).bind fun s =>
    (step s (.alloc 20)).bind fun s => step s (.free 0x6009)

/-- A hole between two pages with nine bytes to spare: the check at the end of the call finds the old
link of the block behind. -/
theorem spare_header_panics : ∃ h bs, Whole h bs ∧ heapAlloc h 0x800 true = none ∧ ¬Served h bs 0x800 := by
  have hsome : (fragmented.bind fun s => some (heapAlloc s.heap 0x800 true).isNone) = some true := by
    decide +kernel
  obtain ⟨s, hs, hnone⟩ := Option.bind_eq_some_iff.mp hsome
  obtain ⟨s1, h1, hrest⟩ := Option.bind_eq_some_iff.mp hs
  obtain ⟨s2, h2, h3⟩ := Option.bind_eq_some_iff.mp hrest
  have hlive : ((step ⟨heapInit (fun _ => 0) 0x1000 0x4000 0x4000, []⟩ (.alloc 0x1800)).bind fun s =>
      (step s (.alloc 20)).map State.live) = some [(0x7812, 20), (0x6009, 0x1800)] := by decide +kernel
  rw [h1, Option.bind_some, h2, Option.map_some, Option.some.injEq] at hlive
  have hstep1 := Reachable.step (.alloc 0x1800) (@Reachable.init (fun _ => 0) 0x1000 0x4000 0x4000) trivial h1
  have hstep2 := Reachable.step (.alloc 20) hstep1 trivial h2
  have hstep3 := Reachable.step (.free 0x6009) hstep2 ⟨0x1800, by rw [hlive]; simp⟩ h3
  obtain ⟨bs, hi⟩ := inv_reachable (by decide) (by decide) (by decide) (by decide) hstep3
  have hpanic : heapAlloc s.heap 0x800 true = none := by
    simpa using hnone
  refine ⟨s.heap, bs, ⟨hi.kept.tiled, hi.kept.separate, hi.kept.index⟩, hpanic, ?_⟩
  rintro (hsome | ⟨h', ptr, us, b, vs, hsome, -⟩)
  · rw [hpanic] at hsome
    cases hsome
  · rw [hpanic] at hsome
    cases hsome

end Samples

end Eedox.HeapAligned
