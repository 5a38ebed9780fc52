import Eedox.HeapRuns

namespace Eedox.HeapIndex

open Library.Words Library.Blocks KernelHeap HeapTiling HeapSteps HeapWatch HeapCalls HeapRuns

/-- The slots of the array that `ordlist_insert` reads and writes, from the one behind the last entry
down. -/
def insertSlots (m : Mem) (array : List ℕ) (elem : ℕ) : (idx : ℕ) → List ℤ
  | 0 => [0]
  | idx + 1 =>
    (idx : ℤ) ::
      if compareHeaders m (array.getD idx 0) elem = 1 then
        (idx + 1 : ℤ) :: insertSlots m array elem idx
      else [(idx + 1 : ℤ)]

/-- The slots that `ordlist_remove` reads and writes; the index of an absent entry is -1. -/
def removeSlots (array : List ℕ) : Option ℕ → List ℤ
  | some idx =>
    (idx : ℤ) :: (List.range' idx (array.length - idx)).flatMap fun i : ℕ => [(i : ℤ) + 1, (i : ℤ)]
  | none => [-1]

def mergeSlots (h : Heap) (hole : ℕ) : List ℤ :=
  let next := hheaderNext h.mem hole
  if hheaderIsvalid h next ∧ (header h.mem next).isHole ≠ 0 then
    removeSlots h.index (heapHoleIndex h next)
  else []

/-- The slots touched by `heap_alloc` up to the records of the watcher. -/
def allocSlots (h : Heap) (size : ℕ) : List ℤ :=
  if heapCheck h ≠ .passed then []
  else if size = 0 then []
  else
    match h.index.findIdx? (fits h.mem size false) with
    | none => []
    | some bestIndex =>
      let best := h.index.getD bestIndex 0
      let m := setIsHole h.mem best 0
      let index := ordlistRemove h.index (some bestIndex)
      let rest := sub32 (header m best).size size
      removeSlots h.index (some bestIndex) ++
        if rest > hheaderSize then
          insertSlots (heapHighSplit { h with mem := m, index := index } best rest).mem index
            (sub32 (hheaderNext m best) rest) index.length
        else []

/-- The slots touched by `heap_free`. -/
def freeSlots (h : Heap) (ptr : ℕ) : List ℤ :=
  if heapCheck h ≠ .passed then []
  else
    match heapwatchFree h.watcher ptr with
    | none => []
    | some watcher =>
      if ptr = 0 then []
      else
        let block := sub32 ptr hheaderSize
        let m := setIsHole h.mem block 1
        let h1 := { h with watcher := watcher, mem := m, index := ordlistInsert m h.index block }
        let h2 := heapMerge h1 block
        let prev := (header h2.mem block).prev
        insertSlots m h.index block h.index.length ++ mergeSlots h1 block ++
          if prev ≠ 0 ∧ (header h2.mem prev).isHole ≠ 0 ∧ prev ≠ 1 then mergeSlots h2 prev else []

def slots (s : State) : Action → List ℤ
  | .alloc size => allocSlots s.heap size.toNat
  | .free ptr => freeSlots s.heap ptr
  | .store _ _ => []

variable {h : Heap} {bs : List Block} {m : Mem} {array : List ℕ} {elem idx : ℕ} {x : ℤ}

theorem mem_insertSlots (hx : x ∈ insertSlots m array elem idx) : 0 ≤ x ∧ x ≤ idx := by
  induction idx with
  | zero =>
    rw [insertSlots, List.mem_singleton] at hx
    omega
  | succ idx ih =>
    rw [insertSlots, List.mem_cons] at hx
    rcases hx with rfl | hx
    · omega
    · split_ifs at hx
      · rcases List.mem_cons.mp hx with rfl | hx
        · omega
        · have hrest := ih hx
          omega
      · rw [List.mem_singleton] at hx
        omega

theorem mem_removeSlots (hidx : idx < array.length) (hx : x ∈ removeSlots array (some idx)) :
    0 ≤ x ∧ x ≤ array.length := by
  rw [removeSlots, List.mem_cons] at hx
  rcases hx with rfl | hx
  · omega
  · obtain ⟨i, hi, hx⟩ := List.mem_flatMap.mp hx
    rw [List.mem_range'_1] at hi
    simp only [List.mem_cons, List.not_mem_nil, or_false] at hx
    omega

/-- No hole follows a hole, so there is at most one more than there are blocks in use. -/
theorem holes_le (hs : Separate bs) (a : ℕ) : (holes 9 a bs).length ≤ (inUse 9 a bs).length + 1 ∧
    ((∀ b ∈ bs.head?, b.request ≠ none) → (holes 9 a bs).length ≤ (inUse 9 a bs).length) := by
  induction bs generalizing a with
  | nil => exact ⟨by simp, by simp⟩
  | cons b bs ih =>
    obtain ⟨hhead, hrest⟩ := List.isChain_cons.mp hs
    obtain ⟨h1, h2⟩ := ih hrest (a + (9 + b.size))
    rw [holes_cons]
    cases hb : b.request with
    | none =>
      rw [inUse_hole a bs hb]
      have hlt := h2 fun c hc => hhead c hc hb
      simp only [Option.isNone_none, if_true, List.length_cons, List.head?_cons, Option.mem_def,
        Option.some.injEq, forall_eq']
      exact ⟨by omega, fun hc => absurd hb hc⟩
    | some n =>
      rw [inUse_used a bs hb]
      simp only [Option.isNone_some, Bool.false_eq_true, if_false, List.length_cons]
      exact ⟨by omega, fun _ => h1⟩

theorem Kept.index_length (hk : Kept h bs) : h.index.length ≤ (inUse 9 h.start bs).length + 1 := by
  rw [hk.index.length_eq]
  exact (holes_le hk.separate h.start).1

theorem Kept.inUse_length (hk : Kept h bs) : (inUse 9 h.start bs).length ≤ 1024 := by
  rw [← hk.records.length_eq]
  exact (List.length_filter_le _ _).trans hk.length

theorem heapHoleIndex_lt {head : ℕ} (hm : head ∈ h.index) :
    ∃ idx, heapHoleIndex h head = some idx ∧ idx < h.index.length := by
  unfold heapHoleIndex
  cases hi : h.index.findIdx? fun e => e = head with
  | none =>
    have hnone := List.findIdx?_eq_none_iff.mp hi head hm
    simp at hnone
  | some idx => exact ⟨idx, rfl, (List.findIdx?_eq_some_iff_getElem.mp hi).1⟩

theorem mem_mergeSlots {ds : List Block} {c : Block} (ht : Tiled h (bs ++ c :: ds))
    (hi : h.index.Perm (holes 9 h.start (bs ++ c :: ds)))
    (hx : x ∈ mergeSlots h (h.start + extent 9 bs)) : 0 ≤ x ∧ x ≤ h.index.length := by
  simp only [mergeSlots, ht.next_eq] at hx
  split_ifs at hx with hcond
  · obtain ⟨hvalid, hhole⟩ := hcond
    cases ds with
    | nil => exact absurd rfl (ht.valid_iff.mp hvalid)
    | cons d ds =>
      rw [(Tiled.second ht).1] at hhole
      have hmem : h.start + extent 9 bs + (9 + c.size) ∈ h.index := by
        rw [hi.mem_iff, mem_holes_iff]
        refine ⟨bs ++ [c], d, ds, by simp, flag_ne_zero.mp hhole, ?_⟩
        rw [extent_append, extent_cons, extent_nil]
        omega
      obtain ⟨idx, hidx, hlt⟩ := heapHoleIndex_lt hmem
      rw [hidx] at hx
      exact mem_removeSlots hlt hx
  · cases hx

theorem heapMerge_index_le (h : Heap) (hole : ℕ) :
    (heapMerge h hole).index.length ≤ h.index.length := by
  unfold heapMerge
  simp only
  split
  · change (ordlistRemove h.index _).length ≤ _
    unfold ordlistRemove
    split
    · exact (List.eraseIdx_sublist _ _).length_le
    · exact (List.dropLast_sublist _).length_le
  · exact Nat.le_refl _

theorem mem_allocSlots {size : ℕ} (hx : x ∈ allocSlots h size) : 0 ≤ x ∧ x ≤ h.index.length := by
  unfold allocSlots at hx
  split_ifs at hx
  · cases hx
  · cases hx
  · cases hi : h.index.findIdx? (fits h.mem size false) with
    | none =>
      rw [hi] at hx
      cases hx
    | some idx =>
      rw [hi] at hx
      have hlt := (List.findIdx?_eq_some_iff_getElem.mp hi).1
      rcases List.mem_append.mp hx with hx | hx
      · exact mem_removeSlots hlt hx
      · split_ifs at hx
        · have hin := mem_insertSlots hx
          have hlen : (ordlistRemove h.index (some idx)).length ≤ h.index.length :=
            (List.eraseIdx_sublist _ _).length_le
          omega
        · cases hx

theorem mem_freeSlots {ptr n : ℕ} (hk : Kept h bs) (hptr : (ptr, n) ∈ inUse 9 h.start bs)
    (hx : x ∈ freeSlots h ptr) : 0 ≤ x ∧ x ≤ h.index.length + 1 := by
  have hword := hk.tiled.word
  obtain ⟨hlow, -, hhigh⟩ := hk.inUse_pos hptr
  simp only at hlow hhigh
  unfold freeSlots at hx
  rw [if_neg (not_not.mpr (hk.tiled.heapCheck_passed hk.separate))] at hx
  cases hwatch : heapwatchFree h.watcher ptr with
  | none =>
    rw [hwatch] at hx
    cases hx
  | some recs =>
    rw [hwatch] at hx
    simp only at hx
    rw [if_neg (by omega)] at hx
    obtain ⟨cs, b, ds, rfl, hb, hplace⟩ := mem_inUse hptr
    change ptr = _ at hplace
    change b.request = some n at hb
    have hused : b.request ≠ none := by simp [hb]
    have hblock : sub32 ptr hheaderSize = h.start + extent 9 cs := by
      rw [sub32_of_le (by unfold hheaderSize; omega) (by omega), hheaderSize]
      omega
    obtain ⟨h1, hh1⟩ : ∃ h1 : Heap, h1 = { h with
      watcher := recs
      mem := setIsHole h.mem (sub32 ptr hheaderSize) 1
      index := ordlistInsert (setIsHole h.mem (sub32 ptr hheaderSize) 1) h.index
        (sub32 ptr hheaderSize) } := ⟨_, rfl⟩
    rw [← hh1] at hx
    obtain ⟨ht1, hi1, hstart1, -, -⟩ := give_spec hk hused hblock hh1
    obtain ⟨hs1, hs2, -, -⟩ := separate_iff.mp hk.separate
    obtain ⟨c, ds', hc, -, -, ht2, hi2, -⟩ := merge_spec ht1 rfl hi1 hs2
    have hlen1 : h1.index.length = h.index.length + 1 := by
      rw [hh1]
      exact (ordlistInsert_perm _ _ _).length_eq
    have hlen2 := heapMerge_index_le h1 (h1.start + extent 9 cs)
    have hplace1 : sub32 ptr hheaderSize = h1.start + extent 9 cs := by rw [hstart1, hblock]
    rw [hplace1] at hx
    have hstart2 := heapMerge_start h1 (h1.start + extent 9 cs)
    generalize heapMerge h1 (h1.start + extent 9 cs) = h2 at hx ht2 hi2 hlen2 hstart2
    rw [← hstart2] at hi2
    rcases List.mem_append.mp hx with hx | hx
    · rcases List.mem_append.mp hx with hx | hx
      · have hin := mem_insertSlots hx
        omega
      · have hin := mem_mergeSlots ht1 hi1 hx
        omega
    · split_ifs at hx with hprev
      · rw [← hstart2, ht2.header_eq] at hx hprev
        simp only at hx hprev
        rcases lastPlace_eq cs h2.start with ⟨-, hp⟩ | ⟨es, e, rfl, hp⟩
        · rw [hp] at hprev
          exact absurd rfl hprev.1
        · rw [List.append_assoc, List.singleton_append] at ht2 hi2
          rw [hp] at hx
          have hin := mem_mergeSlots ht2 hi2 hx
          omega
      · cases hx

section Runs

variable {start size : ℕ} {s s' : State}

theorem step_start {a : Action} (hi : Inv size s bs) (hp : Permitted s a) (hstep : step s a = some s') :
    s'.heap.start = s.heap.start := by
  cases a with
  | alloc n =>
    obtain ⟨r, hr, rfl⟩ := Option.map_eq_some_iff.mp hstep
    by_cases hhole : 0 < n.toNat ∧ ∃ a ∈ s.heap.index, n.toNat ≤ (header s.heap.mem a).size
    · by_cases hroom : (inUse 9 s.heap.start bs).length < 1024
      · obtain ⟨h', ptr, bs', halloc, -, -, -, hstart, -⟩ := alloc_some hi.kept hhole.1 hhole.2 hroom
        rw [halloc] at hr
        obtain rfl := Option.some.inj hr
        exact hstart
      · rw [alloc_full hi.kept hhole.1 hhole.2 (by omega)] at hr
        cases hr
    · rw [alloc_none hi.kept (not_fitting hhole)] at hr
      obtain rfl := Option.some.inj hr
      rfl
  | free ptr =>
    obtain ⟨r, hr, rfl⟩ := Option.map_eq_some_iff.mp hstep
    obtain ⟨n, hx⟩ := hp
    obtain ⟨h', bs', hfree, -, -, hstart, -⟩ := free_spec hi.kept (hi.live.mem_iff.mp hx)
    rw [hfree] at hr
    obtain rfl := Option.some.inj hr
    exact hstart
  | store addr value =>
    obtain rfl := Option.some.inj hstep
    rfl

theorem reachable_start (hsize : 0 < size)
    (hstart : start + 0x4000 ≤ (heapInit m start size 0x4000).start)
    (hword : (heapInit m start size 0x4000).start + (hheaderSize + size) < 2 ^ 32)
    (hs : Reachable m start size 0x4000 s) : s.heap.start = (heapInit m start size 0x4000).start := by
  induction hs with
  | init => rfl
  | step a hprev hp hstep ih =>
    obtain ⟨cs, hinv⟩ := inv_reachable hsize (by decide) hstart hword hprev
    exact (step_start hinv hp hstep).trans ih

/-- The index of the kernel heap has 4096 slots: no call touches one outside. -/
theorem slots_inside (hsize : 0 < size)
    (hstart : start + 0x4000 ≤ (heapInit m start size 0x4000).start)
    (hword : (heapInit m start size 0x4000).start + (hheaderSize + size) < 2 ^ 32)
    (hs : Reachable m start size 0x4000 s) :
    s.heap.index.length ≤ s.live.length + 1 ∧ s.live.length ≤ 1024 ∧
      ∀ a, Permitted s a → ∀ x ∈ slots s a,
        0 ≤ x ∧ start + 4 * x + 4 ≤ start + 0x4000 ∧ start + 0x4000 ≤ s.heap.start := by
  obtain ⟨bs, hi⟩ := inv_reachable hsize (by decide) hstart hword hs
  have hplace := reachable_start hsize hstart hword hs
  have hindex := Kept.index_length hi.kept
  have hlive := Kept.inUse_length hi.kept
  have hcount := hi.live.length_eq
  refine ⟨by omega, by omega, fun a hp x hx => ?_⟩
  have hbound : 0 ≤ x ∧ x ≤ s.heap.index.length + 1 := by
    cases a with
    | alloc n =>
      have hin := mem_allocSlots hx
      omega
    | free ptr =>
      obtain ⟨n, hmem⟩ := hp
      exact mem_freeSlots hi.kept (hi.live.mem_iff.mp hmem) hx
    | store addr value => cases hx
  omega

theorem slots_inside_sample : ∃ s, s.live = [(0x6009, 24)] ∧ s.heap.index.length ≤ 2 ∧
    ∀ x ∈ slots s (.free 0x6009), 0 ≤ x ∧ 0x1000 + 4 * x + 4 ≤ 0x5000 := by
  let init : State := ⟨heapInit (fun _ => 0) 0x1000 100 0x4000, []⟩
  have hsome : ((step init (.alloc 24)).map State.live) = some [(0x6009, 24)] := by decide
  obtain ⟨s, hs, hlive⟩ := Option.map_eq_some_iff.mp hsome
  obtain ⟨hindex, -, hslots⟩ := slots_inside (by decide) (by decide) (by decide)
    (Reachable.step (.alloc 24) (@Reachable.init (fun _ => 0) 0x1000 100 0x4000) trivial hs)
  refine ⟨s, hlive, ?_, fun x hx => ?_⟩
  · rw [hlive] at hindex
    exact hindex
  · obtain ⟨hlow, hhigh, -⟩ := hslots (.free 0x6009) ⟨24, by rw [hlive]; exact List.mem_cons_self⟩ x hx
    exact ⟨hlow, hhigh⟩

end Runs

end Eedox.HeapIndex
