import Eedox.HeapRuns
import Eedox.Library.Ordered
import Eedox.Library.Runs

namespace Eedox.HeapOrder

open Library.Words Library.Blocks Library.Ordered Library.Runs KernelHeap HeapTiling HeapSteps HeapCalls
  HeapRuns

def holeSize (m : Mem) (a : ℕ) : ℕ := (header m a).size

/-- The index lists the holes by ascending size. -/
def Sorted (h : Heap) : Prop := Ascending (holeSize h.mem) h.index

/-- What `heap_alloc` returns lies in a smallest one of the holes that are large enough. -/
def BestFit (h : Heap) : Prop := ∀ n h' ptr, heapAlloc h n false = some (h', ptr) → ptr ≠ 0 →
  ∃ best ∈ h.index, ptr = add32 best hheaderSize ∧ n ≤ holeSize h.mem best ∧
    ∀ e ∈ h.index, n ≤ holeSize h.mem e → holeSize h.mem best ≤ holeSize h.mem e

def nextHole (h : Heap) (block : ℕ) : Bool :=
  hheaderIsvalid h (hheaderNext h.mem block) ∧ (header h.mem (hheaderNext h.mem block)).isHole ≠ 0

def prevHole (h : Heap) (block : ℕ) : Bool :=
  (header h.mem block).prev ≠ 0 ∧ (header h.mem (header h.mem block).prev).isHole ≠ 0

/-- The size of the hole that a block becomes with the holes next to it. -/
def mergedSize (h : Heap) (block : ℕ) : ℕ :=
  holeSize h.mem block +
    (if nextHole h block then holeSize h.mem (hheaderNext h.mem block) + hheaderSize else 0) +
    if prevHole h block then holeSize h.mem (header h.mem block).prev + hheaderSize else 0

/-- The entries behind the one that grows: it is the hole in front, or else where the block went by its
own size. -/
def entriesBehind (h : Heap) (block : ℕ) : List ℕ :=
  if prevHole h block then behind (header h.mem block).prev h.index
  else h.index.filter fun e => holeSize h.mem block < holeSize h.mem e

/-- A freed block grows no larger than the holes listed behind the one that it is merged into. -/
def KeepsOrder (h : Heap) (block : ℕ) : Prop :=
  ∀ e ∈ entriesBehind h block, e ≠ hheaderNext h.mem block → mergedSize h block ≤ holeSize h.mem e

def Orderly (s : State) : Action → Prop
  | .free ptr => KeepsOrder s.heap (sub32 ptr hheaderSize)
  | .alloc _ => True
  | .store _ _ => True

variable {h h' : Heap} {bs cs cs' ds : List Block} {b c d : Block} {n : ℕ}

theorem bestFit_of_sorted (hs : Sorted h) : BestFit h := by
  intro n h' ptr halloc hptr
  have hcheck : heapCheck h = .passed := by
    by_contra hfail
    rw [heapAlloc, if_pos hfail] at halloc
    cases halloc
  have hn : n ≠ 0 := by
    intro hzero
    rw [heapAlloc, if_neg (not_not.mpr hcheck), if_pos hzero] at halloc
    exact hptr (congrArg Prod.snd (Option.some.inj halloc)).symm
  cases hi : h.index.findIdx? (fits h.mem n false) with
  | none =>
    rw [heapAlloc, if_neg (not_not.mpr hcheck), if_neg hn, hi] at halloc
    exact absurd (congrArg Prod.snd (Option.some.inj halloc)).symm hptr
  | some i =>
    obtain ⟨hlt, hfit, hfirst⟩ := List.findIdx?_eq_some_iff_getElem.mp hi
    have hbest : h.index.getD i 0 = h.index[i] := by
      rw [List.getD_eq_getElem?_getD, List.getElem?_eq_getElem hlt, Option.getD_some]
    have heq := heapAlloc_eq hcheck hn hi hbest rfl rfl rfl
    revert heq
    generalize (if _ > 9 then _ else _) = h2
    intro heq
    rw [heq] at halloc
    obtain ⟨watcher, -, hsome⟩ := Option.bind_eq_some_iff.mp halloc
    split_ifs at hsome
    refine ⟨h.index[i], List.getElem_mem hlt, (congrArg Prod.snd (Option.some.inj hsome)).symm,
      by simpa [fits, holeSize] using hfit, fun e he hsize => ?_⟩
    obtain ⟨j, hj, rfl⟩ := List.getElem_of_mem he
    rcases Nat.lt_trichotomy i j with hij | rfl | hij
    · exact List.pairwise_iff_getElem.mp hs i j hlt hj hij
    · exact Nat.le_refl _
    · exact absurd (by simpa [fits, holeSize] using hsize) (hfirst j hij)

theorem ordlistInsert_eq (m : Mem) (array : List ℕ) (elem : ℕ) :
    ordlistInsert m array elem = insertKey (holeSize m) array elem := by
  have hcompare (e : ℕ) : decide (compareHeaders m e elem = 1) =
      decide (holeSize m elem < holeSize m e) := by
    unfold compareHeaders
    refine decide_eq_decide.mpr ?_
    change _ ↔ (header m elem).size < (header m e).size
    split_ifs with heq hlt
    · omega
    · omega
    · exact ⟨False.elim, hlt⟩
  unfold ordlistInsert insertKey
  simp only [hcompare]

/-- The entry of a block that is in the index is taken out. -/
theorem ordlistRemove_eq {head : ℕ} (hm : head ∈ h.index) :
    ordlistRemove h.index (heapHoleIndex h head) = h.index.erase head := by
  have hidx : heapHoleIndex h head = some (h.index.idxOf head) := by
    unfold heapHoleIndex
    have hlt := List.idxOf_lt_length_of_mem hm
    refine List.findIdx?_eq_some_iff_getElem.mpr ⟨hlt, by simp, fun j hj => ?_⟩
    have hne := List.not_of_lt_findIdx hj
    simpa using hne
  rw [hidx]
  exact (List.erase_eq_eraseIdx_of_idxOf rfl).symm

/-- The blocks outside the room of those that were exchanged keep their sizes. -/
theorem holeSize_kept {e : ℕ} (ht : Tiled h (bs ++ (cs ++ ds))) (ht' : Tiled h' (bs ++ (cs' ++ ds)))
    (hstart : h'.start = h.start) (he : extent 9 cs' = extent 9 cs)
    (hmem : e ∈ holes 9 h.start bs ∨ e ∈ holes 9 (h.start + extent 9 bs + extent 9 cs) ds) :
    holeSize h'.mem e = holeSize h.mem e := by
  unfold holeSize
  rcases hmem with hmem | hmem
  · obtain ⟨us, b, vs, rfl, -, rfl⟩ := mem_holes hmem
    rw [List.append_assoc, List.cons_append] at ht ht'
    have hhead := ht'.header_eq
    rw [hstart] at hhead
    rw [hhead, ht.header_eq]
  · obtain ⟨us, b, vs, rfl, -, rfl⟩ := mem_holes hmem
    rw [← List.append_assoc, ← List.append_assoc] at ht ht'
    have hhead := ht.header_eq
    have hhead' := ht'.header_eq
    simp only [extent_append, hstart, he] at hhead hhead'
    have hplace : h.start + extent 9 bs + extent 9 cs + extent 9 us =
      h.start + (extent 9 bs + extent 9 cs + extent 9 us) := by omega
    rw [hplace, hhead, hhead']

theorem holeSize_beside {e : ℕ} (ht : Tiled h (bs ++ b :: ds)) (ht' : Tiled h' (bs ++ c :: ds))
    (hstart : h'.start = h.start) (hsize : c.size = b.size) (hb : b.request ≠ none)
    (he : e ∈ holes 9 h.start (bs ++ b :: ds)) : holeSize h'.mem e = holeSize h.mem e := by
  rw [holes_used _ _ _ hb, List.mem_append] at he
  refine @holeSize_kept _ _ _ [b] [c] _ _ ht ht' hstart ?_ ?_
  · rw [extent_cons, extent_cons, hsize]
  · rw [extent_cons, extent_nil, Nat.add_zero]
    exact he

theorem holes_distinct {a x y : ℕ} (hx : x ∈ holes 9 a bs) (hy : y ∈ holes 9 a bs) :
    x = y ∨ x + 9 ≤ y ∨ y + 9 ≤ x := by
  obtain ⟨u, hu, rfl⟩ := List.mem_map.mp hx
  obtain ⟨v, hv, rfl⟩ := List.mem_map.mp hy
  rcases places_distinct (List.mem_filter.mp hu).1 (List.mem_filter.mp hv).1 with rfl | huv
  · exact Or.inl rfl
  · omega

theorem holeSize_mark {m : Mem} {x e : ℕ} {f : UInt8} (he : e = x ∨ e + 9 ≤ x ∨ x + 9 ≤ e) :
    holeSize (setIsHole m x f) e = holeSize m e := by
  unfold holeSize
  rcases he with rfl | he
  · rw [header_setIsHole]
  · rw [header_setIsHole_other f he]

/-- The new hole finds its place in the index. -/
theorem split_sorted (ht : Tiled h (bs ++ b :: ds)) (hb : b.request ≠ none)
    (hi : h.index.Perm (holes 9 h.start (bs ++ b :: ds))) (hn : n + 9 < b.size) (hpos : 0 < n)
    (hs : Sorted h) : Sorted (heapHighSplit h (h.start + extent 9 bs) (b.size - n)) := by
  obtain ⟨m, x, hindex, hmem⟩ : ∃ m x, (heapHighSplit h (h.start + extent 9 bs) (b.size - n)).index =
      ordlistInsert m h.index x ∧
      (heapHighSplit h (h.start + extent 9 bs) (b.size - n)).mem = setIsHole m x 1 := ⟨_, _, rfl, rfl⟩
  have ht' := tiled_split ht hn hpos
  have hperm := (heapHighSplit_index ht hn).trans ((hi.cons _).trans (holes_split hb (by omega) h.start).symm)
  have hx : x ∈ ordlistInsert m h.index x := (ordlistInsert_perm m h.index x).mem_iff.mpr List.mem_cons_self
  rw [hindex] at hperm
  have hmark (e : ℕ) (he : e ∈ ordlistInsert m h.index x) : holeSize (setIsHole m x 1) e = holeSize m e :=
    holeSize_mark (holes_distinct (hperm.mem_iff.mp he) (hperm.mem_iff.mp hx))
  have hkept (e : ℕ) (he : e ∈ h.index) : holeSize (setIsHole m x 1) e = holeSize h.mem e := by
    rw [← hmem]
    have hmem := hi.mem_iff.mp he
    rw [holes_used _ _ _ hb, List.mem_append] at hmem
    refine @holeSize_kept _ _ _ [b] [⟨n, b.request⟩, ⟨b.size - n - 9, none⟩] _ _ ht ht' rfl ?_ ?_
    · simp only [extent_cons, extent_nil]
      omega
    · rw [extent_cons, extent_nil, Nat.add_zero]
      exact hmem
  unfold Sorted
  rw [hmem, hindex, ascending_congr hmark, ordlistInsert_eq]
  apply insertKey_ascending
  refine (ascending_congr fun e he => ?_).mp hs
  have hin : e ∈ ordlistInsert m h.index x :=
    (ordlistInsert_perm m h.index x).mem_iff.mpr (List.mem_cons_of_mem x he)
  rw [← hmark e hin, hkept e he]

theorem alloc_sorted {ptr : ℕ} (hk : Kept h bs) (hs : Sorted h)
    (halloc : heapAlloc h n false = some (h', ptr)) : Sorted h' := by
  have hcheck := hk.tiled.heapCheck_passed hk.separate
  by_cases hn : n = 0
  · rw [alloc_none hk (Or.inl hn)] at halloc
    obtain rfl : h = h' := congrArg Prod.fst (Option.some.inj halloc)
    exact hs
  · cases hi : h.index.findIdx? (fits h.mem n false) with
    | none =>
      rw [heapAlloc, if_neg (not_not.mpr hcheck), if_neg hn, hi] at halloc
      obtain rfl : h = h' := congrArg Prod.fst (Option.some.inj halloc)
      exact hs
    | some i =>
      obtain ⟨cs, b, ds, rfl, hb, hfit, hbest, hindex⟩ := best_hole hk hi
      have hbound := hk.tiled.bounded
      have hword := hk.tiled.word
      obtain ⟨ht1, -, hi1⟩ := take_spec hk.tiled hk.separate hk.index hb (n := n) hindex
      have hrest : sub32 (header (setIsHole h.mem (h.start + extent 9 cs) 0) (h.start + extent 9 cs)).size n =
          b.size - n := by
        rw [ht1.header_eq]
        exact sub32_of_le hfit (by simp only; omega)
      have heq := heapAlloc_eq hcheck hn hi hbest rfl hrest rfl
      obtain ⟨h1, hh1⟩ : ∃ h1 : Heap, h1 = { h with
        mem := setIsHole h.mem (h.start + extent 9 cs) 0
        index := ordlistRemove h.index (some i) } := ⟨_, rfl⟩
      have hsorted : Sorted h1 := by
        rw [hh1]
        have hsub : (ordlistRemove h.index (some i)).Sublist h.index := List.eraseIdx_sublist _ _
        refine (ascending_congr fun e he => ?_).mpr (hs.sublist hsub)
        have hmem := hi1.mem_iff.mp he
        exact (holeSize_beside ht1 hk.tiled rfl rfl (Option.some_ne_none n) hmem).symm
      have hstart1 : h1.start = h.start := by rw [hh1]
      rw [← hh1] at heq ht1 hi1
      rw [← hstart1] at heq hi1
      have hcarved : Sorted (if b.size - n > 9 then heapHighSplit h1 (h1.start + extent 9 cs) (b.size - n)
          else h1) := by
        split_ifs with hrest
        · exact split_sorted (b := ⟨b.size, some n⟩) ht1 (Option.some_ne_none n) hi1 (by simp only; omega)
            (by omega) hsorted
        · exact hsorted
      rw [heq] at halloc
      generalize (if b.size - n > 9 then _ else _) = h2 at hcarved halloc
      obtain ⟨watcher, -, hsome⟩ := Option.bind_eq_some_iff.mp halloc
      split_ifs at hsome
      have hheap : _ = h' := congrArg Prod.fst (Option.some.inj hsome)
      rw [← hheap]
      exact hcarved

theorem nextHole_iff (ht : Tiled h (bs ++ c :: ds)) : nextHole h (h.start + extent 9 bs) = true ↔
    ∃ d ds', ds = d :: ds' ∧ d.request = none := by
  unfold nextHole
  rw [ht.next_eq, decide_eq_true_eq, ht.valid_iff]
  cases ds with
  | nil => simp
  | cons d ds =>
    rw [(Tiled.second ht).1]
    simp [flag_ne_zero]

theorem prevHole_iff (ht : Tiled h (bs ++ c :: ds)) : prevHole h (h.start + extent 9 bs) = true ↔
    ∃ cs b, bs = cs ++ [b] ∧ b.request = none := by
  have hlow := ht.low
  unfold prevHole
  rw [decide_eq_true_eq, ht.header_eq]
  rcases lastPlace_eq bs h.start with ⟨rfl, hp⟩ | ⟨cs, b, rfl, hp⟩
  · simp [hp]
  · rw [List.append_assoc, List.singleton_append] at ht
    simp only [hp, ht.header_eq]
    rw [flag_ne_zero]
    constructor
    · rintro ⟨-, hb⟩
      exact ⟨cs, b, rfl, hb⟩
    · rintro ⟨us, u, hsame, hu⟩
      obtain ⟨-, huv⟩ := List.append_inj' hsame rfl
      obtain rfl : b = u := by simpa using huv
      exact ⟨by omega, hu⟩

/-- Merging takes the hole behind off the index, and its room goes to the one in front. -/
theorem merge_step (ht : Tiled h (bs ++ c :: ds)) (hc : c.request = none)
    (hi : h.index.Perm (holes 9 h.start (bs ++ c :: ds))) :
    ∃ c' ds', c'.request = none ∧ Tiled (heapMerge h (h.start + extent 9 bs)) (bs ++ c' :: ds') ∧
      (heapMerge h (h.start + extent 9 bs)).index.Perm (holes 9 h.start (bs ++ c' :: ds')) ∧
      c'.size = c.size + (if nextHole h (h.start + extent 9 bs) then
        holeSize h.mem (h.start + extent 9 bs + (9 + c.size)) + 9 else 0) ∧
      (heapMerge h (h.start + extent 9 bs)).index =
        h.index.erase (h.start + extent 9 bs + (9 + c.size)) ∧
      ∀ e ∈ h.index, e ≠ h.start + extent 9 bs → e ≠ h.start + extent 9 bs + (9 + c.size) →
        holeSize (heapMerge h (h.start + extent 9 bs)).mem e = holeSize h.mem e := by
  by_cases hd : ∃ d ds', ds = d :: ds' ∧ d.request = none
  · have hnext := (nextHole_iff ht).mpr hd
    obtain ⟨d, ds, rfl, hd⟩ := hd
    have hperm := hi.trans (holes_after_merge hc hd h.start)
    have hmem := hperm.mem_iff.mpr List.mem_cons_self
    have ht' := tiled_merge ht hd
    refine ⟨⟨c.size + (d.size + 9), c.request⟩, ds, hc, ht', ?_, ?_, ?_, ?_⟩
    · rw [heapMerge_eq ht hd]
      exact List.Perm.cons_inv ((ordlistRemove_perm hmem).symm.trans hperm)
    · rw [if_pos hnext, holeSize, (Tiled.second ht).1]
    · rw [heapMerge_eq ht hd]
      exact ordlistRemove_eq hmem
    · intro e he hne hne'
      refine @holeSize_kept _ _ _ [c, d] [⟨c.size + (d.size + 9), c.request⟩] _ _ ht ht'
        (heapMerge_start _ _) ?_ ?_
      · rw [extent_pair, extent_cons, extent_nil]
        simp only
        omega
      · have hin := hperm.mem_iff.mp he
        have hhole := holes_hole (w := 9) h.start bs ds (b := ⟨c.size + (d.size + 9), c.request⟩) hc
        rw [List.mem_cons, hhole.mem_iff, List.mem_cons] at hin
        have hrest := (hin.resolve_left hne').resolve_left hne
        rw [List.mem_append] at hrest
        rw [extent_pair]
        rcases hrest with hrest | hrest
        · exact Or.inl hrest
        · refine Or.inr ?_
          have hplace : h.start + extent 9 bs + (9 + c.size + (9 + d.size)) =
              h.start + extent 9 bs + (9 + (c.size + (d.size + 9))) := by omega
          rw [hplace]
          exact hrest
  · have hhead : ∀ d ∈ ds.head?, d.request ≠ none := by
      intro d hd' hn
      cases ds with
      | nil => cases hd'
      | cons e ds => exact hd ⟨e, ds, rfl, Option.some.inj hd' ▸ hn⟩
    have hnext : ¬nextHole h (h.start + extent 9 bs) = true := fun hnext => hd ((nextHole_iff ht).mp hnext)
    rw [heapMerge_alone ht hhead, if_neg hnext]
    refine ⟨c, ds, hc, ht, hi, rfl, (List.erase_of_not_mem fun hmem => ?_).symm, fun _ _ _ _ => rfl⟩
    obtain ⟨us, u, vs, hbs, hu, hplace⟩ := mem_holes (hi.mem_iff.mp hmem)
    have ht' := ht
    rw [hbs] at ht'
    have hextent : extent 9 us = extent 9 (bs ++ [c]) := by
      rw [extent_append, extent_cons, extent_nil]
      omega
    have hheader := ht'.header_eq
    rw [← hplace] at hheader
    cases ds with
    | nil =>
      have hbound := ht.bounded
      have hbound' := ht'.bounded
      rw [extent_nil] at hbound
      omega
    | cons d ds =>
      rw [(Tiled.second ht).1] at hheader
      have hflag : flag d = flag u := congrArg HHeader.isHole hheader
      exact hhead d rfl (flag_ne_zero.mp (hflag ▸ flag_ne_zero.mpr hu))

section Free

variable {ptr block : ℕ}

theorem used_not_indexed (hk : Kept h (cs ++ b :: ds)) (hb : b.request ≠ none) :
    h.start + extent 9 cs ∉ h.index := by
  intro hmem
  obtain ⟨us, u, vs, hbs, hu, hplace⟩ := mem_holes (hk.index.mem_iff.mp hmem)
  have hhead := hk.tiled.header_eq
  have ht := hk.tiled
  rw [hbs] at ht
  rw [hplace, ht.header_eq] at hhead
  have hflag : flag u = flag b := congrArg HHeader.isHole hhead
  exact hb (flag_ne_zero.mp (hflag ▸ flag_ne_zero.mpr hu))

/-- The block goes to its place in the index, and the hole behind it goes into the block. -/
theorem free_first (hk : Kept h (cs ++ b :: ds)) (hb : b.request ≠ none)
    (hblock : block = h.start + extent 9 cs) (hptr : ptr = block + 9) (hfree : heapFree h ptr = some h') :
    ∃ h2 c ds', c.request = none ∧ Tiled h2 (cs ++ c :: ds') ∧
      h2.index.Perm (holes 9 h2.start (cs ++ c :: ds')) ∧ h2.start = h.start ∧
      c.size = b.size + (if nextHole h block then holeSize h.mem (hheaderNext h.mem block) + 9 else 0) ∧
      h2.index = (insertKey (holeSize h.mem) h.index block).erase (hheaderNext h.mem block) ∧
      (∀ e ∈ h.index, e ≠ hheaderNext h.mem block → holeSize h2.mem e = holeSize h.mem e) ∧
      h' = if prevHole h2 block then heapMerge h2 (header h2.mem block).prev else h2 := by
  have hbound := hk.tiled.bounded
  have hword := hk.tiled.word
  have hlow := hk.tiled.low
  cases hwatch : heapwatchFree h.watcher ptr with
  | none =>
    rw [heapFree, hwatch, Option.bind_none, ite_self] at hfree
    cases hfree
  | some recs =>
    have hsub : sub32 ptr 9 = block := by
      rw [sub32_of_le (by omega) (by omega)]
      omega
    obtain ⟨h1, hh1⟩ : ∃ h1 : Heap, h1 = { h with
      watcher := recs
      mem := setIsHole h.mem block 1
      index := ordlistInsert (setIsHole h.mem block 1) h.index block } := ⟨_, rfl⟩
    obtain ⟨ht1, hi1, hstart1, -, -⟩ := give_spec hk hb hblock hh1
    have hkey (e : ℕ) (he : e ∈ h.index) : holeSize h1.mem e = holeSize h.mem e :=
      holeSize_beside hk.tiled ht1 hstart1 rfl hb (hk.index.mem_iff.mp he)
    have hindex1 : h1.index = insertKey (holeSize h.mem) h.index block := by
      have hmem : h1.mem = setIsHole h.mem block 1 := by rw [hh1]
      have hindex : h1.index = ordlistInsert h1.mem h.index block := by rw [hmem, hh1]
      rw [hindex, ordlistInsert_eq]
      refine insertKey_congr hkey ?_
      rw [hmem]
      exact holeSize_mark (Or.inl rfl)
    have hnext : hheaderNext h.mem block = block + (9 + b.size) := by rw [hblock, hk.tiled.next_eq]
    have hsame : nextHole h1 block = nextHole h block := by
      have hiff := (nextHole_iff ht1).trans (nextHole_iff hk.tiled).symm
      rw [hstart1, ← hblock] at hiff
      exact Bool.eq_iff_iff.mpr hiff
    obtain ⟨c, ds', hc, ht2, hi2, hsize, hindex2, hother⟩ := merge_step ht1 rfl hi1
    have hplace : h1.start + extent 9 cs = block := by rw [hstart1, hblock]
    simp only [hplace] at ht2 hi2 hsize hindex2 hother
    rw [hsame] at hsize
    have heq := heapFree_eq (hk.tiled.heapCheck_passed hk.separate) (by omega) hwatch hsub hh1 rfl rfl
    have hstart2 := heapMerge_start h1 block
    generalize heapMerge h1 block = h2 at ht2 hi2 hindex2 hother heq hstart2
    have hnotone : (header h2.mem block).prev ≠ 1 := by
      rw [← hplace, ← hstart2, ht2.header_eq]
      rcases lastPlace_eq cs h2.start with ⟨-, hp⟩ | ⟨es, e, -, hp⟩
      · simp only [hp]
        omega
      · simp only [hp]
        omega
    rw [hfree] at heq
    refine ⟨h2, c, ds', hc, ht2, hstart2 ▸ hi2, hstart2.trans hstart1, ?_, ?_, ?_, ?_⟩
    · rw [hsize, hnext]
      refine congrArg (b.size + ·) ?_
      split_ifs with hhole
      · rw [hkey]
        rw [hblock] at hhole
        obtain ⟨d, ds'', rfl, hd⟩ := (nextHole_iff hk.tiled).mp hhole
        rw [hk.index.mem_iff, mem_holes_iff, hblock]
        refine ⟨cs ++ [b], d, ds'', by simp, hd, ?_⟩
        rw [extent_append, extent_cons, extent_nil]
        omega
      · rfl
    · rw [hindex2, hindex1, hnext]
    · intro e he hne
      rw [hnext] at hne
      rw [← hkey e he]
      refine hother e ?_ (fun heq => ?_) hne
      · rw [hindex1, mem_insertKey]
        exact Or.inr he
      · rw [heq, hblock] at he
        exact used_not_indexed hk hb he
    · simp only [if_neg hnotone] at heq
      by_cases hprev : prevHole h2 block
      · rw [if_pos hprev]
        unfold prevHole at hprev
        rw [if_pos (of_decide_eq_true hprev)] at heq
        split_ifs at heq
        exact Option.some.inj heq
      · rw [if_neg hprev]
        unfold prevHole at hprev
        rw [if_neg fun hcond => hprev (decide_eq_true hcond)] at heq
        split_ifs at heq
        exact Option.some.inj heq

theorem index_nodup (hk : Kept h bs) : h.index.Nodup :=
  hk.index.nodup_iff.mpr (holes_nodup (by omega) _ _)

theorem next_ne (ht : Tiled h (cs ++ b :: ds)) (hblock : block = h.start + extent 9 cs) :
    block < hheaderNext h.mem block := by
  rw [hblock, ht.next_eq]
  omega

/-- No hole in front: the block grows where it was put into the index. -/
theorem free_alone (hk : Kept h (cs ++ b :: ds)) (hb : b.request ≠ none)
    (hblock : block = h.start + extent 9 cs) (hptr : ptr = block + 9) (hs : Sorted h)
    (hprev : ¬prevHole h block = true) (hfree : heapFree h ptr = some h') :
    Sorted h' ↔ KeepsOrder h block := by
  obtain ⟨h2, c, ds', hc, ht2, hi2, hstart2, hsize, hindex, hother, heq⟩ :=
    free_first hk hb hblock hptr hfree
  have hblock2 : block = h2.start + extent 9 cs := by rw [hstart2, hblock]
  have hprev2 : ¬prevHole h2 block = true := by
    rw [hblock2, prevHole_iff ht2, ← prevHole_iff hk.tiled, ← hblock]
    exact hprev
  rw [if_neg hprev2] at heq
  have hnew : block ∉ h.index := hblock ▸ used_not_indexed hk hb
  have hnodup := @insertKey_nodup _ (holeSize h.mem) _ _ (index_nodup hk) hnew
  have hne : hheaderNext h.mem block ≠ block := (next_ne hk.tiled hblock).ne'
  have hmem : block ∈ insertKey (holeSize h.mem) h.index block := mem_insertKey.mpr (Or.inl rfl)
  have hown : holeSize h.mem block = b.size := by rw [hblock, holeSize, hk.tiled.header_eq]
  have hgrown : holeSize h2.mem block = c.size := by rw [hblock2, holeSize, ht2.header_eq]
  have hmerged : mergedSize h block = c.size := by
    rw [mergedSize, if_neg hprev, hown, hsize, hheaderSize, Nat.add_zero]
  have hbehind : entriesBehind h block = h.index.filter fun e => holeSize h.mem block < holeSize h.mem e :=
    if_neg hprev
  have hraise := @ascending_raise _ (holeSize h.mem) (holeSize h2.mem) _ _ _
    ((insertKey_ascending hs).sublist List.erase_sublist) (hnodup.erase (hheaderNext h.mem block))
    (List.mem_erase_of_ne hne.symm |>.mpr hmem)
    (fun e he hblock => by
      obtain ⟨hnext, hin⟩ := (hnodup.mem_erase_iff).mp he
      exact hother e ((mem_insertKey.mp hin).resolve_left hblock) hnext)
    (by rw [hown, hgrown, hsize]; exact Nat.le_add_right _ _)
  rw [heq, Sorted, hindex, hraise, KeepsOrder, hbehind, hmerged, hgrown]
  refine forall_congr' fun e => ?_
  rw [mem_behind_erase hnodup hmem hne, mem_behind_insertKey hs hnew, List.mem_filter, decide_eq_true_eq]
  constructor
  · intro hall hin hnext
    rw [← hother e hin.1 hnext]
    exact hall ⟨hin, hnext⟩
  · rintro hall ⟨hin, hnext⟩
    rw [hother e hin.1 hnext]
    exact hall hin hnext

/-- The hole in front grows where it stands in the index. -/
theorem free_joined (hk : Kept h (cs ++ b :: ds)) (hb : b.request ≠ none)
    (hblock : block = h.start + extent 9 cs) (hptr : ptr = block + 9) (hs : Sorted h)
    (hprev : prevHole h block = true) (hfree : heapFree h ptr = some h') :
    Sorted h' ↔ KeepsOrder h block := by
  obtain ⟨h2, c, ds', hc, ht2, hi2, hstart2, hsize, hindex, hother, heq⟩ :=
    free_first hk hb hblock hptr hfree
  have hblock2 : block = h2.start + extent 9 cs := by rw [hstart2, hblock]
  have hprev2 : prevHole h2 block = true := by
    rw [hblock2, prevHole_iff ht2, ← prevHole_iff hk.tiled, ← hblock]
    exact hprev
  rw [if_pos hprev2] at heq
  have hnew : block ∉ h.index := hblock ▸ used_not_indexed hk hb
  have hnext := next_ne hk.tiled hblock
  have hown : holeSize h.mem block = b.size := by rw [hblock, holeSize, hk.tiled.header_eq]
  have hgrown2 : holeSize h2.mem block = c.size := by rw [hblock2, holeSize, ht2.header_eq]
  have hhead := hk.tiled.header_eq
  have hhead2 := ht2.header_eq
  rw [← hblock] at hhead
  rw [← hblock2] at hhead2
  obtain ⟨es, p, rfl, hp⟩ := (prevHole_iff hk.tiled).mp (hblock ▸ hprev)
  rw [lastPlace_snoc] at hhead hhead2
  have hprevplace : (header h.mem block).prev = h.start + extent 9 es := by rw [hhead]
  have hprevplace2 : (header h2.mem block).prev = h.start + extent 9 es := by rw [hhead2, hstart2]
  rw [extent_append, extent_cons, extent_nil] at hblock hblock2
  have ht := hk.tiled
  rw [List.append_assoc, List.singleton_append] at ht ht2 hi2
  have hsizep : holeSize h.mem (h.start + extent 9 es) = p.size := by rw [holeSize, ht.header_eq]
  have hmem : h.start + extent 9 es ∈ h.index := by
    rw [hk.index.mem_iff, mem_holes_iff]
    exact ⟨es, p, b :: ds, by simp, hp, rfl⟩
  obtain ⟨q, ds'', -, ht3, -, hsize3, hindex3, hother3⟩ := merge_step ht2 hp hi2
  have hplace3 : h2.start + extent 9 es + (9 + p.size) = block := by omega
  have hnexthole : nextHole h2 (h2.start + extent 9 es) = true :=
    (nextHole_iff ht2).mpr ⟨c, ds', rfl, hc⟩
  have hhead3 := ht3.header_eq
  simp only [hplace3, heapMerge_start] at hsize3 hindex3 hother3 hhead3
  rw [hprevplace2, ← hstart2] at heq
  rw [if_pos hnexthole, hgrown2] at hsize3
  rw [← heq] at hindex3 hother3 hhead3
  rw [← hstart2] at hmem hsizep hprevplace
  have hgrown : holeSize h'.mem (h2.start + extent 9 es) = q.size := by rw [holeSize, hhead3]
  have hindex' : h'.index = h.index.erase (hheaderNext h.mem block) := by
    rw [hindex3, hindex, List.erase_comm, insertKey_erase hnew]
  have hothers (e : ℕ) (he : e ∈ h.index) (hne : e ≠ hheaderNext h.mem block)
      (hnp : e ≠ h2.start + extent 9 es) : holeSize h'.mem e = holeSize h.mem e := by
    rw [← hother e he hne]
    refine hother3 e ?_ hnp fun heq => hnew (heq ▸ he)
    rw [hindex]
    exact (List.mem_erase_of_ne hne).mpr (mem_insertKey.mpr (Or.inr he))
  have hne : hheaderNext h.mem block ≠ h2.start + extent 9 es := by omega
  have hmerged : mergedSize h block = q.size := by
    rw [mergedSize, if_pos hprev, hown, hprevplace, hsizep, hsize3, hsize, hheaderSize]
    omega
  have hbehind : entriesBehind h block = behind (h2.start + extent 9 es) h.index := by
    rw [entriesBehind, if_pos hprev, hprevplace]
  have hraise := @ascending_raise _ (holeSize h.mem) (holeSize h'.mem) _ _ _
    (hs.sublist List.erase_sublist) ((index_nodup hk).erase (hheaderNext h.mem block))
    (List.mem_erase_of_ne hne.symm |>.mpr hmem)
    (fun e he hnp => by
      obtain ⟨hnext, hin⟩ := ((index_nodup hk).mem_erase_iff).mp he
      exact hothers e hin hnext hnp)
    (by rw [hsizep, hgrown, hsize3]; exact Nat.le_add_right _ _)
  rw [Sorted, hindex', hraise, KeepsOrder, hbehind, hmerged, hgrown]
  refine forall_congr' fun e => ?_
  rw [mem_behind_erase (index_nodup hk) hmem hne]
  have hin (he : e ∈ behind (h2.start + extent 9 es) h.index) :
      e ∈ h.index ∧ e ≠ h2.start + extent 9 es := mem_of_behind (index_nodup hk) he
  constructor
  · intro hall he hnext
    rw [← hothers e (hin he).1 hnext (hin he).2]
    exact hall ⟨he, hnext⟩
  · rintro hall ⟨he, hnext⟩
    rw [hothers e (hin he).1 hnext (hin he).2]
    exact hall he hnext

theorem free_sorted_iff (hk : Kept h bs) (hx : (ptr, n) ∈ inUse 9 h.start bs) (hs : Sorted h)
    (hfree : heapFree h ptr = some h') : Sorted h' ↔ KeepsOrder h (sub32 ptr hheaderSize) := by
  have hword := hk.tiled.word
  obtain ⟨hlow, -, hhigh⟩ := hk.inUse_pos hx
  obtain ⟨cs, b, ds, rfl, hb, hplace⟩ := mem_inUse hx
  simp only at hlow hhigh hplace hb
  have hused : b.request ≠ none := by simp [hb]
  have hblock : sub32 ptr hheaderSize = h.start + extent 9 cs := by
    rw [sub32_of_le (by unfold hheaderSize; omega) (by omega), hheaderSize]
    omega
  by_cases hprev : prevHole h (sub32 ptr hheaderSize) = true
  · exact free_joined hk hused hblock (by omega) hs hprev hfree
  · exact free_alone hk hused hblock (by omega) hs hprev hfree

end Free

section Runs

instance (s : State) (a : Action) : Decidable (Permitted s a) :=
  match a with
  | .alloc _ => isTrue trivial
  | .free ptr => decidable_of_iff (∃ x ∈ s.live, x.1 = ptr)
      ⟨fun ⟨x, hx, h⟩ => ⟨x.2, h ▸ hx⟩, fun ⟨n, hn⟩ => ⟨(ptr, n), hn, rfl⟩⟩
  | .store addr _ => inferInstanceAs (Decidable (∃ x ∈ s.live, x.1 ≤ addr ∧ addr < x.1 + x.2))

def callStep (s : State) (a : Action) : Option State := if Permitted s a then step s a else none

variable {m : Mem} {start size indexSize : ℕ} {s t : State} {a : Action} {as : List Action}

theorem callStep_some (h : callStep s a = some t) : Permitted s a ∧ step s a = some t := by
  unfold callStep at h
  split_ifs at h with hp
  exact ⟨hp, h⟩

theorem store_sorted {addr : ℕ} {value : UInt8} (hi : Inv size s bs) (hp : Permitted s (.store addr value)) :
    Sorted { s.heap with mem := Function.update s.heap.mem addr value } ↔ Sorted s.heap := by
  have hi' := inv_store hi hp
  refine ascending_congr fun e he => ?_
  obtain ⟨us, u, vs, rfl, -, rfl⟩ := mem_holes (hi.kept.index.mem_iff.mp he)
  have hhead := hi'.kept.tiled.header_eq
  unfold holeSize
  rw [hi.kept.tiled.header_eq, hhead]

theorem step_sorted_iff (hi : Inv size s bs) (hs : Sorted s.heap) (h : callStep s a = some t) :
    Sorted t.heap ↔ Orderly s a := by
  obtain ⟨hp, hstep⟩ := callStep_some h
  cases a with
  | alloc n =>
    obtain ⟨r, hr, rfl⟩ := Option.map_eq_some_iff.mp hstep
    exact iff_of_true (alloc_sorted hi.kept hs hr) trivial
  | free ptr =>
    obtain ⟨r, hr, rfl⟩ := Option.map_eq_some_iff.mp hstep
    obtain ⟨n, hx⟩ := hp
    exact free_sorted_iff hi.kept (hi.live.mem_iff.mp hx) hs hr
  | store addr value =>
    obtain rfl := Option.some.inj hstep
    exact iff_of_true ((store_sorted hi hp).mpr hs) trivial

/-- The index stays in order, and the fits are best, as long as no freed block outgrows the holes behind
it. -/
theorem sorted_iff_orderly (hsize : 0 < size) (hindex : 4 * 1026 ≤ indexSize)
    (hstart : start + indexSize ≤ (heapInit m start size indexSize).start)
    (hword : (heapInit m start size indexSize).start + (hheaderSize + size) < 2 ^ 32)
    (hrun : exec callStep ⟨heapInit m start size indexSize, []⟩ as = some t) :
    Meets callStep Orderly ⟨heapInit m start size indexSize, []⟩ as ↔
      ∀ bs s, bs <+: as → exec callStep ⟨heapInit m start size indexSize, []⟩ bs = some s →
        Sorted s.heap ∧ BestFit s.heap := by
  have hinit := inv_init (m := m) hsize hindex hstart hword
  have hboth (s : State) : Sorted s.heap ∧ BestFit s.heap ↔ Sorted s.heap :=
    ⟨And.left, fun hs => ⟨hs, bestFit_of_sorted hs⟩⟩
  simp only [hboth]
  refine @meets_iff_prefixes _ _ _ _ (fun s => ∃ bs, Inv size s bs) (fun s => Sorted s.heap)
    ?_ ?_ _ _ _ ⟨_, hinit⟩ (List.pairwise_singleton _ _) hrun
  · rintro s a t ⟨bs, hi⟩ - h
    obtain ⟨hp, hstep⟩ := callStep_some h
    exact inv_step hi hp hstep
  · rintro s a t ⟨bs, hi⟩ hs h
    exact step_sorted_iff hi hs h

def smallHeap : State := ⟨heapInit (fun _ => 0) 0x1000 300 0x4000, []⟩

theorem sorted_iff_orderly_sample : Meets callStep Orderly smallHeap [.alloc 20, .alloc 20] ↔
    ∀ bs s, bs <+: [.alloc 20, .alloc 20] → exec callStep smallHeap bs = some s →
      Sorted s.heap ∧ BestFit s.heap := by
  have hsome : ((exec callStep smallHeap [.alloc 20, .alloc 20]).map State.live) =
      some [(0x6026, 20), (0x6009, 20)] := by decide +kernel
  obtain ⟨t, ht, -⟩ := Option.map_eq_some_iff.mp hsome
  exact sorted_iff_orderly (by decide) (by decide) (by decide) (by decide) ht

/-- The first hole grows past the second one when the block between them comes back. -/
theorem grown_hole_unsorted : ∃ t, exec callStep smallHeap
    [.alloc 20, .alloc 20, .alloc 20, .alloc 30, .alloc 20, .free 0x6009, .free 0x6060, .free 0x6026] = some t ∧
      ¬Sorted t.heap ∧ ¬BestFit t.heap := by
  have hsome : ((exec callStep smallHeap
      [.alloc 20, .alloc 20, .alloc 20, .alloc 30, .alloc 20, .free 0x6009, .free 0x6060, .free 0x6026]).bind
      fun t => (heapAlloc t.heap 30 false).map fun r =>
        (t.heap.index.map fun e => (e, holeSize t.heap.mem e), r.2)) =
      some ([(0x6000, 49), (0x6057, 30), (0x609b, 145)], 0x6009) := by decide +kernel
  obtain ⟨t, ht, hresult⟩ := Option.bind_eq_some_iff.mp hsome
  obtain ⟨r, hr, hfields⟩ := Option.map_eq_some_iff.mp hresult
  obtain ⟨hindex, hptr⟩ := Prod.ext_iff.mp hfields
  simp only at hindex hptr
  have hsizes : t.heap.index.map (holeSize t.heap.mem) = [49, 30, 145] := by
    have hsecond := congrArg (List.map Prod.snd) hindex
    rwa [List.map_map] at hsecond
  have hfirst : t.heap.index = [0x6000, 0x6057, 0x609b] := by
    have hplaces := congrArg (List.map Prod.fst) hindex
    rw [List.map_map] at hplaces
    exact (List.map_id _).symm.trans hplaces
  rw [hfirst] at hsizes
  obtain ⟨h0, h1, -⟩ : holeSize t.heap.mem 0x6000 = 49 ∧ holeSize t.heap.mem 0x6057 = 30 ∧
      holeSize t.heap.mem 0x609b = 145 := by simpa using hsizes
  refine ⟨t, ht, fun hs => ?_, fun hbest => ?_⟩
  · rw [Sorted, hfirst] at hs
    have hle := (List.pairwise_cons.mp hs).1 0x6057 (by decide)
    omega
  · obtain ⟨best, hmem, hplace, -, hsmallest⟩ := hbest 30 r.1 r.2 hr (by rw [hptr]; decide)
    have hle := hsmallest 0x6057 (by rw [hfirst]; decide) (by rw [h1])
    rw [hfirst] at hmem
    rw [hptr] at hplace
    rcases List.mem_cons.mp hmem with rfl | hmem
    · omega
    · simp only [List.mem_cons, List.not_mem_nil, or_false] at hmem
      rcases hmem with rfl | rfl <;> cases hplace

end Runs

end Eedox.HeapOrder
