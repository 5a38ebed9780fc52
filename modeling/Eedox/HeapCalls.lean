import Eedox.HeapSteps
import Eedox.HeapWatch
import Mathlib.Data.List.Nodup

namespace Eedox.HeapCalls

open Library.Words Library.Blocks KernelHeap HeapTiling HeapSteps HeapWatch

theorem separate_iff {bs ds : List Block} {b : Block} : Separate (bs ++ b :: ds) ↔
    Separate bs ∧ Separate ds ∧ (∀ c ∈ bs.getLast?, c.request = none → b.request ≠ none) ∧
      ∀ d ∈ ds.head?, b.request = none → d.request ≠ none := by
  unfold Separate
  rw [List.isChain_append, List.isChain_cons]
  simp only [List.head?_cons, Option.mem_some_iff, forall_eq']
  constructor
  · rintro ⟨h1, ⟨h2, h3⟩, h4⟩
    exact ⟨h1, h3, h4, h2⟩
  · rintro ⟨h1, h3, h4, h2⟩
    exact ⟨h1, ⟨h2, h3⟩, h4⟩

/-- What was asked for fits in the block. -/
def Fitted (bs : List Block) : Prop := ∀ b ∈ bs, ∀ n ∈ b.request, 0 < n ∧ n ≤ b.size

structure Kept (h : Heap) (bs : List Block) : Prop where
  tiled : Tiled h bs
  separate : Separate bs
  index : h.index.Perm (holes 9 h.start bs)
  fitted : Fitted bs
  records : (records h.watcher).Perm (inUse 9 h.start bs)
  length : h.watcher.length ≤ 1024

variable {h : Heap} {bs ds : List Block} {b : Block} {n : ℕ}

theorem holes_split (hb : b.request ≠ none) (hn : n + 9 < b.size) (a : ℕ) :
    (holes 9 a (bs ++ ⟨n, b.request⟩ :: ⟨b.size - n - 9, none⟩ :: ds)).Perm
      ((a + extent 9 bs + (9 + n)) :: holes 9 a (bs ++ b :: ds)) := by
  have hcut := holes_used (w := 9) a bs (⟨b.size - n - 9, none⟩ :: ds) (b := ⟨n, b.request⟩) hb
  have hplace : a + extent 9 bs + (9 + n) + (9 + (b.size - n - 9)) = a + extent 9 bs + (9 + b.size) := by
    omega
  rw [hcut, holes_used a bs ds hb, holes_cons]
  simp only [Option.isNone_none, if_true]
  rw [hplace]
  exact List.perm_middle

/-- The rest of a block that was taken becomes a hole if a header and more fit into it. -/
theorem carve_spec (ht : Tiled h (bs ++ b :: ds)) (hb : b.request = some n) (hpos : 0 < n)
    (hn : n ≤ b.size) (hi : h.index.Perm (holes 9 h.start (bs ++ b :: ds)))
    (hs : Separate (bs ++ b :: ds)) (hds : ∀ d ∈ ds.head?, d.request ≠ none) :
    ∃ c cs, c.request = some n ∧ n ≤ c.size ∧ (∀ d ∈ cs, d.request = none) ∧
      Separate (bs ++ c :: (cs ++ ds)) ∧
      (∀ a, inUse 9 a (c :: (cs ++ ds)) = (a + 9, n) :: inUse 9 (a + (9 + b.size)) ds) ∧
      let h' := if b.size - n > 9 then heapHighSplit h (h.start + extent 9 bs) (b.size - n) else h
      Tiled h' (bs ++ c :: (cs ++ ds)) ∧ h'.index.Perm (holes 9 h.start (bs ++ c :: (cs ++ ds))) ∧
      h'.start = h.start ∧ h'.size = h.size ∧ h'.watcher = h.watcher := by
  have hused : b.request ≠ none := by simp [hb]
  by_cases hrest : b.size - n > 9
  · have hplace (a : ℕ) : a + (9 + n) + (9 + (b.size - n - 9)) = a + (9 + b.size) := by omega
    refine ⟨⟨n, b.request⟩, [⟨b.size - n - 9, none⟩], hb, le_rfl, by simp, ?_, ?_, ?_⟩
    · obtain ⟨h1, h2, h3, -⟩ := separate_iff.mp hs
      refine separate_iff.mpr ⟨h1, ?_, h3, fun d _ hnone => absurd hnone hused⟩
      exact List.isChain_cons.mpr ⟨fun d hd _ => hds d hd, h2⟩
    · intro a
      have hfst := inUse_used (w := 9) a ([⟨b.size - n - 9, none⟩] ++ ds) (b := ⟨n, b.request⟩) hb
      have hsnd := inUse_hole (w := 9) (a + (9 + n)) ds (b := ⟨b.size - n - 9, none⟩) rfl
      rw [hfst, List.singleton_append, hsnd, hplace]
    · rw [if_pos hrest]
      refine ⟨tiled_split ht (by omega) hpos, ?_, rfl, rfl, rfl⟩
      exact (heapHighSplit_index ht (by omega)).trans
        ((hi.cons _).trans (holes_split hused (by omega) h.start).symm)
  · refine ⟨b, [], hb, hn, by simp, hs, fun a => inUse_used a ds hb, ?_⟩
    rw [if_neg hrest]
    exact ⟨ht, hi, rfl, rfl, rfl⟩

/-- A hole is taken off the index. -/
theorem take_spec (ht : Tiled h (bs ++ b :: ds)) (hs : Separate (bs ++ b :: ds))
    (hindex : h.index.Perm (holes 9 h.start (bs ++ b :: ds))) (hb : b.request = none) {index : List ℕ}
    (hi : h.index.Perm ((h.start + extent 9 bs) :: index)) :
    let h' := { h with mem := setIsHole h.mem (h.start + extent 9 bs) 0, index := index }
    Tiled h' (bs ++ ⟨b.size, some n⟩ :: ds) ∧ Separate (bs ++ ⟨b.size, some n⟩ :: ds) ∧
      h'.index.Perm (holes 9 h.start (bs ++ ⟨b.size, some n⟩ :: ds)) := by
  refine ⟨tiled_mark ht (some n) rfl rfl rfl rfl, ?_, ?_⟩
  · obtain ⟨h1, h2, -, -⟩ := separate_iff.mp hs
    exact separate_iff.mpr ⟨h1, h2, fun _ _ _ => Option.some_ne_none n, fun _ _ hnone => by cases hnone⟩
  · have hused := holes_used (w := 9) h.start bs ds (b := ⟨b.size, some n⟩) (Option.some_ne_none n)
    rw [hused]
    exact List.Perm.cons_inv (hi.symm.trans (hindex.trans (holes_hole h.start bs ds hb)))

/-- A block comes back to the index, before it is merged. -/
theorem give_spec (hk : Kept h (bs ++ b :: ds)) (hb : b.request ≠ none) {block : ℕ} {recs : List (ℕ × ℕ)}
    {h1 : Heap} (hblock : block = h.start + extent 9 bs)
    (hh1 : h1 = { h with
      watcher := recs
      mem := setIsHole h.mem block 1
      index := ordlistInsert (setIsHole h.mem block 1) h.index block }) :
    Tiled h1 (bs ++ ⟨b.size, none⟩ :: ds) ∧ h1.index.Perm (holes 9 h1.start (bs ++ ⟨b.size, none⟩ :: ds)) ∧
      h1.start = h.start ∧ h1.size = h.size ∧ h1.watcher = recs := by
  subst hh1 hblock
  refine ⟨tiled_mark hk.tiled none rfl rfl rfl rfl, ?_, rfl, rfl, rfl⟩
  have hhole := holes_hole (w := 9) h.start bs ds (b := ⟨b.size, none⟩) rfl
  refine (ordlistInsert_perm _ _ _).trans ((hk.index.cons _).trans ?_)
  rw [holes_used _ _ _ hb]
  exact hhole.symm

/-- The hole that the loop of `heap_alloc` stops at. -/
theorem found_hole (hindex : h.index.Perm (holes 9 h.start bs)) {p : ℕ → Bool} {i : ℕ}
    (hi : h.index.findIdx? p = some i) :
    ∃ cs b ds, bs = cs ++ b :: ds ∧ b.request = none ∧ p (h.start + extent 9 cs) = true ∧
      h.index.getD i 0 = h.start + extent 9 cs ∧
      h.index.Perm ((h.start + extent 9 cs) :: ordlistRemove h.index (some i)) := by
  obtain ⟨hlt, hp, -⟩ := List.findIdx?_eq_some_iff_getElem.mp hi
  obtain ⟨cs, b, ds, hbs, hb, hplace⟩ := mem_holes (hindex.mem_iff.mp (List.getElem_mem hlt))
  refine ⟨cs, b, ds, hbs, hb, hplace ▸ hp, ?_, ?_⟩
  · rw [List.getD_eq_getElem?_getD, List.getElem?_eq_getElem hlt, Option.getD_some, hplace]
  · rw [← hplace]
    exact (List.getElem_cons_eraseIdx_perm hlt).symm

theorem best_hole (hk : Kept h bs) {i : ℕ} (hi : h.index.findIdx? (fits h.mem n false) = some i) :
    ∃ cs b ds, bs = cs ++ b :: ds ∧ b.request = none ∧ n ≤ b.size ∧
      h.index.getD i 0 = h.start + extent 9 cs ∧
      h.index.Perm ((h.start + extent 9 cs) :: ordlistRemove h.index (some i)) := by
  obtain ⟨cs, b, ds, rfl, hb, hfit, hbest, hperm⟩ := found_hole hk.index hi
  refine ⟨cs, b, ds, rfl, hb, ?_, hbest, hperm⟩
  unfold fits at hfit
  rw [hk.tiled.header_eq] at hfit
  simpa using hfit

theorem alloc_none (hk : Kept h bs) (hn : n = 0 ∨ ∀ a ∈ h.index, (header h.mem a).size < n) :
    heapAlloc h n false = some (h, 0) := by
  unfold heapAlloc
  rw [if_neg (not_not.mpr (hk.tiled.heapCheck_passed hk.separate))]
  by_cases h0 : n = 0
  · rw [if_pos h0]
  · have hnone : h.index.findIdx? (fits h.mem n false) = none := by
      rw [List.findIdx?_eq_none_iff]
      intro a ha
      have hlt := hn.resolve_left h0 a ha
      simp [fits]
      omega
    rw [if_neg h0, hnone]

theorem fitted_append {bs cs : List Block} : Fitted (bs ++ cs) ↔ Fitted bs ∧ Fitted cs :=
  List.forall_mem_append

theorem Kept.inUse_pos (hk : Kept h bs) {x : ℕ × ℕ} (hx : x ∈ inUse 9 h.start bs) :
    h.start + 9 ≤ x.1 ∧ 0 < x.2 ∧ x.1 + x.2 ≤ h.start + (9 + h.size) := by
  obtain ⟨cs, b, ds, rfl, hb, hplace⟩ := mem_inUse hx
  have hn := hk.fitted b (by simp) x.2 hb
  have hbound := hk.tiled.bounded
  omega

/-- The watcher accepts a payload that is apart from those in use. -/
theorem watch_spec {a : ℕ} {cs : List (ℕ × ℕ)} (hk : Kept h (bs ++ ds))
    (hin : inUse 9 h.start (bs ++ ds) = inUse 9 h.start bs ++ cs)
    (hroom : (inUse 9 h.start (bs ++ ds)).length < 1024) (hpos : 0 < n) (ha : 0 < a)
    (hend : a + n ≤ h.start + (9 + h.size))
    (hbefore : ∀ x ∈ inUse 9 h.start bs, x.1 + x.2 ≤ a) (hafter : ∀ x ∈ cs, a + n ≤ x.1) :
    ∃ recs, heapwatchAlloc h.watcher a n = some recs ∧
      (records recs).Perm (inUse 9 h.start bs ++ (a, n) :: cs) ∧ recs.length ≤ 1024 := by
  have hw := hk.tiled.word
  have hapart : ∀ r ∈ records h.watcher, overlaps a n r = false := by
    intro r hr
    have hr := hk.records.mem_iff.mp hr
    obtain ⟨hlow, hsize, hhigh⟩ := hk.inUse_pos hr
    apply overlaps_apart hpos hsize (by omega) (by omega)
    rw [hin] at hr
    rcases List.mem_append.mp hr with hr | hr
    · exact Or.inr (hbefore r hr)
    · exact Or.inl (hafter r hr)
  obtain ⟨recs, hrecs, hperm, hlen⟩ := heapwatchAlloc_spec (by omega) (by omega) hapart hk.length
    (by rwa [hk.records.length_eq])
  refine ⟨recs, hrecs, hperm.trans ((hk.records.cons _).trans ?_), hlen⟩
  rw [hin]
  exact List.perm_middle.symm

theorem heapAlloc_eq (hcheck : heapCheck h = .passed) (hn : n ≠ 0) {i best rest : ℕ} {h1 h2 : Heap}
    (hi : h.index.findIdx? (fits h.mem n false) = some i) (hbest : h.index.getD i 0 = best)
    (hh1 : h1 = { h with mem := setIsHole h.mem best 0, index := ordlistRemove h.index (some i) })
    (hrest : sub32 (header h1.mem best).size n = rest)
    (hh2 : (if rest > 9 then heapHighSplit h1 best rest else h1) = h2) :
    heapAlloc h n false = (heapwatchAlloc h2.watcher (add32 best 9) n).bind fun watcher =>
      if heapCheck { h2 with watcher := watcher } = .passed then
        some ({ h2 with watcher := watcher }, add32 best 9) else none := by
  unfold heapAlloc
  rw [if_neg (not_not.mpr hcheck), if_neg hn, hi]
  subst hbest hh1 hrest hh2
  rfl

theorem fitted_carved {cs rest : List Block} {c : Block} (h : Fitted (cs ++ b :: ds))
    (hc : c.request = some n) (hn : 0 < n) (hfit : n ≤ c.size) (hrest : ∀ d ∈ rest, d.request = none) :
    Fitted (cs ++ c :: (rest ++ ds)) := by
  obtain ⟨hcs, hds⟩ := fitted_append.mp h
  refine fitted_append.mpr ⟨hcs, List.forall_mem_cons.mpr ⟨?_, fitted_append.mpr ⟨?_, ?_⟩⟩⟩
  · intro m hm
    rw [hc] at hm
    obtain rfl := Option.some.inj hm
    exact ⟨hn, hfit⟩
  · intro d hd m hm
    rw [hrest d hd] at hm
    cases hm
  · exact (List.forall_mem_cons.mp hds).2

/-- A hole that is large enough is found, and the block that is carved out of it comes into use. -/
theorem alloc_some (hk : Kept h bs) (hn : 0 < n) (hhole : ∃ a ∈ h.index, n ≤ (header h.mem a).size)
    (hroom : (inUse 9 h.start bs).length < 1024) :
    ∃ h' ptr bs', heapAlloc h n false = some (h', ptr) ∧ ptr ≠ 0 ∧ Kept h' bs' ∧
      (inUse 9 h.start bs').Perm ((ptr, n) :: inUse 9 h.start bs) ∧
      h'.start = h.start ∧ h'.size = h.size := by
  cases hi : h.index.findIdx? (fits h.mem n false) with
  | none =>
    obtain ⟨a, ha, hfit⟩ := hhole
    have hnone := List.findIdx?_eq_none_iff.mp hi a ha
    simp [fits] at hnone
    omega
  | some i =>
    obtain ⟨cs, b, ds, rfl, hb, hfit, hbest, hindex⟩ := best_hole hk hi
    have hbound := hk.tiled.bounded
    have hword := hk.tiled.word
    have hds := (separate_iff.mp hk.separate).2.2.2
    obtain ⟨ht1, hs1, hi1⟩ := take_spec hk.tiled hk.separate hk.index hb (n := n) hindex
    have hrest : sub32 (header (setIsHole h.mem (h.start + extent 9 cs) 0) (h.start + extent 9 cs)).size n =
        b.size - n := by
      rw [ht1.header_eq]
      exact sub32_of_le hfit (by simp only; omega)
    obtain ⟨c, rest, hc, hfitc, hnone, hs2, hin2, hcarved⟩ :=
      carve_spec ht1 rfl hn hfit hi1 hs1 fun d hd => hds d hd hb
    have heq := heapAlloc_eq (hk.tiled.heapCheck_passed hk.separate) (by omega) hi hbest rfl hrest rfl
    revert hcarved heq
    simp only
    generalize (if b.size - n > 9 then _ else _) = h2
    rintro ⟨ht2, hi2, hstart, hsize, hwatch⟩ heq
    have hin : inUse 9 h.start (cs ++ b :: ds) = inUse 9 h.start cs ++
        inUse 9 (h.start + extent 9 cs + (9 + b.size)) ds := by
      rw [inUse_append, inUse_hole _ _ hb]
    have hin2 : inUse 9 h.start (cs ++ c :: (rest ++ ds)) = inUse 9 h.start cs ++
        (h.start + extent 9 cs + 9, n) :: inUse 9 (h.start + extent 9 cs + (9 + b.size)) ds := by
      rw [inUse_append, hin2]
    have hfitted := fitted_carved hk.fitted hc hn hfitc hnone
    have hapart := inUse_apart (w := 9) h.start fun d hd m hm => (hfitted d hd m hm).2
    rw [hin2, List.pairwise_append, List.pairwise_cons] at hapart
    obtain ⟨-, ⟨hafter, -⟩, hbefore⟩ := hapart
    obtain ⟨recs, hrecs, hperm, hlen⟩ := watch_spec hk hin hroom hn (a := h.start + extent 9 cs + 9)
      (by omega) (by omega) (fun x hx => hbefore x hx _ List.mem_cons_self) hafter
    have ht3 := ht2.relist h2.index recs
    have hptr : add32 (h.start + extent 9 cs) 9 = h.start + extent 9 cs + 9 := add32_of_lt (by omega)
    rw [hptr, hwatch, hrecs, Option.bind_some, if_pos (ht3.heapCheck_passed hs2)] at heq
    refine ⟨_, _, _, heq, by omega, ⟨ht3, hs2, ?_, hfitted, ?_, hlen⟩, ?_, hstart, hsize⟩
    · change h2.index.Perm (holes 9 h2.start _)
      rw [hstart]
      exact hi2
    · change (records recs).Perm (inUse 9 h2.start _)
      rw [hstart, hin2]
      exact hperm
    · rw [hin2, hin]
      exact List.perm_middle

/-- With all records of the watcher in use, a hole that is large enough ends in its panic. -/
theorem alloc_full (hk : Kept h bs) (hn : 0 < n) (hhole : ∃ a ∈ h.index, n ≤ (header h.mem a).size)
    (hfull : 1024 ≤ (inUse 9 h.start bs).length) : heapAlloc h n false = none := by
  cases hi : h.index.findIdx? (fits h.mem n false) with
  | none =>
    obtain ⟨a, ha, hfit⟩ := hhole
    have hnone := List.findIdx?_eq_none_iff.mp hi a ha
    simp [fits] at hnone
    omega
  | some i =>
    obtain ⟨cs, b, ds, rfl, hb, hfit, hbest, hindex⟩ := best_hole hk hi
    have hbound := hk.tiled.bounded
    have hword := hk.tiled.word
    have heq := heapAlloc_eq (hk.tiled.heapCheck_passed hk.separate) (by omega) hi hbest rfl rfl rfl
    have hptr : add32 (h.start + extent 9 cs) 9 = h.start + extent 9 cs + 9 := add32_of_lt (by omega)
    have hpanic (w : List (ℕ × ℕ)) (hw : w = h.watcher) :
        heapwatchAlloc w (h.start + extent 9 cs + 9) n = none := by
      rw [hw]
      exact heapwatchAlloc_full (by omega) (by omega) hk.length (by rwa [hk.records.length_eq])
    rw [heq, hptr, hpanic _ (by split_ifs <;> rfl), Option.bind_none]

theorem fitted_merged {cs ds' : List Block} {c c' : Block} (h : Fitted (cs ++ c :: ds))
    (hc : c'.request = none) (hds : ∀ d ∈ ds', d ∈ ds) : Fitted (cs ++ c' :: ds') := by
  obtain ⟨h1, h2⟩ := fitted_append.mp h
  refine fitted_append.mpr ⟨h1, List.forall_mem_cons.mpr ⟨fun m hm => ?_, fun d hd => ?_⟩⟩
  · rw [hc] at hm
    cases hm
  · exact h2 d (List.mem_cons_of_mem c (hds d hd))

/-- The hole in front is merged with the one at hand, and the start of the heap is left alone. -/
theorem merge_prev_spec {cs : List Block} {c : Block} (ht : Tiled h (cs ++ c :: ds))
    (hi : h.index.Perm (holes 9 h.start (cs ++ c :: ds)))
    (hs : Separate (c :: ds)) (hcs : Separate cs) (hf : Fitted (cs ++ c :: ds)) {block : ℕ} {h' : Heap}
    (hblock : block = h.start + extent 9 cs)
    (hh : (let prev := (header h.mem block).prev
      if prev ≠ 0 ∧ (header h.mem prev).isHole ≠ 0 then
        if prev = 1 then
          let b := header h.mem block
          let m := setPrev (setSize (setIsHole h.mem h.start (UInt8.ofNat b.isHole)) h.start b.size)
            h.start b.prev
          { h with mem := setSize m h.start (add32 (header m h.start).size (sub32 block h.start)) }
        else heapMerge h prev
      else h) = h') :
    ∃ bs', Tiled h' bs' ∧ Separate bs' ∧ h'.index.Perm (holes 9 h.start bs') ∧ Fitted bs' ∧
      inUse 9 h.start bs' = inUse 9 h.start (cs ++ c :: ds) ∧
      h'.start = h.start ∧ h'.size = h.size ∧ h'.watcher = h.watcher := by
  subst hblock
  have hlow := ht.low
  rw [ht.header_eq] at hh
  simp only at hh
  rcases lastPlace_eq cs h.start with ⟨rfl, hp⟩ | ⟨cs, d, rfl, hp⟩
  · rw [hp, if_neg (by simp)] at hh
    subst hh
    exact ⟨c :: ds, ht, hs, hi, hf, rfl, rfl, rfl, rfl⟩
  · rw [List.append_assoc, List.singleton_append] at ht hi hf ⊢
    obtain ⟨hs1, -, hs2, -⟩ := separate_iff.mp hcs
    rw [hp, ht.header_eq] at hh
    by_cases hd : d.request = none
    · rw [if_pos ⟨by omega, flag_ne_zero.mpr hd⟩, if_neg (by omega)] at hh
      subst hh
      obtain ⟨e, ds', he, hsub, hsep, ht', hi', hin⟩ := merge_spec ht hd hi hs
      refine ⟨cs ++ e :: ds', ht', ?_, hi', fitted_merged hf he hsub, ?_, heapMerge_start _ _,
        heapMerge_size _ _, heapMerge_watcher _ _⟩
      · obtain ⟨hhead, htail⟩ := List.isChain_cons.mp hsep
        exact separate_iff.mpr ⟨hs1, htail, fun b hb hnone => absurd hd (hs2 b hb hnone), hhead⟩
      · rw [inUse_append, inUse_append, hin]
    · rw [if_neg fun hcond => hd (flag_ne_zero.mp hcond.2)] at hh
      subst hh
      refine ⟨cs ++ d :: c :: ds, ht, ?_, hi, hf, rfl, rfl, rfl, rfl⟩
      exact separate_iff.mpr ⟨hs1, hs, fun b hb hnone => hs2 b hb hnone, fun b _ hnone => absurd hnone hd⟩

theorem heapFree_eq (hcheck : heapCheck h = .passed) {ptr block : ℕ} {recs : List (ℕ × ℕ)} {h1 h2 h3 : Heap}
    (hptr : ptr ≠ 0) (hwatch : heapwatchFree h.watcher ptr = some recs) (hblock : sub32 ptr 9 = block)
    (hh1 : h1 = { h with
      watcher := recs
      mem := setIsHole h.mem block 1
      index := ordlistInsert (setIsHole h.mem block 1) h.index block })
    (hh2 : heapMerge h1 block = h2)
    (hh3 : (let prev := (header h2.mem block).prev
      if prev ≠ 0 ∧ (header h2.mem prev).isHole ≠ 0 then
        if prev = 1 then
          let b := header h2.mem block
          let m := setPrev (setSize (setIsHole h2.mem h2.start (UInt8.ofNat b.isHole)) h2.start b.size)
            h2.start b.prev
          { h2 with mem := setSize m h2.start (add32 (header m h2.start).size (sub32 block h2.start)) }
        else heapMerge h2 prev
      else h2) = h3) :
    heapFree h ptr = if heapCheck h3 = .passed then some h3 else none := by
  unfold heapFree
  rw [if_neg (not_not.mpr hcheck), hwatch, Option.bind_some, if_neg hptr]
  subst hblock hh1 hh2 hh3
  rfl

theorem Kept.apart (hk : Kept h bs) : (inUse 9 h.start bs).Pairwise fun x y => x.1 + x.2 ≤ y.1 :=
  inUse_apart h.start fun b hb m hm => (hk.fitted b hb m hm).2

theorem Kept.distinct (hk : Kept h bs) : ((inUse 9 h.start bs).map Prod.fst).Nodup := by
  refine List.pairwise_map.mpr (hk.apart.imp_of_mem fun {x y} hx _ hxy heq => ?_)
  have hpos := (hk.inUse_pos hx).2.1
  omega

theorem perm_tail {l rest rest' : List (ℕ × ℕ)} {a m : ℕ} (hl : (l.map Prod.fst).Nodup)
    (h : l.Perm ((a, m) :: rest)) (h' : l.Perm ((a, n) :: rest')) : rest.Perm rest' := by
  have hm := h.mem_iff.mpr List.mem_cons_self
  have hn := h'.mem_iff.mpr List.mem_cons_self
  obtain rfl : m = n := congrArg Prod.snd (List.inj_on_of_nodup_map hl hm hn rfl)
  exact (h.symm.trans h').cons_inv

/-- A payload in use is given back. -/
theorem free_spec (hk : Kept h bs) {ptr : ℕ} (hx : (ptr, n) ∈ inUse 9 h.start bs) :
    ∃ h' bs', heapFree h ptr = some h' ∧ Kept h' bs' ∧
      (inUse 9 h.start bs).Perm ((ptr, n) :: inUse 9 h.start bs') ∧
      h'.start = h.start ∧ h'.size = h.size := by
  have hlow := (hk.inUse_pos hx).1
  have hhigh := (hk.inUse_pos hx).2.2
  have hword := hk.tiled.word
  have hdistinct := hk.distinct
  obtain ⟨recs, m, hclear, hrecs, hlen⟩ := clearRecord_spec (by omega : ptr ≠ 0)
    ⟨_, hk.records.mem_iff.mpr hx, rfl⟩
  have hwatch : heapwatchFree h.watcher ptr = some recs := by
    unfold heapwatchFree
    rw [if_neg (by omega), hclear]
  obtain ⟨cs, b, ds, rfl, hb, hplace⟩ := mem_inUse hx
  change ptr = _ at hplace
  change b.request = some n at hb
  have hused : b.request ≠ none := by simp [hb]
  have hblock : sub32 ptr 9 = h.start + extent 9 cs := by
    rw [sub32_of_le (by omega) (by omega)]
    omega
  obtain ⟨h1, hh1⟩ : ∃ h1 : Heap, h1 = { h with
    watcher := recs
    mem := setIsHole h.mem (sub32 ptr 9) 1
    index := ordlistInsert (setIsHole h.mem (sub32 ptr 9) 1) h.index (sub32 ptr 9) } := ⟨_, rfl⟩
  obtain ⟨ht1, hi1, hstart1, hsize1, hwatch1⟩ := give_spec hk hused hblock hh1
  obtain ⟨hs1, hs2, -, -⟩ := separate_iff.mp hk.separate
  obtain ⟨c, ds', hc, hsub, hsep, ht2, hi2, hin2⟩ := merge_spec ht1 rfl hi1 hs2
  rw [hstart1] at ht2 hi2
  rw [← hblock] at ht2 hi2
  obtain ⟨h2, hh2⟩ : ∃ h2, heapMerge h1 (sub32 ptr 9) = h2 := ⟨_, rfl⟩
  have hstart2 : h2.start = h.start := by rw [← hh2, heapMerge_start, hstart1]
  have hsize2 : h2.size = h.size := by rw [← hh2, heapMerge_size, hsize1]
  have hwatch2 : h2.watcher = recs := by rw [← hh2, heapMerge_watcher, hwatch1]
  rw [hh2] at ht2 hi2
  rw [← hstart2] at hi2 hblock
  have heq := heapFree_eq (hk.tiled.heapCheck_passed hk.separate) (by omega) hwatch rfl hh1 hh2 rfl
  obtain ⟨bs', ht3, hs3, hi3, hf3, hin3, hstart3, hsize3, hwatch3⟩ := merge_prev_spec ht2 hi2 hsep hs1
    (fitted_merged hk.fitted hc hsub) hblock rfl
  rw [if_pos (ht3.heapCheck_passed hs3)] at heq
  have hin : (inUse 9 h.start (cs ++ b :: ds)).Perm ((ptr, n) :: inUse 9 h.start bs') := by
    have hnone := inUse_hole (w := 9) (h.start + extent 9 cs) ds (b := ⟨b.size, none⟩) rfl
    rw [hstart2] at hin3
    rw [hin3, inUse_append, inUse_append, hin2, hnone, inUse_used _ _ hb, hplace]
    exact List.perm_middle
  refine ⟨_, bs', heq, ⟨ht3, hs3, ?_, hf3, ?_, ?_⟩, hin, hstart3.trans hstart2, hsize3.trans hsize2⟩
  · rw [hstart3]
    exact hi3
  · rw [hstart3, hwatch3, hwatch2, hstart2]
    exact perm_tail hdistinct (hk.records.symm.trans hrecs) hin
  · rw [hwatch3, hwatch2, hlen]
    exact hk.length

end Eedox.HeapCalls
