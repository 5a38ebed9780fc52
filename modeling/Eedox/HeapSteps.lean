import Eedox.HeapTiling

namespace Eedox.HeapSteps

open Library.Bytes Library.Words Library.Blocks KernelHeap HeapTiling

variable {h h' : Heap} {bs ds : List Block} {b c d : Block}

theorem extent_pair (b c : Block) : extent 9 [b, c] = 9 + b.size + (9 + c.size) := rfl

/-- The blocks in the middle give way to others; the header behind them learns its new predecessor. -/
theorem splice (cs cs' : List Block) (ht : Tiled h (bs ++ (cs ++ ds)))
    (hstart : h'.start = h.start) (hsize : h'.size = h.size)
    (hnew : Rep h'.mem (h.start + extent 9 bs) (lastPlace 9 0 h.start bs) cs')
    (he : extent 9 cs' = extent 9 cs) (hpos : ∀ c ∈ cs', 0 < c.size)
    (hbefore : ∀ x, x < h.start + extent 9 bs → h'.mem x = h.mem x)
    (hnext : ds ≠ [] → header h'.mem (h.start + extent 9 bs + extent 9 cs) =
      { header h.mem (h.start + extent 9 bs + extent 9 cs) with
        prev := lastPlace 9 (lastPlace 9 0 h.start bs) (h.start + extent 9 bs) cs' })
    (hafter : ∀ x, h.start + extent 9 bs + extent 9 cs + 9 ≤ x → h'.mem x = h.mem x) :
    Tiled h' (bs ++ (cs' ++ ds)) := by
  constructor
  · rw [hstart]
    apply ht.rep.splice hnew he (fun x _ hx => hbefore x hx) _ hafter
    intro d ds' hd
    exact hnext (by simp [hd])
  · have hf := ht.fills
    simp only [extent_append] at hf ⊢
    rw [he, hsize, hf]
  · intro b hb
    simp only [List.mem_append] at hb
    rcases hb with hb | hb | hb
    · exact ht.positive b (by simp [hb])
    · exact hpos b hb
    · exact ht.positive b (by simp [hb])
  · rw [hstart]
    exact ht.low
  · rw [hstart, hsize]
    exact ht.word

theorem last_of_tiled (cs : List Block) (ht : Tiled h (bs ++ (cs ++ ds))) (hds : ds ≠ []) :
    (header h.mem (h.start + extent 9 bs + extent 9 cs)).prev =
      lastPlace 9 (lastPlace 9 0 h.start bs) (h.start + extent 9 bs) cs := by
  cases ds with
  | nil => exact absurd rfl hds
  | cons d ds =>
    have hd := ((rep_append.mp (rep_append.mp ht.rep).2).2).1
    rw [hd]

/-- The flag of a header changes, and nothing else. -/
theorem tiled_mark (ht : Tiled h (bs ++ b :: ds)) (r : Option ℕ) {f : UInt8}
    (hf : f.toNat = flag ⟨b.size, r⟩) (hstart : h'.start = h.start) (hsize : h'.size = h.size)
    (hmem : h'.mem = setIsHole h.mem (h.start + extent 9 bs) f) :
    Tiled h' (bs ++ ⟨b.size, r⟩ :: ds) := by
  have hb := ht.header_eq
  apply splice [b] [⟨b.size, r⟩] ht hstart hsize
  · refine ⟨?_, trivial⟩
    rw [hmem, header_setIsHole, hb, hf]
  · rfl
  · intro c hc
    rw [List.mem_singleton.mp hc]
    exact ht.positive b (by simp)
  · intro x hx
    rw [hmem]
    exact setIsHole_other f (by omega)
  · intro hds
    have hl := last_of_tiled [b] ht hds
    rw [hmem, header_setIsHole_other f (Or.inr (by rw [extent_cons]; omega))]
    exact HHeader.ext rfl rfl hl
  · intro x hx
    rw [hmem]
    exact setIsHole_other f (by omega)

section Split

variable {n : ℕ}

section Headers

variable {hole next newhole s : ℕ}

/-- The stores of a split, for a header behind the hole that need not be there. -/
theorem heapHighSplit_mem (hs : (header h.mem hole).size = s) (hword : s < 2 ^ 32) (hn : n + 9 < s)
    (hnext : hheaderNext h.mem hole = next) (hnew : sub32 next (s - n) = newhole)
    (hplace : newhole = hole + (9 + n)) : (heapHighSplit h hole (s - n)).mem =
      let m := setPrev (setSize (setSize h.mem newhole (s - n - 9)) hole n) newhole hole
      setIsHole (if hheaderIsvalid h next then setPrev m next newhole else m) newhole 1 := by
  unfold heapHighSplit
  rw [hnext]
  simp only [hheaderSize]
  rw [hnew, sub32_of_le (by omega) (by omega), header_setSize_other _ (Or.inl (by omega)), hs,
    sub32_of_le (by omega) (by omega), show s - (s - n) = n by omega]

theorem heapHighSplit_other (hs : (header h.mem hole).size = s) (hword : s < 2 ^ 32) (hn : n + 9 < s)
    (hnext : hheaderNext h.mem hole = next) (hnew : sub32 next (s - n) = newhole)
    (hplace : newhole = hole + (9 + n)) {x : ℕ} (hx : x < hole ∨ newhole + 9 ≤ x)
    (hxn : x < next ∨ next + 9 ≤ x) : (heapHighSplit h hole (s - n)).mem x = h.mem x := by
  rw [heapHighSplit_mem hs hword hn hnext hnew hplace]
  simp only
  rw [setIsHole_other _ (by omega)]
  split_ifs
  · rw [setPrev_other _ (by omega), setPrev_other _ (by omega), setSize_other _ (by omega),
      setSize_other _ (by omega)]
  · rw [setPrev_other _ (by omega), setSize_other _ (by omega), setSize_other _ (by omega)]

theorem heapHighSplit_block (hs : (header h.mem hole).size = s) (hword : s < 2 ^ 32) (hn : n + 9 < s)
    (hnext : hheaderNext h.mem hole = next) (hnew : sub32 next (s - n) = newhole)
    (hplace : newhole = hole + (9 + n)) (hfar : newhole + 9 ≤ next ∨ next + 9 ≤ hole) :
    header (heapHighSplit h hole (s - n)).mem hole = { header h.mem hole with size := n } := by
  rw [heapHighSplit_mem hs hword hn hnext hnew hplace]
  simp only
  rw [header_setIsHole_other _ (Or.inl (by omega))]
  have hset : header (setPrev (setSize (setSize h.mem newhole (s - n - 9)) hole n) newhole hole) hole =
      { header h.mem hole with size := n } := by
    rw [header_setPrev_other _ (Or.inl (by omega)), header_setSize,
      header_setSize_other _ (Or.inl (by omega)), Nat.mod_eq_of_lt (by omega)]
  split_ifs
  · rw [header_setPrev_other _ (by omega), hset]
  · exact hset

theorem heapHighSplit_newhole (hs : (header h.mem hole).size = s) (hword : s < 2 ^ 32) (hn : n + 9 < s)
    (hnext : hheaderNext h.mem hole = next) (hnew : sub32 next (s - n) = newhole)
    (hplace : newhole = hole + (9 + n)) (hfar : newhole + 9 ≤ next ∨ next + 9 ≤ hole)
    (hhole : hole < 2 ^ 32) :
    header (heapHighSplit h hole (s - n)).mem newhole = ⟨1, s - n - 9, hole⟩ := by
  rw [heapHighSplit_mem hs hword hn hnext hnew hplace]
  simp only
  rw [header_setIsHole]
  have hset : header (setPrev (setSize (setSize h.mem newhole (s - n - 9)) hole n) newhole hole) newhole =
      ⟨(header h.mem newhole).isHole, s - n - 9, hole⟩ := by
    rw [header_setPrev, header_setSize_other _ (Or.inr (by omega)), header_setSize,
      Nat.mod_eq_of_lt (by omega), Nat.mod_eq_of_lt hhole]
  split_ifs
  · rw [header_setPrev_other _ (by omega), hset]
    rfl
  · rw [hset]
    rfl

theorem heapHighSplit_next (hs : (header h.mem hole).size = s) (hword : s < 2 ^ 32) (hn : n + 9 < s)
    (hnext : hheaderNext h.mem hole = next) (hnew : sub32 next (s - n) = newhole)
    (hplace : newhole = hole + (9 + n)) (hfar : newhole + 9 ≤ next) (hvalid : hheaderIsvalid h next = true)
    (hlt : newhole < 2 ^ 32) : header (heapHighSplit h hole (s - n)).mem next =
      { header h.mem next with prev := newhole } := by
  rw [heapHighSplit_mem hs hword hn hnext hnew hplace]
  simp only
  rw [if_pos hvalid, header_setIsHole_other _ (Or.inr (by omega)), header_setPrev,
    header_setPrev_other _ (Or.inr (by omega)), header_setSize_other _ (Or.inr (by omega)),
    header_setSize_other _ (Or.inr (by omega)), Nat.mod_eq_of_lt hlt]

end Headers

theorem tiled_split (ht : Tiled h (bs ++ b :: ds)) (hn : n + 9 < b.size) (hpos : 0 < n) :
    Tiled (heapHighSplit h (h.start + extent 9 bs) (b.size - n))
      (bs ++ ⟨n, b.request⟩ :: ⟨b.size - n - 9, none⟩ :: ds) := by
  have hb := ht.bounded
  have hw := ht.word
  have hhead := ht.header_eq
  have hs : (header h.mem (h.start + extent 9 bs)).size = b.size := by rw [hhead]
  have hnew : sub32 (h.start + extent 9 bs + (9 + b.size)) (b.size - n) =
      h.start + extent 9 bs + (9 + n) := by
    rw [sub32_of_le (by omega) (by omega)]
    omega
  have hnewhole := heapHighSplit_newhole hs (by omega) hn ht.next_eq hnew rfl (Or.inl (by omega)) (by omega)
  apply splice [b] [⟨n, b.request⟩, ⟨b.size - n - 9, none⟩] ht
  · rfl
  · rfl
  · refine ⟨?_, hnewhole, trivial⟩
    rw [heapHighSplit_block hs (by omega) hn ht.next_eq hnew rfl (Or.inl (by omega)), hhead]
    rfl
  · rw [extent_pair]
    simp only [extent_cons, extent_nil]
    omega
  · intro c hc
    simp only [List.mem_cons, List.not_mem_nil, or_false] at hc
    rcases hc with rfl | rfl
    · exact hpos
    · change 0 < b.size - n - 9
      omega
  · intro x hx
    exact heapHighSplit_other hs (by omega) hn ht.next_eq hnew rfl (Or.inl hx) (Or.inl (by omega))
  · intro hds
    have hvalid := ht.valid_iff.mpr hds
    have hnext := heapHighSplit_next hs (by omega) hn ht.next_eq hnew rfl (by omega) hvalid (by omega)
    exact hnext
  · intro x hx
    rw [extent_cons, extent_nil] at hx
    exact heapHighSplit_other hs (by omega) hn ht.next_eq hnew rfl (Or.inr (by omega)) (Or.inr (by omega))

theorem heapHighSplit_index (ht : Tiled h (bs ++ b :: ds)) (hn : n + 9 < b.size) :
    (heapHighSplit h (h.start + extent 9 bs) (b.size - n)).index.Perm
      ((h.start + extent 9 bs + (9 + n)) :: h.index) := by
  have hb := ht.bounded
  have hw := ht.word
  have hplace : sub32 (hheaderNext h.mem (h.start + extent 9 bs)) (b.size - n) =
      h.start + extent 9 bs + (9 + n) := by
    rw [ht.next_eq, sub32_of_le (by omega) (by omega)]
    omega
  rw [← hplace]
  exact ordlistInsert_perm _ _ _

end Split

section Merge

theorem Tiled.second (ht : Tiled h (bs ++ c :: d :: ds)) :
    header h.mem (h.start + extent 9 bs + (9 + c.size)) = ⟨flag d, d.size, h.start + extent 9 bs⟩ ∧
      hheaderNext h.mem (h.start + extent 9 bs + (9 + c.size)) =
        h.start + extent 9 bs + (9 + c.size) + (9 + d.size) ∧
      (hheaderIsvalid h (h.start + extent 9 bs + (9 + c.size) + (9 + d.size)) = true ↔ ds ≠ []) := by
  rw [List.append_cons] at ht
  have hplace : h.start + extent 9 (bs ++ [c]) = h.start + extent 9 bs + (9 + c.size) := by
    rw [extent_append, extent_cons, extent_nil]
    omega
  have hhead := ht.header_eq
  have hnext := ht.next_eq
  have hvalid := ht.valid_iff
  rw [hplace] at hhead hnext hvalid
  rw [lastPlace_snoc] at hhead
  exact ⟨hhead, hnext, hvalid⟩

theorem heapMerge_eq (ht : Tiled h (bs ++ c :: d :: ds)) (hd : d.request = none) :
    heapMerge h (h.start + extent 9 bs) =
      { h with
        index := ordlistRemove h.index (heapHoleIndex h (h.start + extent 9 bs + (9 + c.size)))
        mem := setSize (if ds ≠ [] then
            setPrev h.mem (h.start + extent 9 bs + (9 + c.size) + (9 + d.size)) (h.start + extent 9 bs)
          else h.mem) (h.start + extent 9 bs) (c.size + (d.size + 9)) } := by
  have hb := ht.bounded
  have hw := ht.word
  rw [extent_cons] at hb
  obtain ⟨hhead, hnext, hvalid⟩ := Tiled.second ht
  have hcond : hheaderIsvalid h (h.start + extent 9 bs + (9 + c.size)) = true ∧
      (header h.mem (h.start + extent 9 bs + (9 + c.size))).isHole ≠ 0 := by
    rw [hhead]
    exact ⟨ht.valid_iff.mpr (by simp), flag_ne_zero.mpr hd⟩
  unfold heapMerge
  simp only [ht.next_eq, hnext]
  rw [if_pos hcond]
  simp only [hvalid]
  split_ifs
  · rw [header_setPrev_other _ (Or.inl (by omega)), header_setPrev_other _ (Or.inl (by omega)), hhead,
      ht.header_eq, hheaderSize, @add32_of_lt d.size 9 (by omega), add32_of_lt (by simp only; omega)]
  · rw [hhead, ht.header_eq, hheaderSize, @add32_of_lt d.size 9 (by omega), add32_of_lt (by simp only; omega)]

theorem heapMerge_alone (ht : Tiled h (bs ++ c :: ds)) (hd : ∀ d ∈ ds.head?, d.request ≠ none) :
    heapMerge h (h.start + extent 9 bs) = h := by
  unfold heapMerge
  simp only [ht.next_eq]
  apply if_neg
  rintro ⟨hv, hh⟩
  cases ds with
  | nil => exact ht.valid_iff.mp hv rfl
  | cons d ds =>
    rw [(Tiled.second ht).1] at hh
    exact hd d rfl (flag_ne_zero.mp hh)

theorem tiled_merge (ht : Tiled h (bs ++ c :: d :: ds)) (hd : d.request = none) :
    Tiled (heapMerge h (h.start + extent 9 bs)) (bs ++ ⟨c.size + (d.size + 9), c.request⟩ :: ds) := by
  have hb := ht.bounded
  have hw := ht.word
  rw [extent_cons] at hb
  rw [heapMerge_eq ht hd]
  have hother (x : ℕ) (hx : x < h.start + extent 9 bs + 1 ∨
      h.start + extent 9 bs + (9 + c.size) + (9 + d.size) + 9 ≤ x) :
      setSize (if ds ≠ [] then
        setPrev h.mem (h.start + extent 9 bs + (9 + c.size) + (9 + d.size)) (h.start + extent 9 bs)
        else h.mem) (h.start + extent 9 bs) (c.size + (d.size + 9)) x = h.mem x := by
    rw [setSize_other _ (by omega)]
    split_ifs
    · exact setPrev_other _ (by omega)
    · rfl
  apply splice [c, d] [⟨c.size + (d.size + 9), c.request⟩] ht
  · rfl
  · rfl
  · refine ⟨?_, trivial⟩
    simp only
    rw [header_setSize]
    split_ifs
    · rw [header_setPrev_other _ (Or.inl (by omega)), ht.header_eq, Nat.mod_eq_of_lt (by omega)]
      rfl
    · rw [ht.header_eq, Nat.mod_eq_of_lt (by omega)]
      rfl
  · rw [extent_pair, extent_cons, extent_nil]
    simp only
    omega
  · intro b hb
    rw [List.mem_singleton.mp hb]
    change 0 < c.size + (d.size + 9)
    omega
  · intro x hx
    exact hother x (by omega)
  · intro hds
    rw [extent_pair, ← Nat.add_assoc (h.start + extent 9 bs) (9 + c.size)]
    simp only
    rw [if_pos hds, header_setSize_other _ (Or.inr (by omega)), header_setPrev, Nat.mod_eq_of_lt (by omega)]
    rfl
  · intro x hx
    rw [extent_pair] at hx
    exact hother x (by omega)

@[simp] theorem heapMerge_start (h : Heap) (hole : ℕ) : (heapMerge h hole).start = h.start := by
  unfold heapMerge
  simp only
  split_ifs <;> rfl

@[simp] theorem heapMerge_size (h : Heap) (hole : ℕ) : (heapMerge h hole).size = h.size := by
  unfold heapMerge
  simp only
  split_ifs <;> rfl

@[simp] theorem heapMerge_watcher (h : Heap) (hole : ℕ) : (heapMerge h hole).watcher = h.watcher := by
  unfold heapMerge
  simp only
  split_ifs <;> rfl

theorem holes_after_merge (hc : c.request = none) (hd : d.request = none) (a : ℕ) :
    (holes 9 a (bs ++ c :: d :: ds)).Perm ((a + extent 9 bs + (9 + c.size)) ::
      holes 9 a (bs ++ ⟨c.size + (d.size + 9), c.request⟩ :: ds)) := by
  have hplace : a + extent 9 bs + (9 + c.size) + (9 + d.size) =
      a + extent 9 bs + (9 + (c.size + (d.size + 9))) := by omega
  simp only [holes_append, holes_cons, hc, hd, Option.isNone_none, if_true]
  rw [hplace]
  exact (List.Perm.append_left _ (List.Perm.swap _ _ _)).trans List.perm_middle

/-- Whether or not a hole follows, the one at hand ends up alone. -/
theorem merge_spec (ht : Tiled h (bs ++ c :: ds)) (hc : c.request = none)
    (hi : h.index.Perm (holes 9 h.start (bs ++ c :: ds))) (hs : Separate ds) :
    ∃ c' ds', c'.request = none ∧ (∀ d ∈ ds', d ∈ ds) ∧ Separate (c' :: ds') ∧
      Tiled (heapMerge h (h.start + extent 9 bs)) (bs ++ c' :: ds') ∧
      (heapMerge h (h.start + extent 9 bs)).index.Perm (holes 9 h.start (bs ++ c' :: ds')) ∧
      ∀ a, inUse 9 a (c' :: ds') = inUse 9 a (c :: ds) := by
  by_cases hd : ∃ d ds', ds = d :: ds' ∧ d.request = none
  · obtain ⟨d, ds, rfl, hd⟩ := hd
    refine ⟨⟨c.size + (d.size + 9), c.request⟩, ds, hc, fun e he => List.mem_cons_of_mem d he, ?_,
      tiled_merge ht hd, ?_, ?_⟩
    · obtain ⟨hds, hrest⟩ := List.isChain_cons.mp hs
      exact List.isChain_cons.mpr ⟨fun e he _ => hds e he hd, hrest⟩
    · have hperm := hi.trans (holes_after_merge hc hd h.start)
      have hmem := hperm.mem_iff.mpr List.mem_cons_self
      rw [heapMerge_eq ht hd]
      exact List.Perm.cons_inv ((ordlistRemove_perm hmem).symm.trans hperm)
    · intro a
      have hjoined : inUse 9 a (⟨c.size + (d.size + 9), c.request⟩ :: ds) =
        inUse 9 (a + (9 + (c.size + (d.size + 9)))) ds := inUse_hole a ds hc
      have hplace : a + (9 + c.size) + (9 + d.size) = a + (9 + (c.size + (d.size + 9))) := by omega
      rw [hjoined, inUse_hole a _ hc, inUse_hole _ _ hd, hplace]
  · have hhead : ∀ d ∈ ds.head?, d.request ≠ none := by
      intro d hd' hn
      cases ds with
      | nil => simp at hd'
      | cons e ds => exact hd ⟨e, ds, rfl, by simp_all⟩
    rw [heapMerge_alone ht hhead]
    exact ⟨c, ds, hc, fun d hd => hd, List.isChain_cons.mpr ⟨fun d hd _ => hhead d hd, hs⟩, ht, hi,
      fun _ => rfl⟩

end Merge

end Eedox.HeapSteps
