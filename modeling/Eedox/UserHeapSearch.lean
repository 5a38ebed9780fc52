import Eedox.UserHeapCalls

namespace Eedox.UserHeapSearch

open Library.Bytes Library.Words Library.Blocks Library.DoublyLinked UserHeap UserHeapShape UserHeapTiling
open UserHeapSteps UserHeapCalls

/-- Whether the search ends with a block that it has merged with the one in front of it. -/
def losesBest : ℕ → Heap → ℕ → ℕ → ℕ → Bool → Bool
  | 0, _, _, _, _, _ => false
  | fuel + 1, h, size, block, best, lost =>
    if block = 0 then lost
    else
      match bestFitTurn h size block best with
      | .found _ _ => false
      | .search h' block' best' => losesBest fuel h' size block' best'
          (best' = best && (lost || (block' = block && objectHeaderNext h.mem block = best)))

/-- A free block that the search can only step over. -/
def Passed (h : Heap) (size x : ℕ) : Prop :=
  (header h.mem x).size < size ∧
    (heapIsEnd h x = true → h.size - h.brk + (header h.mem x).size < size) ∧
    (heapIsEnd h x = false → (header h.mem (objectHeaderNext h.mem x)).used ≠ 0)

section Turns

variable {h : Heap} {bs ds : List Block} {b : Block} {free : List ℕ} {size : ℕ}

/-- What one turn of the search can do. -/
theorem bestFitTurn_cases (hs : Shaped h (bs ++ b :: ds) free) (hsize : size < 2 ^ 32) (best : ℕ) :
    (b.size = size ∧ bestFitTurn h size (h.root + extent 16 bs) best = .found h (h.root + extent 16 bs)) ∨
    (size < b.size ∧ bestFitTurn h size (h.root + extent 16 bs) best =
      .search h (header h.mem (h.root + extent 16 bs)).nextFree
        (if best = 0 ∨ b.size < (header h.mem best).size then h.root + extent 16 bs else best)) ∨
    (b.size < size ∧ ds = [] ∧ size ≤ h.size - h.brk + b.size ∧
      bestFitTurn h size (h.root + extent 16 bs) best = .found { h with
        brk := h.brk + (size - b.size)
        mem := objectHeaderSetSize h.mem (h.root + extent 16 bs) size } (h.root + extent 16 bs)) ∨
    (Passed h size (h.root + extent 16 bs) ∧ bestFitTurn h size (h.root + extent 16 bs) best =
      .search h (header h.mem (h.root + extent 16 bs)).nextFree best) ∨
    (b.size < size ∧ (∃ n es, ds = n :: es ∧ n.request = none) ∧
      bestFitTurn h size (h.root + extent 16 bs) best =
        .search (merged h (h.root + extent 16 bs)) (h.root + extent 16 bs) best) := by
  have ht := hs.tiled
  have hbound := ht.bounded
  have hroom := ht.room
  have hword := ht.word
  unfold bestFitTurn
  simp only [ht.header_eq.1]
  rcases Nat.lt_trichotomy b.size size with hlt | heq | hgt
  · rw [if_neg (by omega)]
    cases ds with
    | nil =>
      rw [if_pos (ht.isEnd_iff.mpr rfl), @sub32_of_le size b.size (by omega) hsize, ht.untouched_eq]
      by_cases hfits : h.size - h.brk ≥ size - b.size
      · rw [if_pos hfits, add32_of_lt (by omega)]
        exact Or.inr (Or.inr (Or.inl ⟨hlt, rfl, by omega, rfl⟩))
      · rw [if_neg hfits]
        refine Or.inr (Or.inr (Or.inr (Or.inl ⟨⟨?_, fun _ => ?_, fun hnot => ?_⟩, rfl⟩)))
        · rw [ht.header_eq.1]
          exact hlt
        · rw [ht.header_eq.1]
          omega
        · rw [ht.isEnd_iff.mpr rfl] at hnot
          cases hnot
    | cons n es =>
      have hnot : ¬heapIsEnd h (h.root + extent 16 bs) = true := fun h' => by simpa using ht.isEnd_iff.mp h'
      rw [if_neg hnot, ht.next_eq, ht.not_null, ht.second.2]
      by_cases hn : n.request = none
      · rw [if_pos ⟨by simp, flag_none hn⟩, ← ht.next_eq]
        exact Or.inr (Or.inr (Or.inr (Or.inr ⟨hlt, ⟨n, es, rfl, hn⟩, rfl⟩)))
      · rw [if_neg fun hand => hn (flag_eq_zero.mp hand.2)]
        refine Or.inr (Or.inr (Or.inr (Or.inl ⟨⟨?_, fun hend => absurd hend hnot, fun _ => ?_⟩, rfl⟩)))
        · rw [ht.header_eq.1]
          exact hlt
        · rw [ht.next_eq, ht.second.2]
          exact fun hzero => hn (flag_eq_zero.mp hzero)
  · rw [if_pos (by omega), if_pos heq]
    exact Or.inl ⟨heq, rfl⟩
  · rw [if_pos (by omega), if_neg (by omega)]
    exact Or.inr (Or.inl ⟨hgt, rfl⟩)

end Turns

/-- Where a search stands that began in `h₀`: it has been at `seen`, and has `rest` before it. -/
structure Searching (h₀ : Heap) (bs₀ : List Block) (size : ℕ) (h : Heap) (bs : List Block) (block best : ℕ)
    (lost : Bool) (seen rest : List ℕ) : Prop where
  shaped : Shaped h bs (seen ++ rest)
  keeps : Keeps h₀ h bs₀ bs
  brk : h.brk = h₀.brk
  stands : block = rest.headD 0
  rows : row 16 (h₀.size - h₀.brk) 0 bs = row 16 (h₀.size - h₀.brk) 0 bs₀
  room : best ≠ 0 → 16 + size ≤ row 16 (h₀.size - h₀.brk) 0 bs₀ ∧ best + 16 ≤ h₀.root + h₀.size
  kept : best ≠ 0 → lost = false → best ∈ seen ∧ size < (header h.mem best).size
  passed : best = 0 → ∀ x ∈ seen, Passed h size x

/-- What a search that ends with a block leaves behind. -/
structure Found (h₀ : Heap) (bs₀ : List Block) (size : ℕ) (h : Heap) (bs ds : List Block) (b : Block)
    (free : List ℕ) : Prop where
  shaped : Shaped h (bs ++ b :: ds) free
  keeps : Keeps h₀ h bs₀ (bs ++ b :: ds)
  free : b.request = none
  enough : size ≤ b.size

section Search

variable {h₀ h : Heap} {bs₀ bs : List Block} {size block best : ℕ} {lost : Bool} {seen rest : List ℕ}

theorem Searching.start {free : List ℕ} (hs : Shaped h bs free) :
    Searching h bs size h bs h.free 0 false [] free :=
  ⟨hs, Keeps.refl h bs, rfl, hs.listed.head_eq, rfl, fun h0 => absurd rfl h0, fun h0 => absurd rfl h0,
    fun _ _ hx => absurd hx List.not_mem_nil⟩

theorem Searching.advance {a best' : ℕ} {lost' : Bool}
    (hs : Searching h₀ bs₀ size h bs a best lost seen (a :: rest))
    (hroom : best' ≠ 0 → 16 + size ≤ row 16 (h₀.size - h₀.brk) 0 bs₀ ∧ best' + 16 ≤ h₀.root + h₀.size)
    (hbest : best' ≠ 0 → lost' = false → best' ∈ seen ++ [a] ∧ size < (header h.mem best').size)
    (hpassed : best' = 0 → best = 0 ∧ Passed h size a) :
    Searching h₀ bs₀ size h bs (header h.mem a).nextFree best' lost' (seen ++ [a]) rest := by
  refine ⟨?_, hs.keeps, hs.brk, hs.shaped.listed.next_eq rfl, hs.rows, hroom, hbest, fun hb x hx => ?_⟩
  · rw [List.append_assoc]
    exact hs.shaped
  · obtain ⟨hzero, hpass⟩ := hpassed hb
    rcases List.mem_append.mp hx with hx | hx
    · exact hs.passed hzero x hx
    · rw [List.mem_singleton.mp hx]
      exact hpass

/-- A block that the search has stepped over stays so when two others are merged. -/
theorem passed_merged {cs ds : List Block} {b n : Block} {free : List ℕ} {x : ℕ}
    (hs : Shaped h (cs ++ b :: n :: ds) free) (hb : b.request = none) (hn : n.request = none) (hx : x ∈ free)
    (hne : x ≠ h.root + extent 16 cs) (hp : Passed h size x) :
    Passed (merged h (h.root + extent 16 cs)) size x := by
  obtain ⟨-, hkeeps, hothers⟩ := Shaped.merge hs hb hn
  have ht := hs.tiled
  have hmem := hs.subset hx
  have hsame : (header (merged h (h.root + extent 16 cs)).mem x).size = (header h.mem x).size :=
    (hothers x hmem).2 hne
  have hnext : objectHeaderNext (merged h (h.root + extent 16 cs)).mem x = objectHeaderNext h.mem x := by
    unfold objectHeaderNext
    rw [hsame]
  have hend : heapIsEnd (merged h (h.root + extent 16 cs)) x = heapIsEnd h x := by
    unfold heapIsEnd
    rw [hnext]
    rfl
  obtain ⟨hsize, hlast, hused⟩ := hp
  refine ⟨by rw [hsame]; exact hsize, ?_, ?_⟩
  · rw [hend, hsame]
    exact hlast
  · rw [hend, hnext]
    intro hnot
    obtain ⟨es, c, fs, hbs, -, rfl⟩ := hs.place hx
    rw [hbs] at ht
    cases fs with
    | nil =>
      rw [ht.isEnd_iff.mpr rfl] at hnot
      cases hnot
    | cons d fs =>
      have hhead : objectHeaderNext h.mem (h.root + extent 16 es) ∈ heads h.root (cs ++ b :: n :: ds) := by
        rw [ht.next_eq, hbs, heads_append, heads_cons, heads_cons]
        simp
      rw [(hothers _ hhead).1]
      exact hused hnot

theorem Searching.turn {a : ℕ} (hs : Searching h₀ bs₀ size h bs a best lost seen (a :: rest)) (hsize : size < 2 ^ 32)
    (ha : size % 4 = 0) :
    (∃ h' cs b ds free, bestFitTurn h size a best = .found h' (h'.root + extent 16 cs) ∧
      Found h₀ bs₀ size h' cs ds b free ∧ 16 + size ≤ row 16 (h₀.size - h₀.brk) 0 bs₀ ∧
      h'.root + extent 16 cs + 16 ≤ h₀.root + h₀.size) ∨
    ∃ h' block' best' bs' seen' rest', bestFitTurn h size a best = .search h' block' best' ∧
      Searching h₀ bs₀ size h' bs' block' best'
        (best' = best && (lost || (block' = a && objectHeaderNext h.mem a = best))) seen' rest' ∧
      seen'.length + 2 * rest'.length < seen.length + 2 * (a :: rest).length := by
  have hmem : a ∈ seen ++ a :: rest := by simp
  have hnodup := hs.shaped.nodup
  have hout : a ∉ seen := fun hin => (List.nodup_append.mp hnodup).2.2 a hin a List.mem_cons_self rfl
  obtain ⟨cs, b, ds, rfl, hb, rfl⟩ := hs.shaped.place hmem
  have ht := hs.shaped.tiled
  have hbound := ht.bounded
  have hroot := hs.keeps.root
  have htotal := hs.keeps.size
  have hbrk := hs.brk
  have hroom := ht.room
  have hrow := @le_row_of_free 16 (h₀.size - h₀.brk) 0 cs ds b hb
  rw [hs.rows] at hrow
  have hstill (block' : ℕ) (hlost : (decide (best = best) && (lost || (decide (block' = h.root + extent 16 cs) &&
      decide (objectHeaderNext h.mem (h.root + extent 16 cs) = best)))) = false) : lost = false := by
    rw [decide_eq_true rfl, Bool.true_and] at hlost
    exact (Bool.or_eq_false_iff.mp hlost).1
  have hkept (block' : ℕ) (hne : best ≠ 0) (hlost : (decide (best = best) && (lost ||
      (decide (block' = h.root + extent 16 cs) &&
        decide (objectHeaderNext h.mem (h.root + extent 16 cs) = best)))) = false) :
      best ∈ seen ++ [h.root + extent 16 cs] ∧ size < (header h.mem best).size := by
    obtain ⟨hseen, hlarge⟩ := hs.kept hne (hstill block' hlost)
    exact ⟨List.mem_append_left _ hseen, hlarge⟩
  have hlength : (seen ++ [h.root + extent 16 cs]).length + 2 * rest.length <
      seen.length + 2 * ((h.root + extent 16 cs) :: rest).length := by
    simp only [List.length_append, List.length_cons, List.length_nil]
    omega
  rcases bestFitTurn_cases hs.shaped hsize best with ⟨heq, hturn⟩ | ⟨hlt, hturn⟩ | ⟨hlt, rfl, hfits, hturn⟩ |
    ⟨hpass, hturn⟩ | ⟨hlt, ⟨n, es, rfl, hn⟩, hturn⟩
  · exact Or.inl ⟨h, cs, b, ds, _, hturn, ⟨hs.shaped, hs.keeps, hb, by omega⟩, by omega, by omega⟩
  · refine Or.inr ⟨h, _, _, cs ++ b :: ds, _, rest, hturn, ?_, hlength⟩
    by_cases hbetter : best = 0 ∨ b.size < (header h.mem best).size
    · rw [if_pos hbetter]
      refine hs.advance (fun _ => ⟨by omega, by omega⟩) (fun _ _ => ⟨by simp, ?_⟩) fun hzero => ?_
      · rw [ht.header_eq.1]
        exact hlt
      · have hlow := ht.low
        omega
    · rw [if_neg hbetter]
      exact hs.advance hs.room (hkept _) fun hzero => absurd (Or.inl hzero) hbetter
  · have hshaped := Shaped.resize_last size (h.brk + (size - b.size)) hs.shaped ha
      (by rw [extent_nil] at hbound; omega) (by omega)
    refine Or.inl ⟨_, cs, resized b size, [], _, hturn,
      ⟨hshaped, hs.keeps.trans ?_, resized_none.mpr hb, le_rfl⟩, ?_, ?_⟩
    · refine ⟨rfl, rfl, ?_, fun q hq x hlow hhigh => Tiled.bytes_kept ht (writes_setSize head_mem) hq hlow hhigh⟩
      change inUse 16 h.root (cs ++ [resized b size]) = inUse 16 h.root (cs ++ [b])
      rw [inUse_append, inUse_append, inUse_hole _ _ hb, inUse_hole _ _ (resized_none.mpr hb)]
      rfl
    · have hlast := hrow.2 rfl
      omega
    · change h.root + extent 16 cs + 16 ≤ _
      omega
  · exact Or.inr ⟨h, _, best, cs ++ b :: ds, _, rest, hturn,
      hs.advance hs.room (hkept _) fun hzero => ⟨hzero, hpass⟩, hlength⟩
  · obtain ⟨hshaped, hkeeps, hothers⟩ := Shaped.merge hs.shaped hb hn
    have hrows := row_merge (w := 16) (h₀.size - h₀.brk) 0 cs es hb hn
    have hfree : h.root + extent 16 cs + (16 + b.size) ∈ seen ++ (h.root + extent 16 cs) :: rest :=
      hs.shaped.second_mem hn
    have hgo (seen' rest' : List ℕ) (herase : (seen ++ (h.root + extent 16 cs) :: rest).erase
        (h.root + extent 16 cs + (16 + b.size)) = seen' ++ (h.root + extent 16 cs) :: rest')
        (hin : ∀ x ∈ seen, x ≠ h.root + extent 16 cs + (16 + b.size) → x ∈ seen') (hfrom : ∀ x ∈ seen', x ∈ seen) :
        Searching h₀ bs₀ size (merged h (h.root + extent 16 cs)) (cs ++ ⟨b.size + n.size + 16, none⟩ :: es)
          (h.root + extent 16 cs) best (decide (best = best) && (lost ||
            (decide (h.root + extent 16 cs = h.root + extent 16 cs) &&
              decide (objectHeaderNext h.mem (h.root + extent 16 cs) = best))))
          seen' ((h.root + extent 16 cs) :: rest') := by
      refine ⟨by rw [← herase]; exact hshaped, hs.keeps.trans hkeeps, hs.brk, rfl, hrows.trans hs.rows, hs.room,
        fun hne hlost => ?_, fun hzero x hx => ?_⟩
      · obtain ⟨hseen, hlarge⟩ := hs.kept hne (hstill _ hlost)
        have hother : best ≠ h.root + extent 16 cs + (16 + b.size) := by
          intro heq
          rw [ht.next_eq, heq] at hlost
          simp at hlost
        refine ⟨hin best hseen hother, ?_⟩
        rw [(hothers best (hs.shaped.subset (List.mem_append_left _ hseen))).2 fun heq => hout (heq ▸ hseen)]
        exact hlarge
      · have hseen := hfrom x hx
        exact passed_merged hs.shaped hb hn (List.mem_append_left _ hseen) (fun heq => hout (heq ▸ hseen))
          (hs.passed hzero x hseen)
    refine Or.inr ⟨merged h (h.root + extent 16 cs), h.root + extent 16 cs, best,
      cs ++ ⟨b.size + n.size + 16, none⟩ :: es, ?_⟩
    by_cases hin : h.root + extent 16 cs + (16 + b.size) ∈ seen
    · refine ⟨_, (h.root + extent 16 cs) :: rest, hturn, hgo (seen.erase _) rest (List.erase_append_left _ hin)
        (fun x hx hne => (List.mem_erase_of_ne hne).mpr hx) fun x hx => List.mem_of_mem_erase hx, ?_⟩
      have hlen := List.length_erase_of_mem hin
      have hpos := List.length_pos_of_mem hin
      simp only [List.length_cons]
      omega
    · have hrest : h.root + extent 16 cs + (16 + b.size) ∈ rest := by
        rcases List.mem_append.mp hfree with hmem | hmem
        · exact absurd hmem hin
        · exact (List.mem_cons.mp hmem).resolve_left (by omega)
      refine ⟨seen, (h.root + extent 16 cs) :: rest.erase (h.root + extent 16 cs + (16 + b.size)), hturn,
        hgo seen _ ?_ (fun x hx _ => hx) fun x hx => hx, ?_⟩
      · rw [List.erase_append_right _ hin, List.erase_cons_tail (by simp)]
      · have hlen := List.length_erase_of_mem hrest
        have hpos := List.length_pos_of_mem hrest
        simp only [List.length_cons]
        omega

theorem Searching.stop (hs : Searching h₀ bs₀ size h bs block 0 lost seen []) (hu : h₀.size - h₀.brk < 16 + size) :
    row 16 (h₀.size - h₀.brk) 0 bs₀ < 16 + size := by
  have ht := hs.shaped.tiled
  have htotal := hs.keeps.size
  have hbrk := hs.brk
  rw [← hs.rows]
  refine row_lt _ _ bs hu fun cs b ds hbs hb => ?_
  subst hbs
  have hmem := hs.shaped.mem_free hb
  rw [List.append_nil] at hmem
  obtain ⟨hsize, hlast, hnext⟩ := hs.passed rfl _ hmem
  rw [ht.header_eq.1] at hsize hlast
  refine ⟨by omega, fun hds => ?_, fun n es hds => ?_⟩
  · have hend := hlast (ht.isEnd_iff.mpr hds)
    omega
  · subst hds
    have hnot : heapIsEnd h (h.root + extent 16 cs) = false :=
      Bool.eq_false_iff.mpr fun h' => by simpa using ht.isEnd_iff.mp h'
    have hused := hnext hnot
    rw [ht.next_eq, ht.second.2] at hused
    exact fun hn => hused (flag_none hn)

/-- How a search ends: without a block where no free ones in a row have room, or with one. -/
theorem Searching.run {fuel : ℕ} (hs : Searching h₀ bs₀ size h bs block best lost seen rest) (hsize : size < 2 ^ 32)
    (ha : size % 4 = 0) (hfuel : seen.length + 2 * rest.length < fuel) :
    ∃ h' r, bestFitFrom fuel h size block best = some (h', r) ∧
      ((r = 0 ∧ (∃ bs' free, Shaped h' bs' free ∧ Keeps h₀ h' bs₀ bs' ∧ h'.brk = h₀.brk) ∧
          (h₀.size - h₀.brk < 16 + size → row 16 (h₀.size - h₀.brk) 0 bs₀ < 16 + size)) ∨
        (r ≠ 0 ∧ 16 + size ≤ row 16 (h₀.size - h₀.brk) 0 bs₀ ∧ r + 16 ≤ h₀.root + h₀.size ∧
          (losesBest fuel h size block best lost = false →
            ∃ cs b ds free, r = h'.root + extent 16 cs ∧ Found h₀ bs₀ size h' cs ds b free))) := by
  induction fuel generalizing h bs block best lost seen rest with
  | zero => omega
  | succ fuel ih =>
    unfold bestFitFrom losesBest
    cases rest with
    | nil =>
      have hblock : block = 0 := hs.stands
      rw [if_pos hblock, if_pos hblock]
      refine ⟨h, best, rfl, ?_⟩
      by_cases hbest : best = 0
      · subst hbest
        exact Or.inl ⟨rfl, ⟨bs, seen ++ [], hs.shaped, hs.keeps, hs.brk⟩, hs.stop⟩
      · refine Or.inr ⟨hbest, (hs.room hbest).1, (hs.room hbest).2, fun hlost => ?_⟩
        obtain ⟨hseen, hlarge⟩ := hs.kept hbest hlost
        obtain ⟨cs, b, ds, rfl, hb, rfl⟩ := hs.shaped.place (List.mem_append_left _ hseen)
        rw [hs.shaped.tiled.header_eq.1] at hlarge
        exact ⟨cs, b, ds, _, rfl, hs.shaped, hs.keeps, hb, by omega⟩
    | cons a rest =>
      obtain rfl : block = a := hs.stands
      have hblock : block ≠ 0 := hs.shaped.listed.ne_zero (by simp)
      rw [if_neg hblock, if_neg hblock]
      rcases hs.turn hsize ha with ⟨h', cs, b, ds, free, hturn, hfound, hroom, hhigh⟩ |
        ⟨h', block', best', bs', seen', rest', hturn, hsearch, hless⟩
      · rw [hturn]
        have hlow := hfound.shaped.tiled.low
        exact ⟨h', _, rfl, Or.inr ⟨by omega, hroom, hhigh, fun _ => ⟨cs, b, ds, free, rfl, hfound⟩⟩⟩
      · rw [hturn]
        exact ih hsearch (by omega)

theorem heapFindBestFit_spec {free : List ℕ} (hs : Shaped h bs free) (hsize : size < 2 ^ 32) (ha : size % 4 = 0) :
    ∃ h' r, heapFindBestFit h size = some (h', r) ∧
      ((r = 0 ∧ (∃ bs' free', Shaped h' bs' free' ∧ Keeps h h' bs bs' ∧ h'.brk = h.brk) ∧
          (h.size - h.brk < 16 + size → row 16 (h.size - h.brk) 0 bs < 16 + size)) ∨
        (r ≠ 0 ∧ 16 + size ≤ row 16 (h.size - h.brk) 0 bs ∧ r + 16 ≤ h.root + h.size ∧
          (losesBest (h.brk + 1) h size h.free 0 false = false →
            ∃ cs b ds free', r = h'.root + extent 16 cs ∧ Found h bs size h' cs ds b free'))) := by
  have hfew := holes_extent (w := 16) h.root bs
  rw [← hs.perm.length_eq, ← hs.tiled.fills] at hfew
  exact (Searching.start hs).run hsize ha (by rw [List.length_nil]; omega)

end Search

end Eedox.UserHeapSearch
