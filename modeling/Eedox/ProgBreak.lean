import Eedox.ProgSegments
import Mathlib.Algebra.GroupWithZero.Nat

namespace Eedox.Prog

open Library.Runs

/-- The call returns when its loop ends. -/
def syscallSbrk (s : Space) (increment : ℕ) : Option Space :=
  let newBrk := (s.brk + increment) % 2 ^ 32
  match pageLoop (fun i => decide (i < newBrk)) (fun i s => mapAddress s i) (2 ^ 20) s.brk s with
  | (s, true) => some { s with brk := newBrk }
  | (_, false) => none

/-- The addresses of the last bytes of the segments, in the order in which they are loaded. -/
def lasts (s : Space) (file : ℕ) : List ℕ :=
  ((loaded s file).filter fun i => decide ((header s file i).memsz ≠ 0)).map fun i =>
    (header s file i).vaddr + (header s file i).memsz - 1

/-- The break is above all segments. -/
def Above (s : Space) (file brk : ℕ) : Prop := ∀ last ∈ lasts s file, last < brk

/-- Every address between the first break and the one now lies in a mapped page. -/
def Covered (first : ℕ) (t : Space) : Prop := ∀ a, first ≤ a → a < t.brk → t.frames (a / 0x1000) = true

/-- What a call adds, seen as a segment. -/
def added (s : Space) (increment : ℕ) : Phdr := ⟨0, s.brk, increment⟩

/-- The greatest of the last addresses is not the first byte of a page, nor in the last page. -/
def Rounded (s : Space) (file : ℕ) : Prop := ∀ last ∈ lasts s file,
  last < 0xfffff000 ∧ ∃ most ∈ lasts s file, last ≤ most ∧ most % 0x1000 ≠ 0

/-- The counter of the loop does not wrap, the page that the new part ends in is mapped already or one of
those that the loop comes to, and there are frames for these. -/
structure Reaches (s : Space) (increment : ℕ) : Prop where
  fits : (added s increment).fits
  last : increment ≠ 0 → s.frames (lastPage (added s increment)) = true ∨
    lastPage (added s increment) ∈ pages (added s increment)
  enough : unmapped s (s.brk / 0x1000) (pageCount (added s increment)) ≤ s.free

section Raise

variable {brk : ℕ} {ls : List ℕ}

theorem raiseBrk_aligned (h : brk % 0x1000 = 0) (hlt : brk < 2 ^ 32) (last : ℕ) (hlast : last < 2 ^ 32) :
    raiseBrk brk last % 0x1000 = 0 ∧ raiseBrk brk last < 2 ^ 32 := by
  unfold raiseBrk
  split_ifs <;> omega

theorem raises_aligned (h : brk % 0x1000 = 0) (hlt : brk < 2 ^ 32) (hls : ∀ last ∈ ls, last < 2 ^ 32) :
    ls.foldl raiseBrk brk % 0x1000 = 0 ∧ ls.foldl raiseBrk brk < 2 ^ 32 := by
  induction ls generalizing brk with
  | nil => exact ⟨h, hlt⟩
  | cons last ls ih =>
    rw [List.forall_mem_cons] at hls
    obtain ⟨h', hlt'⟩ := raiseBrk_aligned h hlt last hls.1
    exact ih h' hlt' hls.2

theorem raises_ge (hls : ∀ last ∈ ls, last < 0xfffff000) : brk ≤ ls.foldl raiseBrk brk := by
  induction ls generalizing brk with
  | nil => exact le_rfl
  | cons last ls ih =>
    rw [List.forall_mem_cons] at hls
    refine le_trans ?_ (ih hls.2)
    unfold raiseBrk
    split_ifs <;> omega

theorem raises_above (h : brk % 0x1000 = 0) (hlt : brk < 2 ^ 32) (hls : ∀ last ∈ ls, last < 0xfffff000)
    {most : ℕ} (hmem : most ∈ ls) (hmost : most % 0x1000 ≠ 0) : most < ls.foldl raiseBrk brk := by
  induction ls generalizing brk with
  | nil => cases hmem
  | cons last ls ih =>
    rw [List.forall_mem_cons] at hls
    obtain ⟨h', hlt'⟩ := raiseBrk_aligned h hlt last (by omega)
    rcases List.mem_cons.mp hmem with rfl | hmem
    · rw [List.foldl_cons]
      refine lt_of_lt_of_le ?_ (raises_ge hls.2)
      unfold raiseBrk
      split_ifs <;> omega
    · exact ih h' hlt' hls.2 hmem

/-- The break is where it was, or at the end of the page of one of the addresses. -/
theorem raises_attained : ls.foldl raiseBrk brk = brk ∨ ∃ most ∈ ls, ls.foldl raiseBrk brk =
    if most % 0x1000 ≠ 0 then (most / 0x1000 * 0x1000 + 0x1000) % 2 ^ 32 else most := by
  induction ls generalizing brk with
  | nil => exact Or.inl rfl
  | cons last ls ih =>
    rw [List.foldl_cons]
    rcases @ih (raiseBrk brk last) with heq | ⟨most, hmem, heq⟩
    · rw [heq, raiseBrk]
      by_cases hlt : brk < last
      · rw [if_pos hlt]
        exact Or.inr ⟨last, List.mem_cons_self, rfl⟩
      · exact Or.inl (if_neg hlt)
    · exact Or.inr ⟨most, List.mem_cons_of_mem last hmem, heq⟩

theorem raises_iff (hls : ∀ last ∈ ls, last < 2 ^ 32) : (∀ last ∈ ls, last < ls.foldl raiseBrk 0) ↔
    ∀ last ∈ ls, last < 0xfffff000 ∧ ∃ most ∈ ls, last ≤ most ∧ most % 0x1000 ≠ 0 := by
  constructor
  · intro h last hlast
    obtain ⟨halign, hlt⟩ := @raises_aligned 0 ls rfl (by decide) hls
    have habove := h last hlast
    refine ⟨by omega, ?_⟩
    rcases @raises_attained 0 ls with heq | ⟨most, hmem, heq⟩
    · omega
    · have hmost := h most hmem
      have hword := hls most hmem
      split_ifs at heq with hpage
      · rcases Nat.lt_or_ge most last with hgt | hle
        · exact ⟨last, hlast, le_rfl, by omega⟩
        · exact ⟨most, hmem, hle, hpage⟩
      · omega
  · intro h last hlast
    obtain ⟨-, most, hmem, hle, hmost⟩ := h last hlast
    exact hle.trans_lt (raises_above rfl (by decide) (fun l hl => (h l hl).1) hmem hmost)

end Raise

section Load

variable {s : Space} {file size laddr i : ℕ} {before : List ℕ} {t : Loading}

/-- What holds of the break after the turns for these program headers. -/
structure Raised (s : Space) (file size : ℕ) (before : List ℕ) (t : Loading) : Prop where
  kept : ∀ a, file ≤ a → a < file + size → t.space.mem a = s.mem a
  mapped : ∀ a, file ≤ a → a < file + size → t.space.frames (a / 0x1000) = true
  brk : t.brk = ((before.filter fun i => decide ((header s file i).memsz ≠ 0)).map fun i =>
    (header s file i).vaddr + (header s file i).memsz - 1).foldl raiseBrk 0
  task : before ≠ [] → t.space.brk = t.brk

theorem memcpy_mem_outside {dest src n a : ℕ} (h : ∀ k < n, a ≠ (dest + k) % 2 ^ 32) :
    (memcpy s dest src n).mem a = s.mem a := by
  have hup : (memcpyUp s dest src n).mem a = s.mem a := by
    induction n with
    | zero => rfl
    | succ n ih =>
      rw [memcpyUp, storeByte_mem, if_neg (h n (Nat.lt_succ_self n)), ih fun k hk => h k (Nat.lt_succ_of_lt hk)]
  have hdown : (memcpyDown s dest src n).mem a = s.mem a := by
    clear hup
    induction n generalizing s with
    | zero => rfl
    | succ n ih =>
      rw [memcpyDown, ih fun k hk => h k (Nat.lt_succ_of_lt hk), storeByte_mem, if_neg (h n (Nat.lt_succ_self n))]
  rw [memcpy]
  split_ifs
  · rfl
  · exact hup
  · exact hdown
  · rfl

theorem turn_raised (h : WellFormed s file size) (hung : t.hung = false) (hr : Raised s file size before t)
    (hi : i ∈ loaded s file) (hfits : (header s file i).fits) :
    Raised s file size (before ++ [i]) (loadSegment file laddr (progArr s file) t i) := by
  have hends := h.ends i hi
  have hapart := h.apart i hi
  obtain ⟨brk, low, hbrk, hload⟩ := @loadSegment_fits s file size laddr i t h hung hr.kept hi hfits
  rw [hload]
  refine ⟨fun a hle hlt => ?_, fun a hle hlt => ?_, ?_, fun _ => memcpy_copied.brk⟩
  · change (memcpy _ _ _ _).mem a = _
    rw [memcpy_mem_outside fun k hk => by omega]
    exact (mapTurns_mem (hr.mapped a hle hlt)).trans (hr.kept a hle hlt)
  · change (memcpy _ _ _ _).frames _ = _
    rw [memcpy_copied.frames]
    exact mapTurns_given.frames _ (hr.mapped a hle hlt)
  · rw [hbrk, List.filter_append, List.map_append, List.foldl_append, ← hr.brk]
    by_cases hzero : (header s file i).memsz = 0
    · rw [if_pos hzero, List.filter_singleton, decide_eq_false (not_not_intro hzero)]
      rfl
    · have hlast : lastAddress (header s file i) = (header s file i).vaddr + (header s file i).memsz - 1 := by
        unfold lastAddress
        omega
      rw [if_neg hzero, hlast, List.filter_singleton, decide_eq_true hzero]
      rfl

theorem raised_run (h : WellFormed s file size) {is : List ℕ} (hung : t.hung = false)
    (hr : Raised s file size before t) (hsub : ∀ i ∈ is, i ∈ segments s.mem file)
    (hend : (is.foldl (loadSegment file laddr (progArr s file)) t).hung = false) :
    Raised s file size (before ++ is.filter fun i => decide ((header s file i).vaddr ≠ 0))
      (is.foldl (loadSegment file laddr (progArr s file)) t) := by
  induction is generalizing before t with
  | nil => rwa [List.filter_nil, List.append_nil]
  | cons i is ih =>
    rw [List.forall_mem_cons] at hsub
    rw [List.foldl_cons] at hend ⊢
    have hafter : (loadSegment file laddr (progArr s file) t i).hung = false := by
      by_contra hc
      rw [hung_of_hung is (by simpa using hc)] at hend
      cases hend
    by_cases h0 : (header s file i).vaddr = 0
    · have hlt : i < phnum s.mem file := by
        have := hsub.1
        rw [segments, List.mem_range'_1] at this
        omega
      have hskip := @loadSegment_skip file laddr (progArr s file) i t (by rwa [phdr_kept h hr.kept hlt])
      rw [hskip] at hend ⊢
      rw [List.filter_cons_of_neg (by simp [h0])]
      exact ih hung hr hsub.2 hend
    · have hi : i ∈ loaded s file := List.mem_filter.mpr ⟨hsub.1, by simp [h0]⟩
      have hfits : (header s file i).fits := by
        by_contra hc
        rw [loadSegment_not_fits h hung hr.kept hi hc] at hafter
        cases hafter
      have := ih hafter (turn_raised h hung hr hi hfits) hsub.2 hend
      rwa [List.filter_cons_of_pos (by simp [h0]), ← List.singleton_append, ← List.append_assoc]

/-- The break that the loader leaves. -/
theorem load_brk (h : WellFormed s file size) (hended : (progLoad s file laddr).2 ≠ .endless)
    (hne : lasts s file ≠ []) :
    (progLoad s file laddr).1.space.brk = (lasts s file).foldl raiseBrk 0 := by
  have hung := not_hung h hended
  have hstart : Raised s file size [] (startLoading s) :=
    ⟨fun _ _ _ => rfl, h.mapped, rfl, fun hnil => absurd rfl hnil⟩
  have hr := @raised_run s file size laddr [] _ h _ rfl hstart (fun i hi => hi) hung
  have hloaded : loaded s file ≠ [] := by
    intro hnil
    rw [lasts, hnil] at hne
    exact hne rfl
  rw [progLoad_elf h]
  exact (hr.task hloaded).trans hr.brk

end Load

section Sbrk

variable {s t : Space} {first increment : ℕ}

theorem syscallSbrk_fits (hsum : s.brk + increment < 2 ^ 32) (hfits : (added s increment).fits) :
    syscallSbrk s increment =
      some { mapTurns s s.brk (pageCount (added s increment)) with brk := s.brk + increment } := by
  have hmod : (s.brk + increment) % 2 ^ 32 = s.brk + increment := Nat.mod_eq_of_lt hsum
  have hroom : s.brk + increment ≤ 0xfffff000 + s.brk % 0x1000 := hfits
  have hcount : pageCount (added s increment) = (increment + 0xfff) / 0x1000 := rfl
  rw [syscallSbrk, hmod]
  simp only
  rw [pageLoop_ends (m := pageCount (added s increment)) (by omega) (by omega)]
  · intro j hj
    rw [decide_eq_true_eq]
    omega
  · rw [decide_eq_false_iff_not]
    omega

theorem syscallSbrk_endless (hsum : s.brk + increment < 2 ^ 32) (hfits : ¬ (added s increment).fits) :
    syscallSbrk s increment = none := by
  have hmod : (s.brk + increment) % 2 ^ 32 = s.brk + increment := Nat.mod_eq_of_lt hsum
  have hroom : ¬ s.brk + increment ≤ 0xfffff000 + s.brk % 0x1000 := hfits
  rw [syscallSbrk, hmod, pageLoop_never_ends (by omega)]
  intro j hj
  rw [decide_eq_true_eq]
  omega

/-- What a call returns to covers the new part exactly if the call reaches its end. -/
theorem sbrk_covers (hfirst : first ≤ s.brk) (hsum : s.brk + increment < 2 ^ 32) (hs : Covered first s) :
    (∃ t, syscallSbrk s increment = some t ∧ Covered first t) ↔ Reaches s increment := by
  by_cases hfits : (added s increment).fits
  · have hcount : s.brk / 0x1000 + pageCount (added s increment) ≤ 2 ^ 20 := count_pages hfits
    obtain ⟨-, hframes⟩ := @mapTurns_spec s s.brk _ hcount
    have hall := @mapTurns_all s s.brk _ hcount
    rw [syscallSbrk_fits hsum hfits]
    constructor
    · rintro ⟨t, ht, hcovered⟩
      obtain rfl := Option.some.inj ht
      have hmapped (k : ℕ) (hk : k < increment) :
          (mapTurns s s.brk (pageCount (added s increment))).frames ((s.brk + k) / 0x1000) = true :=
        hcovered (s.brk + k) (by omega) (by dsimp only; omega)
      refine ⟨hfits, fun hne => ?_, hall.mp fun q hle hlt => ?_⟩
      · have hlast := hmapped (increment - 1) (by omega)
        rw [← Nat.add_sub_assoc (by omega), hframes] at hlast
        rw [mem_pages]
        exact hlast.imp_right fun h => ⟨h.1, h.2.1⟩
      · obtain ⟨k, hk, rfl⟩ := @exists_of_mem_pages (added s increment) q (mem_pages.mpr (And.intro hle hlt))
        exact hmapped k hk
    · intro h
      refine ⟨_, rfl, fun a hle hlt => ?_⟩
      have hpages := hall.mpr h.enough
      change (mapTurns s s.brk (pageCount (added s increment))).frames (a / 0x1000) = true
      dsimp only at hlt
      rcases Nat.lt_or_ge a s.brk with hold | hnew
      · exact (hframes _).mpr (Or.inl (hs a hle hold))
      · obtain ⟨k, rfl⟩ := Nat.exists_eq_add_of_le hnew
        have hk : k < (added s increment).memsz := by
          change k < increment
          omega
        rcases mem_pages_or_last hk with hin | hlast
        · rw [mem_pages] at hin
          exact hpages _ hin.1 hin.2
        · have hlast' : (s.brk + k) / 0x1000 = lastPage (added s increment) := hlast
          rw [hlast']
          rcases h.last (by omega) with hmapped | hin
          · exact (hframes _).mpr (Or.inl hmapped)
          · rw [mem_pages] at hin
            exact hpages _ hin.1 hin.2
  · rw [syscallSbrk_endless hsum hfits]
    refine ⟨?_, fun h => absurd h.fits hfits⟩
    rintro ⟨t, ht, -⟩
    cases ht

theorem sbrk_brk (hsum : s.brk + increment < 2 ^ 32) (h : syscallSbrk s increment = some t) :
    t.brk = s.brk + increment := by
  by_cases hfits : (added s increment).fits
  · rw [syscallSbrk_fits hsum hfits] at h
    rw [← Option.some.inj h]
  · rw [syscallSbrk_endless hsum hfits] at h
    cases h

/-- All calls of a run return, and after each of them what lies between the first break and the one
then is covered. -/
theorem run_covers {increments : List ℕ} (hfirst : first ≤ s.brk) (hs : Covered first s)
    (hsum : s.brk + increments.sum < 2 ^ 32) :
    ((∃ u, exec syscallSbrk s increments = some u) ∧
      ∀ run t, run <+: increments → exec syscallSbrk s run = some t → Covered first t) ↔
    Meets syscallSbrk Reaches s increments := by
  induction increments generalizing s with
  | nil =>
    refine ⟨fun _ => trivial, fun _ => ⟨⟨s, rfl⟩, fun run t hrun ht => ?_⟩⟩
    rw [List.prefix_nil.mp hrun] at ht
    obtain rfl := Option.some.inj ht
    exact hs
  | cons increment increments ih =>
    rw [List.sum_cons] at hsum
    have hcall := @sbrk_covers s first increment hfirst (by omega) hs
    constructor
    · rintro ⟨⟨u, hu⟩, hall⟩
      obtain ⟨t, ht, hrest⟩ := exec_cons.mp hu
      have hbrk := sbrk_brk (by omega) ht
      have hcovered : Covered first t := hall [increment] t (List.cons_prefix_cons.mpr ⟨rfl, List.nil_prefix⟩)
        (exec_cons.mpr ⟨t, ht, rfl⟩)
      refine meets_cons (hcall.mp ⟨t, ht, hcovered⟩) ht ?_
      refine (ih (by omega) hcovered (by omega)).mp ⟨⟨u, hrest⟩, fun run t' hrun ht' => ?_⟩
      exact hall (increment :: run) t' (List.cons_prefix_cons.mpr ⟨rfl, hrun⟩) (exec_cons.mpr ⟨t, ht, ht'⟩)
    · rintro ⟨hreaches, hall⟩
      obtain ⟨t, ht, hcovered⟩ := hcall.mpr hreaches
      have hbrk := sbrk_brk (by omega) ht
      obtain ⟨⟨u, hu⟩, hrest⟩ := (ih (by omega) hcovered (by omega)).mpr (hall t ht)
      refine ⟨⟨u, exec_cons.mpr ⟨t, ht, hu⟩⟩, fun run t' hrun ht' => ?_⟩
      cases run with
      | nil =>
        obtain rfl := Option.some.inj ht'
        exact hs
      | cons a run =>
        obtain ⟨rfl, hprefix⟩ := List.cons_prefix_cons.mp hrun
        obtain ⟨v, hv, ht'⟩ := exec_cons.mp ht'
        obtain rfl : t = v := Option.some.inj (ht.symm.trans hv)
        exact hrest run t' hprefix ht'

end Sbrk

/-- For a file that has been loaded: the break is above its segments, and stays covered in a run of calls,
exactly if the greatest last address is rounded up and each call reaches its end. -/
theorem break_iff {s : Space} {file size laddr : ℕ} {increments : List ℕ} (h : WellFormed s file size)
    (hended : (progLoad s file laddr).2 ≠ .endless)
    (hsum : (progLoad s file laddr).1.space.brk + increments.sum < 2 ^ 32) :
    (Above s file (progLoad s file laddr).1.space.brk ∧
      (∃ u, exec syscallSbrk (progLoad s file laddr).1.space increments = some u) ∧
      ∀ run t, run <+: increments → exec syscallSbrk (progLoad s file laddr).1.space run = some t →
        Covered (progLoad s file laddr).1.space.brk t) ↔
    Rounded s file ∧ Meets syscallSbrk Reaches (progLoad s file laddr).1.space increments := by
  have hstart : Covered (progLoad s file laddr).1.space.brk (progLoad s file laddr).1.space := by
    intro a hle hlt
    omega
  rw [run_covers le_rfl hstart hsum]
  refine and_congr_left fun _ => ?_
  by_cases hne : lasts s file = []
  · rw [Above, Rounded, hne]
    exact ⟨fun _ last hlast => absurd hlast List.not_mem_nil, fun _ last hlast => absurd hlast List.not_mem_nil⟩
  · rw [Above, Rounded, load_brk h hended hne]
    refine raises_iff fun last hlast => ?_
    rw [lasts, List.mem_map] at hlast
    obtain ⟨i, hi, rfl⟩ := hlast
    have hends := h.ends i (List.mem_filter.mp hi).1
    have hmemsz : (header s file i).memsz ≠ 0 := by simpa using (List.mem_filter.mp hi).2
    omega

theorem lasts_whole : lasts wholeSpace 0x200000 = [0x500003] := by decide

/-- One page more than the sample segment. -/
theorem break_page : Above wholeSpace 0x200000 (progLoad wholeSpace 0x200000 0x400000).1.space.brk ∧
    ∃ u, exec syscallSbrk (progLoad wholeSpace 0x200000 0x400000).1.space [0x1000] = some u := by
  have hrounded : Rounded wholeSpace 0x200000 := by
    rw [Rounded, lasts_whole, List.forall_mem_singleton]
    exact ⟨by decide, _, List.mem_singleton_self _, le_rfl, by decide⟩
  have hmeets : Meets syscallSbrk Reaches (progLoad wholeSpace 0x200000 0x400000).1.space [0x1000] :=
    ⟨⟨by decide, fun _ => Or.inr (by decide), by decide⟩, fun _ _ => trivial⟩
  have hbreak := (@break_iff wholeSpace 0x200000 116 0x400000 [0x1000] wellFormed_whole (by decide)
    (by decide)).mpr ⟨hrounded, hmeets⟩
  exact ⟨hbreak.1, hbreak.2.1⟩

/-- From a break one byte before the end of a page, two bytes more end in a page that the loop does not
come to. -/
theorem unaligned_break : ∃ t,
    exec syscallSbrk (progLoad wholeSpace 0x200000 0x400000).1.space [0xfff, 2] = some t ∧
      ¬ Covered (progLoad wholeSpace 0x200000 0x400000).1.space.brk t := by
  have hrun : (exec syscallSbrk (progLoad wholeSpace 0x200000 0x400000).1.space [0xfff, 2]).map
      (fun t => (t.brk, t.frames 0x502)) = some (0x502001, false) := by decide
  have hbrk : (progLoad wholeSpace 0x200000 0x400000).1.space.brk = 0x501000 := by decide
  obtain ⟨t, ht, hpair⟩ := Option.map_eq_some_iff.mp hrun
  obtain ⟨hend, hframe⟩ := Prod.mk.inj hpair
  refine ⟨t, ht, fun h => ?_⟩
  rw [hbrk] at h
  have hmapped := h 0x502000 (by decide) (by omega)
  rw [show 0x502000 / 0x1000 = 0x502 from rfl, hframe] at hmapped
  cases hmapped

end Eedox.Prog
