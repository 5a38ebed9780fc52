import Eedox.Prog
import Mathlib.Data.Nat.Find

namespace Eedox.Prog

variable {s : Space} {file laddr table : ℕ}

/-- No byte below `laddr` is stored to, or changed, and a segment that starts there is reported. -/
structure KernelSafe (s : Space) (file laddr : ℕ) : Prop where
  untouched : ∀ a < laddr, (progLoad s file laddr).1.space.touched a = false
  unchanged : ∀ a < laddr, (progLoad s file laddr).1.space.mem a = s.mem a
  reports : (progLoad s file laddr).1.low = true → (progLoad s file laddr).2 = .failure

/-- The turn for a program header leaves memory below `laddr` alone: either the mapping loop ends before
its counter wraps, or the segment wraps and is its own source, or the loop does not end but finds no
page below `laddr` to give a frame to. -/
def Harmless (file laddr table : ℕ) (s : Loading) (i : ℕ) : Prop :=
  let seg := phdr s.space.mem table i
  seg.vaddr = 0 ∨ laddr ≤ seg.vaddr ∧ (s.hung = true ∨ seg.fits ∨
    2 ^ 32 < seg.vaddr + seg.memsz ∧ seg.vaddr = (file + seg.offset) % 2 ^ 32 ∨
    seg.vaddr + seg.memsz ≤ 2 ^ 32 ∧ ((∀ page < laddr / 0x1000, s.space.frames page = true) ∨
      s.space.free ≤ unmapped s.space (seg.vaddr / 0x1000) (2 ^ 20 - seg.vaddr / 0x1000)))

def step (file laddr table : ℕ) (s : Loading) (i : ℕ) : Option Loading :=
  some (loadSegment file laddr table s i)

/-- Nothing below `laddr` has been stored to, and no segment starts there. -/
def Clear (laddr : ℕ) (s : Loading) : Prop :=
  (∀ a < laddr, s.space.touched a = false) ∧ s.low = false

theorem Later.setBrk {t : Space} (h : Later s t) (brk : ℕ) : Later s { t with brk := brk } :=
  ⟨h.touched, h.mem⟩

theorem loadSegment_later (s : Loading) (i : ℕ) :
    Later s.space (loadSegment file laddr table s i).space := by
  rcases @loadSegment_cases file laddr table i s with ⟨h, -⟩ | ⟨-, -, hcase⟩
  · rw [h]
    exact .refl _
  · rcases hcase with ⟨-, h, -⟩ | ⟨-, -, -, -, h⟩ | ⟨-, -, -, -, h⟩ | ⟨-, -, -, -, h⟩
    · rw [h]
      exact .refl _
    · rw [h]
      have hmap : Later s.space (mapTurns s.space (phdr s.space.mem table i).vaddr
          (pageCount (phdr s.space.mem table i))) := mapTurns_given.later
      exact (hmap.setBrk _).trans memcpy_copied.toLater
    · rw [h]
      exact ((Later.refl s.space).setBrk _).trans memcpy_copied.toLater
    · rw [h]
      exact mapTurns_given.later

theorem loadSegment_low (s : Loading) (i : ℕ) (h : s.low = true) :
    (loadSegment file laddr table s i).low = true := by
  rcases @loadSegment_cases file laddr table i s with ⟨heq, -⟩ | ⟨-, heq, -⟩
  · rw [heq, h]
  · rw [heq, h, Bool.true_or]

theorem unmapped_zero {page n : ℕ} (h : ∀ q, page ≤ q → q < page + n → s.frames q = true) :
    unmapped s page n = 0 := by
  have hle := (@unmapped_le_iff s n page 0).mp fun q h1 h2 => Or.inl (h q h1 h2)
  omega

/-- A round of the loop that never ends comes to the pages below the start last, from page 0 on. -/
theorem mapTurns_round {start page round : ℕ} (hround : round = 2 ^ 20) (hstart : start < 2 ^ 32)
    (hpage : page ≤ start / 0x1000) :
    (∃ q < page, (mapTurns s start round).frames q = true ∧ s.frames q = false) ↔
      (∃ q < page, s.frames q = false) ∧
        unmapped s (start / 0x1000) (2 ^ 20 - start / 0x1000) < s.free := by
  have hp : start / 0x1000 + (2 ^ 20 - start / 0x1000) ≤ 2 ^ 20 := by omega
  obtain ⟨hfree, hframes⟩ := @mapTurns_spec s start _ hp
  have hr : start % 0x1000 / 0x1000 + start / 0x1000 ≤ 2 ^ 20 := by omega
  obtain ⟨-, hlast⟩ := @mapTurns_spec (mapTurns s start (2 ^ 20 - start / 0x1000)) (start % 0x1000) _ hr
  have hwhole : mapTurns s start round =
      mapTurns (mapTurns s start (2 ^ 20 - start / 0x1000)) (start % 0x1000) (start / 0x1000) := by
    rw [show round = (2 ^ 20 - start / 0x1000) + start / 0x1000 by omega, mapTurns, turns_add, ← turns_mod,
      show (start + 0x1000 * (2 ^ 20 - start / 0x1000)) % 2 ^ 32 = start % 0x1000 by omega]
  have hsame (q : ℕ) (hq : q < page) :
      (mapTurns s start (2 ^ 20 - start / 0x1000)).frames q = s.frames q := by
    rw [Bool.eq_iff_iff, hframes]
    exact ⟨fun h => h.elim id fun hc => by omega, Or.inl⟩
  have hzero : start % 0x1000 / 0x1000 = 0 := by omega
  rw [hzero, hfree] at hlast
  rw [hwhole]
  constructor
  · rintro ⟨q, hq, hnew, hold⟩
    refine ⟨⟨q, hq, hold⟩, ?_⟩
    rcases (hlast q).mp hnew with h | h
    · rw [hsame q hq, hold] at h
      cases h
    · omega
  · rintro ⟨hex, hlt⟩
    classical
    obtain ⟨hq, hold⟩ := Nat.find_spec hex
    have hleast (j : ℕ) (hj : j < Nat.find hex) : s.frames j = true := by
      have hmin := Nat.find_min hex hj
      by_contra hc
      exact hmin ⟨by omega, by simpa using hc⟩
    refine ⟨Nat.find hex, hq, ?_, hold⟩
    rw [hlast]
    refine Or.inr ⟨Nat.zero_le _, by omega, ?_⟩
    rw [unmapped_zero fun j _ hj => ?_]
    · omega
    · rw [hsame j (by omega)]
      exact hleast j (by omega)

theorem clear_touched {t : Space} (halign : laddr % 0x1000 = 0) (hclear : ∀ a < laddr, s.touched a = false)
    (hgiven : Given s t) : (∀ a < laddr, t.touched a = false) ↔
      ¬ ∃ q < laddr / 0x1000, t.frames q = true ∧ s.frames q = false := by
  constructor
  · rintro h ⟨q, hq, hnew, hold⟩
    have htouched := (hgiven.touched (q * 0x1000)).mpr
    rw [show q * 0x1000 / 0x1000 = q by omega, h (q * 0x1000) (by omega)] at htouched
    exact absurd (htouched (Or.inr ⟨hnew, hold⟩)) Bool.false_ne_true
  · intro h a ha
    by_contra hc
    rcases (hgiven.touched a).mp (by simpa using hc) with hold | hnew
    · rw [hclear a ha] at hold
      cases hold
    · exact h ⟨a / 0x1000, by omega, hnew⟩

/-- Neither the pages nor the bytes of a segment above `laddr` lie below it. -/
theorem fits_clear {seg : Phdr} {brk src a : ℕ} (halign : laddr % 0x1000 = 0)
    (hclear : ∀ a < laddr, s.touched a = false) (hle : laddr ≤ seg.vaddr) (hfits : seg.fits)
    (ha : a < laddr) : (memcpy { mapTurns s seg.vaddr (pageCount seg) with brk := brk } seg.vaddr src
      seg.memsz).touched a = false := by
  unfold Phdr.fits at hfits
  have hcount : seg.vaddr / 0x1000 + pageCount seg ≤ 2 ^ 20 := by
    unfold pageCount
    omega
  obtain ⟨-, hframes⟩ := @mapTurns_spec s seg.vaddr _ hcount
  have hmapped := (clear_touched halign hclear (@mapTurns_given s seg.vaddr (pageCount seg))).mpr (by
    rintro ⟨q, hq, hnew, hold⟩
    rcases (hframes q).mp hnew with h | h
    · rw [hold] at h
      cases h
    · omega)
  by_contra hc
  rcases memcpy_touched.mp (by simpa using hc) with h | ⟨-, i, hi, rfl⟩
  · change (mapTurns s seg.vaddr (pageCount seg)).touched a = true at h
    rw [hmapped a ha] at h
    cases h
  · omega

/-- One turn stays clear of what is below `laddr` exactly if it is harmless. -/
theorem loadSegment_clear (halign : laddr % 0x1000 = 0) (hpos : 0 < laddr) {s : Loading} {i : ℕ}
    (hs : Clear laddr s) :
    Clear laddr (loadSegment file laddr table s i) ↔ Harmless file laddr table s i := by
  have hv : (phdr s.space.mem table i).vaddr < 2 ^ 32 := getWord_lt _ _
  have hm : (phdr s.space.mem table i).memsz < 2 ^ 32 := getWord_lt _ _
  simp only [Harmless]
  rcases @loadSegment_cases file laddr table i s with ⟨heq, h0⟩ | ⟨h0, hlow, hcase⟩
  · rw [heq]
    exact ⟨fun _ => Or.inl h0, fun _ => hs⟩
  · by_cases hle : laddr ≤ (phdr s.space.mem table i).vaddr
    · have hlow' : (loadSegment file laddr table s i).low = false := by
        rw [hlow, hs.2, Bool.false_or, decide_eq_false_iff_not]
        omega
      simp only [Clear, hlow', and_true, h0, false_or, hle, true_and]
      rcases hcase with ⟨hung, hspace, -⟩ | ⟨hung, hfits, -, -, hspace⟩ | ⟨hung, hwrap, -, -, hspace⟩ |
        ⟨hung, hfits, hend, -, hspace⟩
      · rw [hspace]
        exact ⟨fun _ => Or.inl hung, fun _ => hs.1⟩
      · refine ⟨fun _ => Or.inr (Or.inl hfits), fun _ a ha => ?_⟩
        rw [hspace]
        exact fits_clear halign hs.1 hle hfits ha
      · have hnot : ¬ (phdr s.space.mem table i).fits := by
          unfold Phdr.fits
          omega
        simp only [hung, Bool.false_eq_true, false_or, hnot]
        rw [hspace]
        constructor
        · intro h
          have h0' := h 0 hpos
          refine Or.inl ⟨hwrap, ?_⟩
          by_contra hne
          rw [memcpy_touched.mpr (Or.inr ⟨hne, 2 ^ 32 - (phdr s.space.mem table i).vaddr, by omega,
            by omega⟩)] at h0'
          cases h0'
        · rintro (⟨-, heq⟩ | ⟨hend, -⟩) a ha
          · by_contra hc
            rcases memcpy_touched.mp (by simpa using hc) with h | ⟨h, -⟩
            · rw [hs.1 a ha] at h
              cases h
            · exact h heq
          · omega
      · have hwrap : ¬ 2 ^ 32 < (phdr s.space.mem table i).vaddr + (phdr s.space.mem table i).memsz := by
          omega
        simp only [hung, Bool.false_eq_true, false_or, hfits, hwrap, false_and, hend, true_and]
        rw [hspace, clear_touched halign hs.1 mapTurns_given, mapTurns_round rfl hv (by omega), not_and_or,
          not_lt, not_exists]
        simp only [not_and, Bool.not_eq_false]
    · have hlow' : (loadSegment file laddr table s i).low = true := by
        rw [hlow, decide_eq_true (by omega), Bool.or_true]
      refine ⟨fun h => ?_, fun h => ?_⟩
      · rw [h.2] at hlow'
        cases hlow'
      · rcases h with h | h
        · exact absurd h h0
        · exact absurd h.1 hle

/-- A file is loaded without harm to the kernel exactly if it is no ELF file or each of its segments is
harmless as it stands when its turn comes. -/
theorem progLoad_safe_iff (halign : laddr % 0x1000 = 0) (hpos : 0 < laddr) :
    KernelSafe s file laddr ↔ isElf s.mem file = false ∨
      Library.Runs.Meets (step file laddr (file + phoff s.mem file))
        (Harmless file laddr (file + phoff s.mem file)) (startLoading s) (segments s.mem file) := by
  have hstart : Clear laddr (startLoading s) := ⟨fun _ _ => rfl, rfl⟩
  cases helf : isElf s.mem file with
  | false =>
    have hload : progLoad s file laddr = (startLoading s, .failure) := by
      simp only [progLoad, helf, Bool.false_eq_true, if_false]
    refine ⟨fun _ => Or.inl rfl, fun _ => ⟨?_, ?_, ?_⟩⟩
    · rw [hload]
      exact hstart.1
    · rw [hload]
      exact fun _ _ => rfl
    · rw [hload]
      exact fun _ => rfl
  | true =>
    have hspace : (progLoad s file laddr).1 = (segments s.mem file).foldl
        (loadSegment file laddr (file + phoff s.mem file)) (startLoading s) := by
      simp only [progLoad, helf, if_true]
    have hresult : (progLoad s file laddr).2 ≠ .failure := by
      simp only [progLoad, helf, if_true]
      split_ifs <;> exact Outcome.noConfusion
    have hrun : Library.Runs.exec (step file laddr (file + phoff s.mem file)) (startLoading s)
        (segments s.mem file) = some (progLoad s file laddr).1 := by
      rw [hspace]
      exact Library.Runs.exec_total _ _ _
    have hlater : Later (startLoading s).space (progLoad s file laddr).1.space := by
      refine @Library.Runs.exec_invariant _ _ _ _ (fun t => Later (startLoading s).space t.space)
        (fun t i u h _ hu => ?_) _ _ _ (.refl _) (Library.Runs.meets_true _ _) hrun
      obtain rfl := Option.some.inj hu
      exact h.trans (loadSegment_later t i)
    rw [Bool.true_eq_false, false_or, @Library.Runs.meets_iff_last _ _ _ _ (fun _ => True)
      (Clear laddr) (fun _ _ _ _ _ => trivial) ?_ ?_ _ _ _ trivial hstart hrun]
    · constructor
      · intro h
        refine ⟨h.untouched, ?_⟩
        by_contra hc
        exact hresult (h.reports (by simpa using hc))
      · rintro ⟨h, hlow⟩
        refine ⟨h, fun a ha => hlater.mem a (h a ha), fun hc => ?_⟩
        rw [hlow] at hc
        cases hc
    · intro t i u _ ht hu
      obtain rfl := Option.some.inj hu
      exact loadSegment_clear halign hpos ht
    · intro t i u _ hu h
      obtain rfl := Option.some.inj hu
      have hturn : Later t.space (loadSegment file laddr (file + phoff s.mem file) t i).space :=
        loadSegment_later t i
      refine ⟨fun a ha => ?_, ?_⟩
      · by_contra hc
        have htouched := hturn.touched a (by simpa using hc)
        rw [h.1 a ha] at htouched
        cases htouched
      · by_contra hc
        have hlow := @loadSegment_low file laddr (file + phoff s.mem file) t i (by simpa using hc)
        rw [h.2] at hlow
        cases hlow

/-- A file with one segment, of four bytes, that starts at `vaddr`. -/
def sampleFile (vaddr : List UInt8) : List UInt8 :=
  [0x7f, 0x45, 0x4c, 0x46] ++ List.replicate 24 0 ++ [52, 0, 0, 0] ++ List.replicate 12 0 ++ [2] ++
    List.replicate 7 0 ++ List.replicate 32 0 ++ List.replicate 8 0 ++ vaddr ++ List.replicate 8 0 ++
    [4, 0, 0, 0]

/-- The kernel ends at 0x400000, and the file lies at 0x200000. -/
def sampleSpace (vaddr : List UInt8) : Space :=
  { mem := fun a => if a < 0x200000 then 1 else (sampleFile vaddr).getD (a - 0x200000) 1
    frames := fun page => page < 0x400
    fresh := fun _ => 0
    free := 16
    brk := 0
    touched := fun _ => false }

theorem progLoad_safe_sample : KernelSafe (sampleSpace [0, 0, 0x50, 0]) 0x200000 0x400000 := by
  refine (progLoad_safe_iff (by decide) (by decide)).mpr (Or.inr ?_)
  have hsegments : segments (sampleSpace [0, 0, 0x50, 0]).mem 0x200000 = [1] := by decide
  rw [hsegments]
  refine ⟨Or.inr ⟨by decide, Or.inr (Or.inl (by decide))⟩, fun _ _ => trivial⟩

/-- The segment starts in the kernel: its bytes are overwritten, and no failure is reported. -/
theorem progLoad_overwrites :
    (progLoad (sampleSpace [0, 0, 0x30, 0]) 0x200000 0x400000).2 = .entry 0 ∧
      (progLoad (sampleSpace [0, 0, 0x30, 0]) 0x200000 0x400000).1.space.mem 0x300000 ≠
        (sampleSpace [0, 0, 0x30, 0]).mem 0x300000 ∧
      ¬ KernelSafe (sampleSpace [0, 0, 0x30, 0]) 0x200000 0x400000 := by
  have hmem : (progLoad (sampleSpace [0, 0, 0x30, 0]) 0x200000 0x400000).1.space.mem 0x300000 ≠
      (sampleSpace [0, 0, 0x30, 0]).mem 0x300000 := by decide
  refine ⟨by decide, hmem, fun h => hmem (h.unchanged 0x300000 (by decide))⟩

end Eedox.Prog
