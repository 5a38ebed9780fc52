import Eedox.ProgKernel
import Mathlib.Data.Finset.Card
import Mathlib.Data.List.Range

namespace Eedox.Prog

open Library.Runs

abbrev progArr (s : Space) (file : ℕ) : ℕ := file + phoff s.mem file

/-- The program header of a file, as it stands before the file is loaded. -/
def header (s : Space) (file i : ℕ) : Phdr := phdr s.mem (progArr s file) i

/-- `p_filesz`, which the loader does not read. -/
def filesz (s : Space) (file i : ℕ) : ℕ := getWord s.mem (progArr s file + 32 * i + 16)

/-- The program headers whose segments are loaded. -/
def loaded (s : Space) (file : ℕ) : List ℕ :=
  (segments s.mem file).filter fun i => decide ((header s file i).vaddr ≠ 0)

/-- A file of `size` bytes in mapped memory, with its headers and the bytes of its segments. None of its
segments is loaded over it: those that start at or above `laddr` are not, for it lies below. -/
structure WellFormed (s : Space) (file size : ℕ) : Prop where
  elf : isElf s.mem file = true
  bounded : file + size < 2 ^ 32
  mapped : ∀ a, file ≤ a → a < file + size → s.frames (a / 0x1000) = true
  ehdr : 52 ≤ size
  table : phoff s.mem file + 32 * phnum s.mem file ≤ size
  inside : ∀ i ∈ loaded s file, (header s file i).offset + filesz s file i ≤ size
  ends : ∀ i ∈ loaded s file, (header s file i).vaddr + (header s file i).memsz ≤ 2 ^ 32
  apart : ∀ i ∈ loaded s file, (header s file i).vaddr + (header s file i).memsz ≤ file ∨
    file + size < (header s file i).vaddr

/-- A segment at or above `laddr` that meets no other one. -/
structure Suitable (s : Space) (file laddr i : ℕ) : Prop where
  mem : i ∈ loaded s file
  above : laddr ≤ (header s file i).vaddr
  sizes : filesz s file i ≤ (header s file i).memsz
  disjoint : ∀ j ∈ loaded s file, j ≠ i →
    (header s file i).vaddr + (header s file i).memsz ≤ (header s file j).vaddr ∨
      (header s file j).vaddr + (header s file j).memsz ≤ (header s file i).vaddr

/-- In a turn that gets to its copy, the bytes read are bytes of the file, and the bytes stored lie in
pages with a frame: elsewhere the kernel would stop with a page fault. -/
def CopiesWithin (file size laddr table : ℕ) (t : Loading) (i : ℕ) : Prop :=
  let seg := phdr t.space.mem table i
  let after := loadSegment file laddr table t i
  seg.vaddr = 0 ∨ after.hung = true ∨ ∀ k < seg.memsz,
    file ≤ (file + seg.offset + k) % 2 ^ 32 ∧ (file + seg.offset + k) % 2 ^ 32 < file + size ∧
      after.space.frames ((seg.vaddr + k) % 2 ^ 32 / 0x1000) = true

/-- The load ends, reads the file only, and leaves each suitable segment in mapped pages with its bytes
from the file and zeros behind them. -/
structure Realised (s : Space) (file size laddr : ℕ) : Prop where
  ended : (progLoad s file laddr).2 ≠ .endless
  within : Meets (step file laddr (progArr s file))
    (CopiesWithin file size laddr (progArr s file)) (startLoading s) (segments s.mem file)
  placed : ∀ i, Suitable s file laddr i → ∀ k < (header s file i).memsz,
    (progLoad s file laddr).1.space.frames (((header s file i).vaddr + k) / 0x1000) = true ∧
      (progLoad s file laddr).1.space.mem ((header s file i).vaddr + k) =
        if k < filesz s file i then s.mem (file + (header s file i).offset + k) else 0

/-- The pages that the mapping loop of a segment comes to. -/
def pages (seg : Phdr) : List ℕ := List.range' (seg.vaddr / 0x1000) (pageCount seg)

def lastPage (seg : Phdr) : ℕ := (seg.vaddr + seg.memsz - 1) / 0x1000

def stepped (s : Space) (file : ℕ) (is : List ℕ) : List ℕ := is.flatMap fun i => pages (header s file i)

def newPages (s : Space) (file : ℕ) (is : List ℕ) : Finset ℕ :=
  (stepped s file is).toFinset.filter fun q => s.frames q = false

/-- The file holds as many bytes of each segment as the memory, those past `p_filesz` are zeros, and the
page that a segment ends in is mapped when it is copied: the loop, which goes on by pages from the
segment's first byte, need not come to it. -/
structure Loadable (s : Space) (file size laddr : ℕ) : Prop where
  fits : ∀ i ∈ loaded s file, (header s file i).fits
  whole : ∀ i ∈ loaded s file, (header s file i).offset + (header s file i).memsz ≤ size
  reached : ∀ before i after, loaded s file = before ++ i :: after → (header s file i).memsz ≠ 0 →
    s.frames (lastPage (header s file i)) = true ∨
      lastPage (header s file i) ∈ stepped s file (before ++ [i])
  enough : (newPages s file (loaded s file)).card ≤ s.free
  blank : ∀ i, Suitable s file laddr i → ∀ k, filesz s file i ≤ k → k < (header s file i).memsz →
    s.mem (file + (header s file i).offset + k) = 0

section Copy

variable {s : Space} {start dest src n a : ℕ}

theorem mapAddress_mem (s : Space) (address : ℕ) (h : s.frames (a / 0x1000) = true) :
    (mapAddress s address).mem a = s.mem a := by
  by_cases hsame : s.frames (address / 0x1000) = true ∨ s.free = 0
  · rw [mapAddress_same hsame]
  · rw [not_or, Bool.not_eq_true] at hsame
    have hne : ¬ a / 0x1000 = address / 0x1000 := by
      intro heq
      rw [heq, hsame.1] at h
      cases h
    rw [mapAddress_new hsame.1 hsame.2]
    simp only [if_neg hne]

/-- A page that has a frame keeps its bytes. -/
theorem mapTurns_mem (h : s.frames (a / 0x1000) = true) : (mapTurns s start n).mem a = s.mem a := by
  induction n with
  | zero => rfl
  | succ n ih => rw [mapTurns, turns, mapAddress_mem _ _ (mapTurns_given.frames _ h), ih]

theorem storeByte_mem (s : Space) (address : ℕ) (value : UInt8) (a : ℕ) :
    (storeByte s address value).mem a = if a = address then value else s.mem a :=
  Function.update_apply s.mem address value a

theorem memcpyUp_mem (hdest : dest + n ≤ 2 ^ 32) (hsrc : src + n ≤ 2 ^ 32)
    (hapart : dest + n ≤ src ∨ src + n ≤ dest) : (memcpyUp s dest src n).mem a =
      if dest ≤ a ∧ a < dest + n then s.mem (src + (a - dest)) else s.mem a := by
  induction n generalizing a with
  | zero => rw [memcpyUp, if_neg (by omega)]
  | succ n ih =>
    have hread : (memcpyUp s dest src n).mem (src + n) = s.mem (src + n) := by
      rw [ih (by omega) (by omega) (by omega), if_neg (by omega)]
    rw [memcpyUp, Nat.mod_eq_of_lt (by omega), Nat.mod_eq_of_lt (by omega), storeByte_mem, hread]
    by_cases ha : a = dest + n
    · rw [if_pos ha, if_pos (by omega), ha, Nat.add_sub_cancel_left]
    · rw [if_neg ha, ih (by omega) (by omega) (by omega)]
      by_cases hin : dest ≤ a ∧ a < dest + n
      · rw [if_pos hin, if_pos (by omega)]
      · rw [if_neg hin, if_neg (by omega)]

theorem memcpyDown_mem (hdest : dest + n ≤ 2 ^ 32) (hsrc : src + n ≤ 2 ^ 32)
    (hapart : dest + n ≤ src ∨ src + n ≤ dest) : (memcpyDown s dest src n).mem a =
      if dest ≤ a ∧ a < dest + n then s.mem (src + (a - dest)) else s.mem a := by
  induction n generalizing s with
  | zero => rw [memcpyDown, if_neg (by omega)]
  | succ n ih =>
    rw [memcpyDown, Nat.mod_eq_of_lt (by omega), Nat.mod_eq_of_lt (by omega),
      ih (by omega) (by omega) (by omega), storeByte_mem, storeByte_mem]
    by_cases hin : dest ≤ a ∧ a < dest + n
    · rw [if_pos hin, if_neg (by omega), if_pos (by omega)]
    · by_cases ha : a = dest + n
      · rw [if_neg hin, if_pos ha, if_pos (by omega), ha, Nat.add_sub_cancel_left]
      · rw [if_neg hin, if_neg ha, if_neg (by omega)]

/-- A copy between places that do not meet. -/
theorem memcpy_mem (hdest : dest + n ≤ 2 ^ 32) (hsrc : src + n ≤ 2 ^ 32)
    (hapart : dest + n ≤ src ∨ src + n ≤ dest) : (memcpy s dest src n).mem a =
      if dest ≤ a ∧ a < dest + n then s.mem (src + (a - dest)) else s.mem a := by
  rw [memcpy]
  rcases Nat.eq_zero_or_pos n with rfl | hpos
  · rw [if_pos rfl, if_neg (by omega)]
  · rw [if_neg (by omega)]
    rcases hapart with hbelow | habove
    · rw [if_pos (by omega), memcpyUp_mem hdest hsrc (Or.inl hbelow)]
    · rw [if_neg (by omega), if_pos (by omega), memcpyDown_mem hdest hsrc (Or.inr habove)]

theorem getByte_congr {mem mem' : ℕ → UInt8} (ha : a < 2 ^ 32) (h : mem a = mem' a) :
    getByte mem a = getByte mem' a := by
  rw [getByte, getByte, Nat.mod_eq_of_lt ha, h]

theorem getWord_congr {mem mem' : ℕ → UInt8} (ha : a + 4 ≤ 2 ^ 32)
    (h : ∀ b, a ≤ b → b < a + 4 → mem b = mem' b) : getWord mem a = getWord mem' a := by
  rw [getWord, getWord, getHalf, getHalf, getHalf, getHalf,
    getByte_congr (by omega) (h a (by omega) (by omega)),
    getByte_congr (by omega) (h (a + 1) (by omega) (by omega)),
    getByte_congr (by omega) (h (a + 2) (by omega) (by omega)),
    getByte_congr (by omega) (h (a + 2 + 1) (by omega) (by omega))]

end Copy

section Turns

variable {s : Space} {file size laddr i : ℕ} {before : List ℕ} {t : Loading}

/-- What holds after the turns for these program headers when nothing has gone wrong. -/
structure Underway (s : Space) (file size laddr : ℕ) (before : List ℕ) (t : Loading) : Prop where
  hung : t.hung = false
  kept : ∀ a, file ≤ a → a < file + size → t.space.mem a = s.mem a
  frames : ∀ q, t.space.frames q = true ↔ s.frames q = true ∨ q ∈ stepped s file before
  free : t.space.free + (newPages s file before).card = s.free
  placed : ∀ i ∈ before, Suitable s file laddr i → ∀ k < (header s file i).memsz,
    t.space.frames (((header s file i).vaddr + k) / 0x1000) = true ∧
      t.space.mem ((header s file i).vaddr + k) = s.mem (file + (header s file i).offset + k)

/-- When a turn goes well. -/
structure Turn (s : Space) (file size : ℕ) (before : List ℕ) (i : ℕ) : Prop where
  fits : (header s file i).fits
  whole : (header s file i).offset + (header s file i).memsz ≤ size
  reached : (header s file i).memsz ≠ 0 → s.frames (lastPage (header s file i)) = true ∨
    lastPage (header s file i) ∈ stepped s file (before ++ [i])
  enough : (newPages s file (before ++ [i])).card ≤ s.free

theorem loaded_iff : i ∈ loaded s file ↔
    (1 ≤ i ∧ i < phnum s.mem file) ∧ (header s file i).vaddr ≠ 0 := by
  rw [loaded, List.mem_filter, decide_eq_true_eq, segments, List.mem_range'_1]
  omega

theorem phdr_kept (h : WellFormed s file size) (hkept : ∀ a, file ≤ a → a < file + size → t.space.mem a = s.mem a)
    (hi : i < phnum s.mem file) : phdr t.space.mem (progArr s file) i = header s file i := by
  have hbounded := h.bounded
  have htable := h.table
  have hword (k : ℕ) (hk : k ≤ 28) : getWord t.space.mem (progArr s file + 32 * i + k) =
      getWord s.mem (progArr s file + 32 * i + k) :=
    getWord_congr (by unfold progArr; omega) fun b hle hlt =>
      hkept b (by unfold progArr at hle; omega) (by unfold progArr at hlt; omega)
  rw [header, phdr, phdr, hword 4 (by omega), hword 8 (by omega), hword 20 (by omega)]

theorem stepped_snoc : stepped s file (before ++ [i]) = stepped s file before ++ pages (header s file i) := by
  rw [stepped, List.flatMap_append, List.flatMap_singleton, stepped]

theorem mem_pages {seg : Phdr} {q : ℕ} :
    q ∈ pages seg ↔ seg.vaddr / 0x1000 ≤ q ∧ q < seg.vaddr / 0x1000 + pageCount seg := by
  rw [pages, List.mem_range'_1]

/-- The frames that a turn takes, if it gets them all. -/
theorem newPages_snoc {u : Space} (hframes : ∀ q, u.frames q = true ↔ s.frames q = true ∨ q ∈ stepped s file before) :
    (newPages s file (before ++ [i])).card = (newPages s file before).card +
      unmapped u ((header s file i).vaddr / 0x1000) (pageCount (header s file i)) := by
  have hunion : newPages s file (before ++ [i]) = newPages s file before ∪
      ((pages (header s file i)).filter fun q => !u.frames q).toFinset := by
    ext q
    have hq := hframes q
    rw [newPages, newPages, stepped_snoc]
    simp only [Finset.mem_union, Finset.mem_filter, List.mem_toFinset, List.mem_append, List.mem_filter,
      Bool.not_eq_true']
    rw [← Bool.not_eq_true, ← Bool.not_eq_true, hq]
    tauto
  have hdisjoint : Disjoint (newPages s file before)
      ((pages (header s file i)).filter fun q => !u.frames q).toFinset := by
    rw [Finset.disjoint_left]
    intro q hq hnew
    rw [newPages, Finset.mem_filter, List.mem_toFinset] at hq
    rw [List.mem_toFinset, List.mem_filter, Bool.not_eq_true', ← Bool.not_eq_true, hframes q] at hnew
    exact hnew.2 (Or.inr hq.1)
  have hnodup : (pages (header s file i)).Nodup := List.nodup_range'
  rw [hunion, Finset.card_union_of_disjoint hdisjoint, List.toFinset_card_of_nodup (hnodup.filter _), unmapped,
    List.countP_eq_length_filter, pages]

/-- Only the page that a segment ends in may be missed by its loop. -/
theorem mem_pages_or_last {seg : Phdr} {k : ℕ} (hk : k < seg.memsz) :
    (seg.vaddr + k) / 0x1000 ∈ pages seg ∨ (seg.vaddr + k) / 0x1000 = lastPage seg := by
  rw [mem_pages, lastPage, pageCount]
  omega

theorem exists_of_mem_pages {seg : Phdr} {q : ℕ} (h : q ∈ pages seg) :
    ∃ k < seg.memsz, (seg.vaddr + k) / 0x1000 = q := by
  rw [mem_pages, pageCount] at h
  exact ⟨0x1000 * (q - seg.vaddr / 0x1000), by omega, by omega⟩

theorem count_pages {seg : Phdr} (h : seg.fits) : seg.vaddr / 0x1000 + pageCount seg ≤ 2 ^ 20 := by
  unfold Phdr.fits at h
  unfold pageCount
  omega

/-- A turn whose mapping loop ends. -/
theorem loadSegment_fits (h : WellFormed s file size) (hung : t.hung = false)
    (hkept : ∀ a, file ≤ a → a < file + size → t.space.mem a = s.mem a)
    (hi : i ∈ loaded s file) (hfits : (header s file i).fits) : ∃ brk low,
      brk = (if (header s file i).memsz = 0 then t.brk else raiseBrk t.brk (lastAddress (header s file i))) ∧
      loadSegment file laddr (progArr s file) t i =
        { space := memcpy { mapTurns t.space (header s file i).vaddr (pageCount (header s file i)) with brk := brk }
            (header s file i).vaddr (file + (header s file i).offset) (header s file i).memsz
          brk := brk
          hung := false
          low := low } := by
  obtain ⟨⟨-, hlt⟩, h0⟩ := loaded_iff.mp hi
  have hinside := h.inside i hi
  have hbounded := h.bounded
  have hphdr := phdr_kept h hkept hlt
  have hv : (header s file i).vaddr < 2 ^ 32 := getWord_lt _ _
  have hm : (header s file i).memsz < 2 ^ 32 := getWord_lt _ _
  have hmap := @mapSegment_fits (header s file i) t.space t.brk hv h0 hm hfits
  have hload := @loadSegment_ended file laddr (progArr s file) i t _ _ (by rwa [hphdr]) hung
    (by rwa [hphdr])
  rw [hphdr, Nat.mod_eq_of_lt (show file + (header s file i).offset < 2 ^ 32 by omega)] at hload
  exact ⟨_, _, rfl, hload⟩

/-- A turn whose mapping loop does not end. -/
theorem loadSegment_not_fits (h : WellFormed s file size) (hung : t.hung = false)
    (hkept : ∀ a, file ≤ a → a < file + size → t.space.mem a = s.mem a)
    (hi : i ∈ loaded s file) (hfits : ¬ (header s file i).fits) :
    (loadSegment file laddr (progArr s file) t i).hung = true := by
  obtain ⟨⟨-, hlt⟩, h0⟩ := loaded_iff.mp hi
  have hphdr := phdr_kept h hkept hlt
  have hv : (header s file i).vaddr < 2 ^ 32 := getWord_lt _ _
  have hmap := @mapSegment_endless (header s file i) t.space t.brk hv hfits (h.ends i hi)
  have hload := @loadSegment_endless file laddr (progArr s file) i t _ _ (by rwa [hphdr]) hung (by rwa [hphdr])
  rw [hload]

theorem turn_iff (h : WellFormed s file size) (hu : Underway s file size laddr before t)
    (hi : i ∈ loaded s file) : (loadSegment file laddr (progArr s file) t i).hung = false ∧
      CopiesWithin file size laddr (progArr s file) t i ↔ Turn s file size before i := by
  obtain ⟨⟨-, hlt⟩, h0⟩ := loaded_iff.mp hi
  have hinside := h.inside i hi
  have hends := h.ends i hi
  have hbounded := h.bounded
  have hfree := hu.free
  have hphdr := phdr_kept h hu.kept hlt
  by_cases hfits : (header s file i).fits
  · obtain ⟨brk, low, -, hload⟩ := @loadSegment_fits s file size laddr i t h hu.hung hu.kept hi hfits
    obtain ⟨-, hframes⟩ := @mapTurns_spec t.space (header s file i).vaddr _ (count_pages hfits)
    have hall := @mapTurns_all t.space (header s file i).vaddr _ (count_pages hfits)
    have hsnoc := @newPages_snoc s file i before t.space hu.frames
    have hafter : (loadSegment file laddr (progArr s file) t i).space.frames =
        (mapTurns t.space (header s file i).vaddr (pageCount (header s file i))).frames := by
      rw [hload]
      exact memcpy_copied.frames
    rw [CopiesWithin, hafter]
    simp only [hphdr]
    constructor
    · rintro ⟨hung, h0' | hhung | hcopy⟩
      · exact absurd h0' h0
      · rw [hung] at hhung
        cases hhung
      · have hmapped (k : ℕ) (hk : k < (header s file i).memsz) :
            (mapTurns t.space (header s file i).vaddr (pageCount (header s file i))).frames
              (((header s file i).vaddr + k) / 0x1000) = true := by
          have := (hcopy k hk).2.2
          rwa [Nat.mod_eq_of_lt (by omega)] at this
        refine ⟨hfits, ?_, fun hne => ?_, ?_⟩
        · by_contra hout
          have := (hcopy (size - (header s file i).offset) (by omega)).2.1
          omega
        · have hlast := hmapped ((header s file i).memsz - 1) (by omega)
          rw [← Nat.add_sub_assoc (by omega), hframes, hu.frames] at hlast
          rw [stepped_snoc, List.mem_append, mem_pages]
          rcases hlast with (hold | hbefore) | ⟨hle, hlt', -⟩
          · exact Or.inl hold
          · exact Or.inr (Or.inl hbefore)
          · exact Or.inr (Or.inr ⟨hle, hlt'⟩)
        · have hle := hall.mp fun q hle hlt' => by
            obtain ⟨k, hk, rfl⟩ := exists_of_mem_pages (mem_pages.mpr ⟨hle, hlt'⟩)
            exact hmapped k hk
          omega
    · intro hturn
      have hwhole := hturn.whole
      have henough := hturn.enough
      have hpages := hall.mpr (by omega)
      refine ⟨by rw [hload], Or.inr (Or.inr fun k hk => ⟨by omega, by omega, ?_⟩)⟩
      rw [Nat.mod_eq_of_lt (by omega)]
      rcases mem_pages_or_last hk with hin | hlast
      · rw [mem_pages] at hin
        exact hpages _ hin.1 hin.2
      · have hreached := hturn.reached (by omega)
        rw [stepped_snoc, List.mem_append] at hreached
        rw [hlast]
        rcases hreached with hold | hbefore | hin
        · exact (hframes _).mpr (Or.inl ((hu.frames _).mpr (Or.inl hold)))
        · exact (hframes _).mpr (Or.inl ((hu.frames _).mpr (Or.inr hbefore)))
        · rw [mem_pages] at hin
          exact hpages _ hin.1 hin.2
  · refine ⟨fun hgood => ?_, fun hturn => absurd hturn.fits hfits⟩
    rw [loadSegment_not_fits h hu.hung hu.kept hi hfits] at hgood
    exact absurd hgood.1 (by simp)

theorem turn_underway (h : WellFormed s file size) (hu : Underway s file size laddr before t)
    (hi : i ∈ loaded s file) (hnew : i ∉ before) (hturn : Turn s file size before i) :
    Underway s file size laddr (before ++ [i]) (loadSegment file laddr (progArr s file) t i) := by
  obtain ⟨⟨-, hlt⟩, h0⟩ := loaded_iff.mp hi
  have hends := h.ends i hi
  have hbounded := h.bounded
  have hapart := h.apart i hi
  have hwhole := hturn.whole
  have henough := hturn.enough
  have hfree := hu.free
  have hphdr := phdr_kept h hu.kept hlt
  obtain ⟨hung, hcopy⟩ := (turn_iff h hu hi).mpr hturn
  obtain ⟨brk, low, -, hload⟩ := @loadSegment_fits s file size laddr i t h hu.hung hu.kept hi hturn.fits
  obtain ⟨htaken, hframes⟩ := @mapTurns_spec t.space (header s file i).vaddr _ (count_pages hturn.fits)
  have hall := @mapTurns_all t.space (header s file i).vaddr _ (count_pages hturn.fits)
  have hsnoc := @newPages_snoc s file i before t.space hu.frames
  have hbytes (a : ℕ) : (loadSegment file laddr (progArr s file) t i).space.mem a =
      if (header s file i).vaddr ≤ a ∧ a < (header s file i).vaddr + (header s file i).memsz then
        (mapTurns t.space (header s file i).vaddr (pageCount (header s file i))).mem
          (file + (header s file i).offset + (a - (header s file i).vaddr))
      else (mapTurns t.space (header s file i).vaddr (pageCount (header s file i))).mem a := by
    rw [hload]
    exact memcpy_mem hends (by omega) (by omega)
  have hgiven : (loadSegment file laddr (progArr s file) t i).space.frames =
      (mapTurns t.space (header s file i).vaddr (pageCount (header s file i))).frames := by
    rw [hload]
    exact memcpy_copied.frames
  have hfile (a : ℕ) (hle : file ≤ a) (hlt : a < file + size) :
      (mapTurns t.space (header s file i).vaddr (pageCount (header s file i))).mem a = s.mem a := by
    rw [mapTurns_mem ((hu.frames _).mpr (Or.inl (h.mapped a hle hlt))), hu.kept a hle hlt]
  refine ⟨hung, fun a hle hlt => ?_, fun q => ?_, ?_, fun j hj hsuit k hk => ?_⟩
  · rw [hbytes, if_neg (by omega), hfile a hle hlt]
  · have hpages := hall.mpr (by omega)
    rw [hgiven, hframes, hu.frames, stepped_snoc, List.mem_append, mem_pages]
    constructor
    · rintro ((hold | hbefore) | ⟨hle, hlt', -⟩)
      · exact Or.inl hold
      · exact Or.inr (Or.inl hbefore)
      · exact Or.inr (Or.inr ⟨hle, hlt'⟩)
    · rintro (hold | hbefore | hin)
      · exact Or.inl (Or.inl hold)
      · exact Or.inl (Or.inr hbefore)
      · have := hpages q hin.1 hin.2
        rwa [hframes, hu.frames] at this
  · have hrest : (loadSegment file laddr (progArr s file) t i).space.free =
        (mapTurns t.space (header s file i).vaddr (pageCount (header s file i))).free := by
      rw [hload]
      exact memcpy_copied.free
    omega
  · rcases List.mem_append.mp hj with hj | hj
    · obtain ⟨hpage, hbyte⟩ := hu.placed j hj hsuit k hk
      have hdisjoint := hsuit.disjoint i hi fun heq => hnew (heq ▸ hj)
      rw [hgiven, hbytes, if_neg (by omega), mapTurns_mem hpage]
      exact ⟨mapTurns_given.frames _ hpage, hbyte⟩
    · obtain rfl := List.mem_singleton.mp hj
      rw [hbytes, if_pos (by omega), Nat.add_sub_cancel_left, hfile _ (by omega) (by omega)]
      rw [CopiesWithin, hphdr, hung] at hcopy
      have hpage := ((hcopy.resolve_left h0).resolve_left Bool.false_ne_true k hk).2.2
      rw [Nat.mod_eq_of_lt (by omega)] at hpage
      exact ⟨hpage, rfl⟩

theorem hung_kept {table : ℕ} (hung : t.hung = true) : (loadSegment file laddr table t i).hung = true := by
  rcases @loadSegment_cases file laddr table i t with ⟨heq, -⟩ | ⟨-, -, hcase⟩
  · rw [heq, hung]
  · rcases hcase with ⟨-, -, -, h⟩ | ⟨h, -⟩ | ⟨h, -⟩ | ⟨h, -⟩
    · exact h
    · rw [hung] at h
      cases h
    · rw [hung] at h
      cases h
    · rw [hung] at h
      cases h

theorem hung_of_hung {table : ℕ} (is : List ℕ) (hung : t.hung = true) :
    (is.foldl (loadSegment file laddr table) t).hung = true := by
  induction is generalizing t with
  | nil => exact hung
  | cons i is ih => exact ih (hung_kept hung)

/-- The turns for the program headers that are left. -/
theorem turns_iff (h : WellFormed s file size) {is : List ℕ} (hu : Underway s file size laddr before t)
    (hsub : ∀ i ∈ is, i ∈ segments s.mem file) (hnodup : (before ++ is).Nodup) :
    ((is.foldl (loadSegment file laddr (progArr s file)) t).hung = false ∧
      Meets (step file laddr (progArr s file)) (CopiesWithin file size laddr (progArr s file)) t is ↔
      ∀ b i a, is.filter (fun i => decide ((header s file i).vaddr ≠ 0)) = b ++ i :: a →
        Turn s file size (before ++ b) i) ∧
    ((is.foldl (loadSegment file laddr (progArr s file)) t).hung = false →
      Meets (step file laddr (progArr s file)) (CopiesWithin file size laddr (progArr s file)) t is →
      Underway s file size laddr (before ++ is.filter fun i => decide ((header s file i).vaddr ≠ 0))
        (is.foldl (loadSegment file laddr (progArr s file)) t)) := by
  induction is generalizing before t with
  | nil =>
    refine ⟨⟨fun _ b i a hsplit => ?_, fun _ => ⟨hu.hung, trivial⟩⟩, fun _ _ => ?_⟩
    · exact absurd hsplit.symm (List.append_ne_nil_of_right_ne_nil b (List.cons_ne_nil i a))
    · rwa [List.filter_nil, List.append_nil]
  | cons i is ih =>
    rw [List.forall_mem_cons] at hsub
    have hlt : i < phnum s.mem file := by
      have := hsub.1
      rw [segments, List.mem_range'_1] at this
      omega
    have hphdr := phdr_kept h hu.kept hlt
    rw [List.foldl_cons]
    by_cases h0 : (header s file i).vaddr = 0
    · have hskip := @loadSegment_skip file laddr (progArr s file) i t (by rwa [hphdr])
      have hwithin : CopiesWithin file size laddr (progArr s file) t i := Or.inl (by rwa [hphdr])
      have hmeets : Meets (step file laddr (progArr s file))
          (CopiesWithin file size laddr (progArr s file)) t (i :: is) ↔
          Meets (step file laddr (progArr s file))
            (CopiesWithin file size laddr (progArr s file)) t is :=
        ⟨fun hall => hall.2 t (congrArg some hskip), fun hrest => meets_cons hwithin (congrArg some hskip) hrest⟩
      rw [hskip, hmeets, List.filter_cons_of_neg (by simp [h0])]
      exact ih hu hsub.2 (hnodup.sublist ((List.sublist_cons_self i is).append_left before))
    · have hi : i ∈ loaded s file := List.mem_filter.mpr ⟨hsub.1, by simp [h0]⟩
      have hnew : i ∉ before := fun hmem => (List.nodup_append.mp hnodup).2.2 i hmem i List.mem_cons_self rfl
      have hturn := @turn_iff s file size laddr i before t h hu hi
      rw [List.filter_cons_of_pos (by simp [h0])]
      rw [← List.singleton_append, ← List.append_assoc] at hnodup
      by_cases hgood : Turn s file size before i
      · have hafter := turn_underway h hu hi hnew hgood
        obtain ⟨hung, hcopy⟩ := hturn.mpr hgood
        obtain ⟨hrest, hend⟩ := ih hafter hsub.2 hnodup
        have hmeets : Meets (step file laddr (progArr s file))
            (CopiesWithin file size laddr (progArr s file)) t (i :: is) ↔
            Meets (step file laddr (progArr s file))
              (CopiesWithin file size laddr (progArr s file))
              (loadSegment file laddr (progArr s file) t i) is :=
          ⟨fun hall => hall.2 _ rfl, fun hrest => meets_cons hcopy rfl hrest⟩
        rw [hmeets]
        refine ⟨hrest.trans ⟨fun hall b j a hsplit => ?_, fun hall b j a hsplit => ?_⟩, fun hung' hmeets' => ?_⟩
        · rcases List.cons_eq_append_iff.mp hsplit with ⟨rfl, heq⟩ | ⟨b', rfl, heq⟩
          · obtain ⟨rfl, -⟩ := List.cons.inj heq
            rwa [List.append_nil]
          · have := hall b' j a heq
            rwa [List.append_assoc, List.singleton_append] at this
        · have := hall (i :: b) j a (by rw [hsplit, List.cons_append])
          rwa [← List.singleton_append, ← List.append_assoc] at this
        · have := hend hung' hmeets'
          rwa [List.append_assoc, List.singleton_append] at this
      · have hbad : ¬ ((is.foldl (loadSegment file laddr (progArr s file))
            (loadSegment file laddr (progArr s file) t i)).hung = false ∧
            Meets (step file laddr (progArr s file))
              (CopiesWithin file size laddr (progArr s file)) t (i :: is)) := by
          rintro ⟨hung, hall⟩
          refine hgood (hturn.mp ⟨?_, hall.1⟩)
          by_contra hc
          rw [hung_of_hung is (by simpa using hc)] at hung
          cases hung
        refine ⟨⟨fun hall => absurd hall hbad, fun hall => ?_⟩, fun hung hall => absurd ⟨hung, hall⟩ hbad⟩
        have := hall [] i _ rfl
        rw [List.append_nil] at this
        exact absurd this hgood

theorem newPages_mono {is js : List ℕ} (h : is ⊆ js) : newPages s file is ⊆ newPages s file js := by
  refine Finset.filter_subset_filter _ fun q hq => ?_
  rw [List.mem_toFinset, stepped, List.mem_flatMap] at hq ⊢
  obtain ⟨i, hi, hq⟩ := hq
  exact ⟨i, h hi, hq⟩

theorem underway_start : Underway s file size laddr [] (startLoading s) := by
  refine ⟨rfl, fun _ _ _ => rfl, fun q => ?_, ?_, fun i hi => absurd hi List.not_mem_nil⟩
  · exact ⟨Or.inl, fun h => h.resolve_right List.not_mem_nil⟩
  · rw [show newPages s file [] = ∅ from rfl, Finset.card_empty, Nat.add_zero]
    rfl

theorem progLoad_elf (h : WellFormed s file size) :
    progLoad s file laddr = ((segments s.mem file).foldl
      (loadSegment file laddr (progArr s file)) (startLoading s),
      if ((segments s.mem file).foldl (loadSegment file laddr (progArr s file)) (startLoading s)).hung
      then .endless else .entry (getWord s.mem (file + 24))) := by
  simp only [progLoad, h.elf, if_true]

theorem not_hung (h : WellFormed s file size) (hended : (progLoad s file laddr).2 ≠ .endless) :
    ((segments s.mem file).foldl (loadSegment file laddr (progArr s file)) (startLoading s)).hung = false := by
  by_contra hc
  rw [progLoad_elf h, if_pos (by simpa using hc)] at hended
  exact hended rfl

/-- A well-formed file is realised in memory exactly if it is loadable. -/
theorem realised_iff (h : WellFormed s file size) :
    Realised s file size laddr ↔ Loadable s file size laddr := by
  have hload := @progLoad_elf s file size laddr h
  obtain ⟨hiff, hend⟩ := turns_iff h (@underway_start s file size laddr) (fun i hi => hi) List.nodup_range'
  rw [List.nil_append] at hend
  constructor
  · rintro ⟨hended, hwithin, hplaced⟩
    have hung := not_hung h hended
    have hturns := hiff.mp ⟨hung, hwithin⟩
    have hu := hend hung hwithin
    have hfree := hu.free
    rw [hload] at hplaced
    dsimp only at hplaced
    refine ⟨fun i hi => ?_, fun i hi => ?_, fun before i after hsplit => ?_, ?_, fun i hsuit k hle hlt => ?_⟩
    · obtain ⟨b, a, hsplit⟩ := List.append_of_mem hi
      exact (hturns b i a hsplit).fits
    · obtain ⟨b, a, hsplit⟩ := List.append_of_mem hi
      exact (hturns b i a hsplit).whole
    · exact (hturns before i after hsplit).reached
    · rw [loaded]
      omega
    · have hzero := (hplaced i hsuit k hlt).2
      rw [if_neg (by omega)] at hzero
      rw [← (hu.placed i hsuit.mem hsuit k hlt).2, hzero]
  · intro hloadable
    obtain ⟨hung, hwithin⟩ := hiff.mpr fun b i a hsplit => by
      have hsub : b ++ [i] ⊆ loaded s file := by
        have hparts : loaded s file = b ++ [i] ++ a := by
          rw [loaded, hsplit, List.append_assoc, List.singleton_append]
        rw [hparts]
        exact List.subset_append_left (b ++ [i]) a
      have hi : i ∈ loaded s file := hsub (List.mem_append_right b (List.mem_singleton_self i))
      exact ⟨hloadable.fits i hi, hloadable.whole i hi, hloadable.reached b i a hsplit,
        (Finset.card_le_card (newPages_mono hsub)).trans hloadable.enough⟩
    have hu := hend hung hwithin
    refine ⟨?_, hwithin, fun i hsuit k hk => ?_⟩
    · rw [hload, hung]
      exact Outcome.noConfusion
    · obtain ⟨hpage, hbyte⟩ := hu.placed i hsuit.mem hsuit k hk
      rw [hload, hbyte]
      refine ⟨hpage, ?_⟩
      split_ifs with hlt
      · rfl
      · exact hloadable.blank i hsuit k (by omega) hk

end Turns

/-- The sample file with the four bytes of its segment. -/
def wholeSpace : Space :=
  { sampleSpace [0, 0, 0x50, 0] with
    mem := Function.update (sampleSpace [0, 0, 0x50, 0]).mem 0x200064 4 }

theorem loaded_whole : loaded wholeSpace 0x200000 = [1] := by decide

theorem loaded_sample : loaded (sampleSpace [0, 0, 0x50, 0]) 0x200000 = [1] := by decide

theorem mapped_sample (a : ℕ) (h : a < 0x200000 + 116) : decide (a / 0x1000 < 0x400) = true := by
  rw [decide_eq_true_eq]
  omega

theorem wellFormed_whole : WellFormed wholeSpace 0x200000 116 := by
  refine ⟨by decide, by decide, fun a _ ha => mapped_sample a ha, by decide, by decide, ?_, ?_, ?_⟩
  all_goals
    rw [loaded_whole, List.forall_mem_singleton]
    decide

theorem realised_whole : Realised wholeSpace 0x200000 116 0x400000 := by
  refine (realised_iff wellFormed_whole).mpr ⟨?_, ?_, fun before i after hsplit _ => ?_, ?_,
    fun i hsuit k hle hlt => ?_⟩
  · rw [loaded_whole, List.forall_mem_singleton]
    decide
  · rw [loaded_whole, List.forall_mem_singleton]
    decide
  · rw [loaded_whole] at hsplit
    obtain ⟨rfl, hrest⟩ := (List.singleton_eq_append_iff.mp hsplit).resolve_right fun h => by simp at h
    obtain ⟨rfl, -⟩ := List.cons.inj hrest
    exact Or.inr (by decide)
  · rw [loaded_whole]
    decide
  · have hi := hsuit.mem
    rw [loaded_whole, List.mem_singleton] at hi
    subst hi
    have hsizes : filesz wholeSpace 0x200000 1 = (header wholeSpace 0x200000 1).memsz := by decide
    omega

/-- The four bytes of the sample segment are not in the file, and the start of the file is found there. -/
theorem garbage_in_bss : WellFormed (sampleSpace [0, 0, 0x50, 0]) 0x200000 116 ∧
    ¬ Realised (sampleSpace [0, 0, 0x50, 0]) 0x200000 116 0x400000 := by
  refine ⟨⟨by decide, by decide, fun a _ ha => mapped_sample a ha, by decide, by decide, ?_, ?_, ?_⟩,
    fun h => ?_⟩
  · rw [loaded_sample, List.forall_mem_singleton]
    decide
  · rw [loaded_sample, List.forall_mem_singleton]
    decide
  · rw [loaded_sample, List.forall_mem_singleton]
    decide
  · have hsuit : Suitable (sampleSpace [0, 0, 0x50, 0]) 0x200000 0x400000 1 := by
      refine ⟨by rw [loaded_sample]; exact List.mem_singleton_self 1, by decide, by decide, ?_⟩
      rw [loaded_sample, List.forall_mem_singleton]
      exact fun hne => absurd rfl hne
    have hzero := (h.placed 1 hsuit 0 (by decide)).2
    have hbyte : (progLoad (sampleSpace [0, 0, 0x50, 0]) 0x200000 0x400000).1.space.mem
        ((header (sampleSpace [0, 0, 0x50, 0]) 0x200000 1).vaddr + 0) = 0x7f := by decide
    have hfilesz : filesz (sampleSpace [0, 0, 0x50, 0]) 0x200000 1 = 0 := by decide
    rw [hbyte, hfilesz, if_neg (Nat.lt_irrefl 0)] at hzero
    exact absurd hzero (by decide)

end Eedox.Prog
