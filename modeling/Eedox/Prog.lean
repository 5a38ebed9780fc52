import Mathlib.Algebra.Group.Int.Defs
import Mathlib.Algebra.Group.Nat.Defs
import Mathlib.Logic.Function.Basic
import Mathlib.Data.List.Basic
import Mathlib.Data.List.Count
import Eedox.Library.Runs

namespace Eedox.Prog

/-- The memory the current task sees: `frames` tells which pages have a frame, `free` how many frames are
left, `fresh` what a page holds when it gets one. `touched` records what has been stored to or given
a frame. -/
structure Space where
  mem : ℕ → UInt8
  frames : ℕ → Bool
  fresh : ℕ → UInt8
  free : ℕ
  brk : ℕ
  touched : ℕ → Bool

def getByte (mem : ℕ → UInt8) (address : ℕ) : ℕ := (mem (address % 2 ^ 32)).toNat

def getHalf (mem : ℕ → UInt8) (address : ℕ) : ℕ :=
  getByte mem address + 2 ^ 8 * getByte mem (address + 1)

def getWord (mem : ℕ → UInt8) (address : ℕ) : ℕ :=
  getHalf mem address + 2 ^ 16 * getHalf mem (address + 2)

def storeByte (s : Space) (address : ℕ) (value : UInt8) : Space :=
  { s with
    mem := Function.update s.mem address value
    touched := Function.update s.touched address true }

/-- `get_page` and, when the page has no frame, `alloc_frame`. -/
def mapAddress (s : Space) (address : ℕ) : Space :=
  if s.frames (address / 0x1000) || s.free = 0 then s
  else
    { s with
      mem := fun a => if a / 0x1000 = address / 0x1000 then s.fresh a else s.mem a
      frames := Function.update s.frames (address / 0x1000) true
      free := s.free - 1
      touched := fun a => decide (a / 0x1000 = address / 0x1000) || s.touched a }

/-- A loop over a 32-bit counter that goes on by 0x1000. After `2 ^ 20` turns the counter is back where
it was: a loop that has not ended by then never ends. -/
def pageLoop {σ : Type} (cond : ℕ → Bool) (body : ℕ → σ → σ) : (fuel i : ℕ) → σ → σ × Bool
  | 0, _, s => (s, false)
  | fuel + 1, i, s =>
    if cond i then pageLoop cond body fuel ((i + 0x1000) % 2 ^ 32) (body i s) else (s, true)

/-- The first `n` turns of the loop of `memcpy` that goes up. -/
def memcpyUp (s : Space) (dest src : ℕ) : (n : ℕ) → Space
  | 0 => s
  | i + 1 =>
    let s := memcpyUp s dest src i
    storeByte s ((dest + i) % 2 ^ 32) (s.mem ((src + i) % 2 ^ 32))

/-- The last `n` turns of the loop that goes down. -/
def memcpyDown (s : Space) (dest src : ℕ) : (n : ℕ) → Space
  | 0 => s
  | i + 1 => memcpyDown (storeByte s ((dest + i) % 2 ^ 32) (s.mem ((src + i) % 2 ^ 32))) dest src i

def memcpy (s : Space) (dest src size : ℕ) : Space :=
  if size = 0 then s
  else if dest < src then memcpyUp s dest src size
  else if src < dest then memcpyDown s dest src size
  else s

structure Phdr where
  offset : ℕ
  vaddr : ℕ
  memsz : ℕ

def phdr (mem : ℕ → UInt8) (table i : ℕ) : Phdr :=
  { offset := getWord mem (table + 32 * i + 4)
    vaddr := getWord mem (table + 32 * i + 8)
    memsz := getWord mem (table + 32 * i + 20) }

/-- `hung` tells that the mapping loop of a segment does not end, `low` that some segment starts below
`laddr`. -/
structure Loading where
  space : Space
  brk : ℕ
  hung : Bool
  low : Bool

def raiseBrk (brk last : ℕ) : ℕ :=
  if brk < last then
    if last % 0x1000 ≠ 0 then (last / 0x1000 * 0x1000 + 0x1000) % 2 ^ 32 else last
  else brk

def lastAddress (seg : Phdr) : ℕ := (seg.vaddr + seg.memsz + (2 ^ 32 - 1)) % 2 ^ 32

/-- One turn of the loop over the program headers. What is below `laddr` only prints a message. -/
def loadSegment (file laddr table : ℕ) (s : Loading) (i : ℕ) : Loading :=
  let seg := phdr s.space.mem table i
  if seg.vaddr = 0 then s
  else
    let s := { s with low := s.low || decide (seg.vaddr < laddr) }
    if s.hung then s
    else
      let last := lastAddress seg
      let body (i : ℕ) (t : Space × ℕ) : Space × ℕ := (mapAddress t.1 i, raiseBrk t.2 last)
      match pageLoop (fun i => decide (i ≤ last)) body (2 ^ 20) seg.vaddr (s.space, s.brk) with
      | ((space, brk), true) =>
        { s with
          space := memcpy { space with brk := brk } seg.vaddr ((file + seg.offset) % 2 ^ 32) seg.memsz
          brk := brk }
      | ((space, brk), false) => { s with space := space, brk := brk, hung := true }

inductive Outcome where
  | endless
  | failure
  | entry (entry : ℕ)
  deriving DecidableEq

def isElf (mem : ℕ → UInt8) (file : ℕ) : Bool :=
  getByte mem file = 0x7f && getByte mem (file + 1) = 0x45 && getByte mem (file + 2) = 0x4c &&
    getByte mem (file + 3) = 0x46

def phoff (mem : ℕ → UInt8) (file : ℕ) : ℕ := getWord mem (file + 28)

def phnum (mem : ℕ → UInt8) (file : ℕ) : ℕ := getHalf mem (file + 44)

/-- The program headers the loader goes through: the first is left out. -/
def segments (mem : ℕ → UInt8) (file : ℕ) : List ℕ := List.range' 1 (phnum mem file - 1)

def startLoading (s : Space) : Loading :=
  { space := { s with touched := fun _ => false }, brk := 0, hung := false, low := false }

def progLoad (s : Space) (file laddr : ℕ) : Loading × Outcome :=
  if isElf s.mem file then
    let table := file + phoff s.mem file
    let r := (segments s.mem file).foldl (loadSegment file laddr table) (startLoading s)
    (r, if r.hung then .endless else .entry (getWord s.mem (file + 24)))
  else (startLoading s, .failure)

section Loop

variable {σ : Type} {cond : ℕ → Bool} {body : ℕ → σ → σ}

/-- The first `n` turns, had the loop that many. -/
def turns (body : ℕ → σ → σ) (i : ℕ) (s : σ) : (n : ℕ) → σ
  | 0 => s
  | n + 1 => body ((i + 0x1000 * n) % 2 ^ 32) (turns body i s n)

theorem pageLoop_ended {i k m fuel : ℕ} {s : σ} (hfuel : m < k + fuel) (hk : k ≤ m)
    (hturn : ∀ j < m, cond ((i + 0x1000 * j) % 2 ^ 32) = true)
    (hend : cond ((i + 0x1000 * m) % 2 ^ 32) = false) :
    pageLoop cond body fuel ((i + 0x1000 * k) % 2 ^ 32) (turns body i s k) = (turns body i s m, true) := by
  induction fuel generalizing k with
  | zero => omega
  | succ fuel ih =>
    rw [pageLoop]
    rcases Nat.eq_or_lt_of_le hk with rfl | hlt
    · rw [if_neg (by rw [hend]; exact Bool.false_ne_true)]
    · rw [if_pos (hturn k hlt)]
      have hnext : ((i + 0x1000 * k) % 2 ^ 32 + 0x1000) % 2 ^ 32 = (i + 0x1000 * (k + 1)) % 2 ^ 32 := by
        omega
      rw [hnext]
      exact ih (by omega) hlt

theorem pageLoop_endless {i k fuel : ℕ} {s : σ}
    (hturn : ∀ j < k + fuel, cond ((i + 0x1000 * j) % 2 ^ 32) = true) :
    pageLoop cond body fuel ((i + 0x1000 * k) % 2 ^ 32) (turns body i s k) =
      (turns body i s (k + fuel), false) := by
  induction fuel generalizing k with
  | zero => rfl
  | succ fuel ih =>
    have hnext : ((i + 0x1000 * k) % 2 ^ 32 + 0x1000) % 2 ^ 32 = (i + 0x1000 * (k + 1)) % 2 ^ 32 := by
      omega
    rw [pageLoop, if_pos (hturn k (by omega)), hnext]
    have hrest := @ih (k + 1) fun j hj => hturn j (by omega)
    rw [show k + 1 + fuel = k + (fuel + 1) by omega] at hrest
    exact hrest

theorem pageLoop_ends {i m fuel : ℕ} {s : σ} (hi : i < 2 ^ 32) (hfuel : m < fuel)
    (hturn : ∀ j < m, cond ((i + 0x1000 * j) % 2 ^ 32) = true)
    (hend : cond ((i + 0x1000 * m) % 2 ^ 32) = false) :
    pageLoop cond body fuel i s = (turns body i s m, true) := by
  have h := @pageLoop_ended σ cond body i 0 m fuel s (by omega) (Nat.zero_le _) hturn hend
  rw [Nat.mul_zero, Nat.add_zero, Nat.mod_eq_of_lt hi] at h
  exact h

theorem pageLoop_never_ends {i fuel : ℕ} {s : σ} (hi : i < 2 ^ 32)
    (hturn : ∀ j < fuel, cond ((i + 0x1000 * j) % 2 ^ 32) = true) :
    pageLoop cond body fuel i s = (turns body i s fuel, false) := by
  have h := @pageLoop_endless σ cond body i 0 fuel s fun j hj => hturn j (by omega)
  rw [Nat.mul_zero, Nat.add_zero, Nat.mod_eq_of_lt hi, Nat.zero_add] at h
  exact h

theorem turns_add {i m n : ℕ} {s : σ} :
    turns body i s (m + n) = turns body (i + 0x1000 * m) (turns body i s m) n := by
  induction n with
  | zero => rfl
  | succ n ih =>
    rw [← Nat.add_assoc, turns, turns, ih, show i + 0x1000 * (m + n) = i + 0x1000 * m + 0x1000 * n by omega]

theorem turns_mod {i n : ℕ} {s : σ} : turns body (i % 2 ^ 32) s n = turns body i s n := by
  induction n with
  | zero => rfl
  | succ n ih => rw [turns, turns, ih, show (i % 2 ^ 32 + 0x1000 * n) % 2 ^ 32 = (i + 0x1000 * n) % 2 ^ 32 by omega]

end Loop

section Mapping

variable {s : Space} {start n : ℕ}

/-- How many of the `n` pages from `page` on have no frame. -/
def unmapped (s : Space) (page n : ℕ) : ℕ := (List.range' page n).countP fun q => !s.frames q

theorem unmapped_succ (s : Space) (page n : ℕ) :
    unmapped s page (n + 1) = unmapped s page n + if s.frames (page + n) then 0 else 1 := by
  rw [unmapped, List.range'_concat, List.countP_append, Nat.one_mul]
  cases hf : s.frames (page + n) <;> simp [unmapped, hf]

theorem mapAddress_same {address : ℕ} (h : s.frames (address / 0x1000) = true ∨ s.free = 0) :
    mapAddress s address = s := by
  rw [mapAddress, if_pos]
  simpa using h

theorem mapAddress_new {address : ℕ} (hp : s.frames (address / 0x1000) = false) (hf : s.free ≠ 0) :
    mapAddress s address =
      { s with
        mem := fun a => if a / 0x1000 = address / 0x1000 then s.fresh a else s.mem a
        frames := Function.update s.frames (address / 0x1000) true
        free := s.free - 1
        touched := fun a => decide (a / 0x1000 = address / 0x1000) || s.touched a } := by
  rw [mapAddress, if_neg]
  simp [hp, hf]

theorem mapAddress_frames (s : Space) (address q : ℕ) : (mapAddress s address).frames q =
    (s.frames q || decide (q = address / 0x1000 ∧ s.free ≠ 0)) := by
  by_cases hf : s.free = 0
  · rw [mapAddress_same (Or.inr hf)]
    simp [hf]
  · cases hp : s.frames (address / 0x1000)
    · rw [mapAddress_new hp hf]
      by_cases hq : q = address / 0x1000 <;> simp [hq, hf]
    · rw [mapAddress_same (Or.inl hp)]
      by_cases hq : q = address / 0x1000 <;> simp [hq, hp]

theorem mapAddress_free (s : Space) (address : ℕ) : (mapAddress s address).free =
    s.free - if s.frames (address / 0x1000) then 0 else 1 := by
  by_cases hf : s.free = 0
  · rw [mapAddress_same (Or.inr hf), hf, Nat.zero_sub]
  · cases hp : s.frames (address / 0x1000)
    · rw [mapAddress_new hp hf]
      rfl
    · rw [mapAddress_same (Or.inl hp)]
      rfl

@[simp] theorem mapAddress_brk (s : Space) (address : ℕ) : (mapAddress s address).brk = s.brk := by
  unfold mapAddress
  split <;> rfl

/-- What is given a frame is touched, and nothing else is changed. -/
structure Given (s s' : Space) : Prop where
  frames : ∀ q, s.frames q = true → s'.frames q = true
  touched : ∀ a, s'.touched a = true ↔
    s.touched a = true ∨ s'.frames (a / 0x1000) = true ∧ s.frames (a / 0x1000) = false
  mem : ∀ a, s'.touched a = false → s'.mem a = s.mem a

theorem Given.refl (s : Space) : Given s s :=
  ⟨fun _ h => h, fun a => by cases s.frames (a / 0x1000) <;> simp, fun _ _ => rfl⟩

theorem Given.trans {t u : Space} (h : Given s t) (h' : Given t u) : Given s u := by
  refine ⟨fun q hq => h'.frames q (h.frames q hq), fun a => ?_, fun a ha => ?_⟩
  · rw [h'.touched, h.touched]
    have h1 := h.frames (a / 0x1000)
    have h2 := h'.frames (a / 0x1000)
    cases hs : s.frames (a / 0x1000) <;> cases ht : t.frames (a / 0x1000) <;>
      cases hu : u.frames (a / 0x1000) <;> simp_all
  · have hta : t.touched a = false := by
      by_contra hc
      have := (h'.touched a).mpr (Or.inl (by simpa using hc))
      rw [ha] at this
      cases this
    rw [h'.mem a ha, h.mem a hta]

theorem mapAddress_given (s : Space) (address : ℕ) : Given s (mapAddress s address) := by
  by_cases hsame : s.frames (address / 0x1000) = true ∨ s.free = 0
  · rw [mapAddress_same hsame]
    exact .refl s
  · rw [not_or, Bool.not_eq_true] at hsame
    rw [mapAddress_new hsame.1 hsame.2]
    refine ⟨fun q hq => ?_, fun a => ?_, fun a ha => ?_⟩
    · by_cases h : q = address / 0x1000 <;> simp [h, hq]
    · by_cases h : a / 0x1000 = address / 0x1000
      · simp [h, hsame.1]
      · simp only [Function.update_of_ne h, h, decide_false, Bool.false_or]
        exact ⟨Or.inl, fun hc => hc.elim id fun hc => absurd hc.1 (by simp [hc.2])⟩
    · simp only [Bool.or_eq_false_iff, decide_eq_false_iff_not] at ha
      simp only [ha.1, if_false]

abbrev mapTurns (s : Space) (start n : ℕ) : Space := turns (fun i s => mapAddress s i) start s n

theorem mapTurns_given : Given s (mapTurns s start n) := by
  induction n with
  | zero => exact .refl s
  | succ n ih => exact ih.trans (mapAddress_given _ _)

@[simp] theorem mapTurns_brk : (mapTurns s start n).brk = s.brk := by
  induction n with
  | zero => rfl
  | succ n ih => rw [mapTurns, turns, mapAddress_brk, ih]

/-- The pages get the frames there are, the lowest first. -/
theorem mapTurns_spec (hn : start / 0x1000 + n ≤ 2 ^ 20) :
    (mapTurns s start n).free = s.free - unmapped s (start / 0x1000) n ∧
      ∀ q, (mapTurns s start n).frames q = true ↔ s.frames q = true ∨
        (start / 0x1000 ≤ q ∧ q < start / 0x1000 + n ∧
          unmapped s (start / 0x1000) (q - start / 0x1000) < s.free) := by
  induction n with
  | zero => exact ⟨rfl, fun q => ⟨Or.inl, fun h => h.elim id fun hc => by omega⟩⟩
  | succ n ih =>
    obtain ⟨hfree, hframes⟩ := ih (by omega)
    have hpage : (start + 0x1000 * n) % 2 ^ 32 / 0x1000 = start / 0x1000 + n := by omega
    have hsame : (mapTurns s start n).frames (start / 0x1000 + n) = s.frames (start / 0x1000 + n) := by
      rw [Bool.eq_iff_iff, hframes]
      exact ⟨fun h => h.elim id fun hc => by omega, Or.inl⟩
    refine ⟨?_, fun q => ?_⟩
    · rw [mapTurns, turns, mapAddress_free, hpage, hsame, hfree, unmapped_succ]
      omega
    · rw [mapTurns, turns, mapAddress_frames, hpage, hfree, Bool.or_eq_true, hframes, decide_eq_true_eq]
      constructor
      · rintro ((h | h) | ⟨rfl, h⟩)
        · exact Or.inl h
        · exact Or.inr ⟨h.1, by omega, h.2.2⟩
        · rw [Nat.add_sub_cancel_left]
          exact Or.inr ⟨by omega, by omega, by omega⟩
      · rintro (h | ⟨h1, h2, h3⟩)
        · exact Or.inl (Or.inl h)
        · rcases Nat.lt_succ_iff_lt_or_eq.mp (show q < (start / 0x1000 + n).succ by omega) with hlt | rfl
          · exact Or.inl (Or.inr ⟨h1, hlt, h3⟩)
          · rw [Nat.add_sub_cancel_left] at h3
            exact Or.inr ⟨rfl, by omega⟩

theorem unmapped_le_iff {page free : ℕ} :
    (∀ q, page ≤ q → q < page + n → s.frames q = true ∨ unmapped s page (q - page) < free) ↔
      unmapped s page n ≤ free := by
  induction n with
  | zero => exact ⟨fun _ => Nat.zero_le _, fun _ q h1 h2 => by omega⟩
  | succ n ih =>
    rw [unmapped_succ]
    constructor
    · intro h
      have hn := ih.mp fun q h1 h2 => h q h1 (by omega)
      rcases h (page + n) (by omega) (by omega) with hf | hlt
      · rw [if_pos hf]
        exact hn
      · rw [Nat.add_sub_cancel_left] at hlt
        split_ifs <;> omega
    · intro h q h1 h2
      rcases Nat.lt_succ_iff_lt_or_eq.mp (show q < (page + n).succ by omega) with hlt | rfl
      · exact ih.mpr (by omega) q h1 hlt
      · rw [Nat.add_sub_cancel_left]
        by_cases hf : s.frames (page + n) = true
        · exact Or.inl hf
        · rw [if_neg hf] at h
          exact Or.inr (by omega)

/-- All the pages have frames in the end if there are enough. -/
theorem mapTurns_all (hn : start / 0x1000 + n ≤ 2 ^ 20) :
    (∀ q, start / 0x1000 ≤ q → q < start / 0x1000 + n → (mapTurns s start n).frames q = true) ↔
      unmapped s (start / 0x1000) n ≤ s.free := by
  rw [← unmapped_le_iff]
  obtain ⟨-, hframes⟩ := @mapTurns_spec s start n hn
  constructor
  · intro h q h1 h2
    exact ((hframes q).mp (h q h1 h2)).imp_right fun hc => hc.2.2
  · intro h q h1 h2
    exact (hframes q).mpr ((h q h1 h2).imp_right fun hc => ⟨h1, h2, hc⟩)

end Mapping

section Memcpy

variable {s : Space} {dest src n : ℕ}

/-- Only what is touched has changed. -/
structure Later (s s' : Space) : Prop where
  touched : ∀ a, s.touched a = true → s'.touched a = true
  mem : ∀ a, s'.touched a = false → s'.mem a = s.mem a

theorem Later.refl (s : Space) : Later s s := ⟨fun _ h => h, fun _ _ => rfl⟩

theorem Later.trans {t u : Space} (h : Later s t) (h' : Later t u) : Later s u := by
  refine ⟨fun a ha => h'.touched a (h.touched a ha), fun a ha => ?_⟩
  have hta : t.touched a = false := by
    by_contra hc
    rw [h'.touched a (by simpa using hc)] at ha
    cases ha
  rw [h'.mem a ha, h.mem a hta]

theorem Given.later {s' : Space} (h : Given s s') : Later s s' :=
  ⟨fun a ha => (h.touched a).mpr (Or.inl ha), h.mem⟩

theorem storeByte_later (s : Space) (address : ℕ) (value : UInt8) :
    Later s (storeByte s address value) := by
  refine ⟨fun a ha => ?_, fun a ha => ?_⟩
  · by_cases h : a = address
    · simp [storeByte, h]
    · simp [storeByte, h, ha]
  · by_cases h : a = address
    · simp [storeByte, h] at ha
    · simp [storeByte, h]

/-- What a copy does besides storing bytes: nothing. -/
structure Copied (s s' : Space) : Prop extends Later s s' where
  frames : s'.frames = s.frames
  free : s'.free = s.free
  brk : s'.brk = s.brk
  fresh : s'.fresh = s.fresh

theorem Copied.refl (s : Space) : Copied s s := ⟨.refl s, rfl, rfl, rfl, rfl⟩

theorem Copied.trans {t u : Space} (h : Copied s t) (h' : Copied t u) : Copied s u :=
  ⟨h.toLater.trans h'.toLater, h'.frames.trans h.frames, h'.free.trans h.free, h'.brk.trans h.brk,
    h'.fresh.trans h.fresh⟩

theorem storeByte_copied (s : Space) (address : ℕ) (value : UInt8) :
    Copied s (storeByte s address value) := ⟨storeByte_later s address value, rfl, rfl, rfl, rfl⟩

theorem memcpyUp_copied : Copied s (memcpyUp s dest src n) := by
  induction n with
  | zero => exact .refl s
  | succ n ih => exact ih.trans (storeByte_copied _ _ _)

theorem memcpyDown_copied : Copied s (memcpyDown s dest src n) := by
  induction n generalizing s with
  | zero => exact .refl s
  | succ n ih => exact (storeByte_copied _ _ _).trans ih

theorem memcpy_copied : Copied s (memcpy s dest src n) := by
  unfold memcpy
  split_ifs
  · exact .refl s
  · exact memcpyUp_copied
  · exact memcpyDown_copied
  · exact .refl s

theorem storeByte_touched (s : Space) (address : ℕ) (value : UInt8) (a : ℕ) :
    (storeByte s address value).touched a = true ↔ a = address ∨ s.touched a = true := by
  by_cases h : a = address <;> simp [storeByte, h]

theorem memcpyUp_touched {a : ℕ} : (memcpyUp s dest src n).touched a = true ↔
    s.touched a = true ∨ ∃ i < n, a = (dest + i) % 2 ^ 32 := by
  induction n with
  | zero => exact ⟨Or.inl, fun h => h.elim id fun ⟨i, hi, _⟩ => absurd hi (Nat.not_lt_zero i)⟩
  | succ n ih =>
    rw [memcpyUp, storeByte_touched, ih]
    constructor
    · rintro (rfl | h | ⟨i, hi, rfl⟩)
      · exact Or.inr ⟨n, by omega, rfl⟩
      · exact Or.inl h
      · exact Or.inr ⟨i, by omega, rfl⟩
    · rintro (h | ⟨i, hi, rfl⟩)
      · exact Or.inr (Or.inl h)
      · rcases Nat.lt_succ_iff_lt_or_eq.mp hi with hlt | rfl
        · exact Or.inr (Or.inr ⟨i, hlt, rfl⟩)
        · exact Or.inl rfl

theorem memcpyDown_touched {a : ℕ} : (memcpyDown s dest src n).touched a = true ↔
    s.touched a = true ∨ ∃ i < n, a = (dest + i) % 2 ^ 32 := by
  induction n generalizing s with
  | zero => exact ⟨Or.inl, fun h => h.elim id fun ⟨i, hi, _⟩ => absurd hi (Nat.not_lt_zero i)⟩
  | succ n ih =>
    rw [memcpyDown, ih, storeByte_touched]
    constructor
    · rintro ((rfl | h) | ⟨i, hi, rfl⟩)
      · exact Or.inr ⟨n, by omega, rfl⟩
      · exact Or.inl h
      · exact Or.inr ⟨i, by omega, rfl⟩
    · rintro (h | ⟨i, hi, rfl⟩)
      · exact Or.inl (Or.inr h)
      · rcases Nat.lt_succ_iff_lt_or_eq.mp hi with hlt | rfl
        · exact Or.inr ⟨i, hlt, rfl⟩
        · exact Or.inl (Or.inl rfl)

/-- A copy stores to all of its target, unless that is its source. -/
theorem memcpy_touched {a : ℕ} : (memcpy s dest src n).touched a = true ↔
    s.touched a = true ∨ dest ≠ src ∧ ∃ i < n, a = (dest + i) % 2 ^ 32 := by
  unfold memcpy
  split_ifs with h0 h1 h2
  · subst h0
    simp
  · rw [memcpyUp_touched]
    have : dest ≠ src := by omega
    simp [this]
  · rw [memcpyDown_touched]
    have : dest ≠ src := by omega
    simp [this]
  · have : dest = src := by omega
    simp [this]

end Memcpy

section Segment

theorem getByte_lt (mem : ℕ → UInt8) (a : ℕ) : getByte mem a < 2 ^ 8 := (mem (a % 2 ^ 32)).toNat_lt

theorem getHalf_lt (mem : ℕ → UInt8) (a : ℕ) : getHalf mem a < 2 ^ 16 := by
  have h1 := getByte_lt mem a
  have h2 := getByte_lt mem (a + 1)
  unfold getHalf
  omega

theorem getWord_lt (mem : ℕ → UInt8) (a : ℕ) : getWord mem a < 2 ^ 32 := by
  have h1 := getHalf_lt mem a
  have h2 := getHalf_lt mem (a + 2)
  unfold getWord
  omega

theorem raiseBrk_idem (brk last : ℕ) : raiseBrk (raiseBrk brk last) last = raiseBrk brk last := by
  unfold raiseBrk
  split_ifs <;> omega

/-- The break is raised in the first turn, if there is one. -/
theorem turns_pair (s : Space) (brk last start n : ℕ) :
    turns (fun i (t : Space × ℕ) => (mapAddress t.1 i, raiseBrk t.2 last)) start (s, brk) n =
      (mapTurns s start n, if n = 0 then brk else raiseBrk brk last) := by
  induction n with
  | zero => rfl
  | succ n ih =>
    rw [turns, ih, if_neg (Nat.succ_ne_zero n)]
    change (mapTurns s start (n + 1), raiseBrk (if n = 0 then brk else raiseBrk brk last) last) = _
    by_cases hn : n = 0
    · rw [if_pos hn]
    · rw [if_neg hn, raiseBrk_idem]

/-- The pages of a segment whose mapping loop ends. -/
def pageCount (seg : Phdr) : ℕ := (seg.memsz + 0xfff) / 0x1000

/-- A segment whose mapping loop ends before the counter wraps. -/
def Phdr.fits (seg : Phdr) : Prop := seg.vaddr + seg.memsz ≤ 0xfffff000 + seg.vaddr % 0x1000

instance (seg : Phdr) : Decidable seg.fits := inferInstanceAs (Decidable (_ ≤ _))

def mapSegment (seg : Phdr) (s : Space) (brk : ℕ) : (Space × ℕ) × Bool :=
  pageLoop (fun i => decide (i ≤ lastAddress seg))
    (fun i (t : Space × ℕ) => (mapAddress t.1 i, raiseBrk t.2 (lastAddress seg))) (2 ^ 20) seg.vaddr (s, brk)

variable {seg : Phdr} {s : Space} {brk : ℕ}

theorem mapSegment_fits (hv : seg.vaddr < 2 ^ 32) (hv0 : seg.vaddr ≠ 0) (hm : seg.memsz < 2 ^ 32)
    (h : seg.fits) : mapSegment seg s brk =
      ((mapTurns s seg.vaddr (pageCount seg),
        if seg.memsz = 0 then brk else raiseBrk brk (lastAddress seg)), true) := by
  unfold Phdr.fits at h
  have hlast : lastAddress seg = seg.vaddr + seg.memsz - 1 := by
    unfold lastAddress
    omega
  have hzero : pageCount seg = 0 ↔ seg.memsz = 0 := by
    unfold pageCount
    omega
  rw [mapSegment, pageLoop_ends (m := pageCount seg) hv, turns_pair]
  · simp only [hzero]
  · unfold pageCount
    omega
  · intro j hj
    unfold pageCount at hj
    rw [hlast, decide_eq_true_eq]
    omega
  · unfold pageCount
    rw [hlast, decide_eq_false_iff_not]
    omega

theorem mapSegment_wraps (hv : seg.vaddr < 2 ^ 32) (hm : seg.memsz < 2 ^ 32)
    (h : 2 ^ 32 < seg.vaddr + seg.memsz) : mapSegment seg s brk = ((s, brk), true) := by
  have hlast : lastAddress seg < seg.vaddr := by
    unfold lastAddress
    omega
  rw [mapSegment, pageLoop_ends (m := 0) hv (by decide)]
  · rfl
  · intro j hj
    omega
  · rw [decide_eq_false_iff_not]
    omega

theorem mapSegment_endless (hv : seg.vaddr < 2 ^ 32) (h : ¬ seg.fits)
    (hle : seg.vaddr + seg.memsz ≤ 2 ^ 32) : mapSegment seg s brk =
      ((mapTurns s seg.vaddr (2 ^ 20), raiseBrk brk (lastAddress seg)), false) := by
  unfold Phdr.fits at h
  have hlast : lastAddress seg = seg.vaddr + seg.memsz - 1 := by
    unfold lastAddress
    omega
  rw [mapSegment, pageLoop_never_ends hv, turns_pair, if_neg (by omega)]
  intro j hj
  rw [hlast, decide_eq_true_eq]
  omega

end Segment

section LoadSegment

variable {file laddr table i : ℕ} {s : Loading}

theorem loadSegment_skip (h : (phdr s.space.mem table i).vaddr = 0) :
    loadSegment file laddr table s i = s := by
  simp only [loadSegment, if_pos h]

theorem loadSegment_hung (h : (phdr s.space.mem table i).vaddr ≠ 0) (hung : s.hung = true) :
    loadSegment file laddr table s i =
      { s with low := s.low || decide ((phdr s.space.mem table i).vaddr < laddr) } := by
  simp only [loadSegment, if_neg h, if_pos hung]

theorem loadSegment_ended {space : Space} {brk : ℕ} (h : (phdr s.space.mem table i).vaddr ≠ 0)
    (hung : s.hung = false)
    (hmap : mapSegment (phdr s.space.mem table i) s.space s.brk = ((space, brk), true)) :
    loadSegment file laddr table s i =
      { space := memcpy { space with brk := brk } (phdr s.space.mem table i).vaddr
          ((file + (phdr s.space.mem table i).offset) % 2 ^ 32) (phdr s.space.mem table i).memsz
        brk := brk
        hung := false
        low := s.low || decide ((phdr s.space.mem table i).vaddr < laddr) } := by
  rw [mapSegment] at hmap
  simp only [loadSegment, if_neg h, hung, Bool.false_eq_true, if_false, hmap]

theorem loadSegment_endless {space : Space} {brk : ℕ} (h : (phdr s.space.mem table i).vaddr ≠ 0)
    (hung : s.hung = false)
    (hmap : mapSegment (phdr s.space.mem table i) s.space s.brk = ((space, brk), false)) :
    loadSegment file laddr table s i =
      { space := space
        brk := brk
        hung := true
        low := s.low || decide ((phdr s.space.mem table i).vaddr < laddr) } := by
  rw [mapSegment] at hmap
  simp only [loadSegment, if_neg h, hung, Bool.false_eq_true, if_false, hmap]

/-- What a turn of the loop over the program headers does. -/
theorem loadSegment_cases : loadSegment file laddr table s i = s ∧
      (phdr s.space.mem table i).vaddr = 0 ∨
    (phdr s.space.mem table i).vaddr ≠ 0 ∧
      (loadSegment file laddr table s i).low =
        (s.low || decide ((phdr s.space.mem table i).vaddr < laddr)) ∧
      (s.hung = true ∧ (loadSegment file laddr table s i).space = s.space ∧
          (loadSegment file laddr table s i).brk = s.brk ∧
          (loadSegment file laddr table s i).hung = true ∨
        s.hung = false ∧ (phdr s.space.mem table i).fits ∧
          (loadSegment file laddr table s i).hung = false ∧
          (loadSegment file laddr table s i).brk = (if (phdr s.space.mem table i).memsz = 0 then s.brk
            else raiseBrk s.brk (lastAddress (phdr s.space.mem table i))) ∧
          (loadSegment file laddr table s i).space =
            memcpy { mapTurns s.space (phdr s.space.mem table i).vaddr
                (pageCount (phdr s.space.mem table i)) with
                brk := (loadSegment file laddr table s i).brk } (phdr s.space.mem table i).vaddr
              ((file + (phdr s.space.mem table i).offset) % 2 ^ 32) (phdr s.space.mem table i).memsz ∨
        s.hung = false ∧ 2 ^ 32 < (phdr s.space.mem table i).vaddr + (phdr s.space.mem table i).memsz ∧
          (loadSegment file laddr table s i).hung = false ∧
          (loadSegment file laddr table s i).brk = s.brk ∧
          (loadSegment file laddr table s i).space =
            memcpy { s.space with brk := s.brk } (phdr s.space.mem table i).vaddr
              ((file + (phdr s.space.mem table i).offset) % 2 ^ 32) (phdr s.space.mem table i).memsz ∨
        s.hung = false ∧ ¬ (phdr s.space.mem table i).fits ∧
          (phdr s.space.mem table i).vaddr + (phdr s.space.mem table i).memsz ≤ 2 ^ 32 ∧
          (loadSegment file laddr table s i).hung = true ∧
          (loadSegment file laddr table s i).space =
            mapTurns s.space (phdr s.space.mem table i).vaddr (2 ^ 20)) := by
  have hv : (phdr s.space.mem table i).vaddr < 2 ^ 32 := getWord_lt _ _
  have hm : (phdr s.space.mem table i).memsz < 2 ^ 32 := getWord_lt _ _
  by_cases h0 : (phdr s.space.mem table i).vaddr = 0
  · exact Or.inl ⟨loadSegment_skip h0, h0⟩
  · refine Or.inr ⟨h0, ?_⟩
    cases hung : s.hung with
    | true =>
      rw [loadSegment_hung h0 hung]
      exact ⟨rfl, Or.inl ⟨rfl, rfl, rfl, hung⟩⟩
    | false =>
      by_cases hfits : (phdr s.space.mem table i).fits
      · rw [loadSegment_ended h0 hung (mapSegment_fits hv h0 hm hfits)]
        exact ⟨rfl, Or.inr (Or.inl ⟨rfl, hfits, rfl, rfl, rfl⟩)⟩
      · by_cases hwrap : 2 ^ 32 < (phdr s.space.mem table i).vaddr + (phdr s.space.mem table i).memsz
        · rw [loadSegment_ended h0 hung (mapSegment_wraps hv hm hwrap)]
          exact ⟨rfl, Or.inr (Or.inr (Or.inl ⟨rfl, hwrap, rfl, rfl, rfl⟩))⟩
        · have heq := @loadSegment_endless file laddr table i s _ _ h0 hung
            (mapSegment_endless hv hfits (by omega))
          refine ⟨congrArg Loading.low heq, Or.inr (Or.inr (Or.inr ⟨rfl, hfits, by omega, ?_, ?_⟩))⟩
          · rw [heq]
          · rw [heq]

end LoadSegment

end Eedox.Prog
