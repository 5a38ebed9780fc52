import Eedox.Llist
import Eedox.Library.MaximalRuns
import Eedox.Library.Words
import Mathlib.Data.Int.Init
import Mathlib.Data.UInt

namespace Eedox.ParseInput

open Llist Library.MaximalRuns Library.Assoc

/-- The characters by their addresses, the list elements, and the tokens. -/
structure Shell where
  mem : ℕ → UInt8
  eles : Elements
  tokens : LlistT

def intOfPtr (p : ℕ) : ℤ := Int.bmod p (2 ^ 32)

def ptrOfInt (value : ℤ) : ℕ := (value % 2 ^ 32).toNat

/-- A pending token ends at the index. -/
def closeToken (malloc : List ℕ → ℕ) (line i argPtr : ℕ) (s : Shell) : Option Shell :=
  if argPtr ≠ 0 then
    (llistBpush malloc s.eles s.tokens (intOfPtr argPtr)).map fun (eles, tokens) =>
      ⟨Function.update s.mem (line + i) 0, eles, tokens⟩
  else some s

def Separates (c : UInt8) : Prop := c = 32 ∨ c = 10 ∨ c = 0

instance (c : UInt8) : Decidable (Separates c) := inferInstanceAs (Decidable (_ ∨ _ ∨ _))

/-- The loop from the index `i` on. -/
def parseLoop (malloc : List ℕ → ℕ) (line : ℕ) : (fuel i argPtr : ℕ) → Shell → Option Shell
  | 0, _, _, _ => none
  | fuel + 1, i, argPtr, s =>
    if Separates (s.mem (line + i)) then
      (closeToken malloc line i argPtr s).bind fun s' =>
        if s.mem (line + i) = 0 then some s' else parseLoop malloc line fuel (i + 1) 0 s'
    else parseLoop malloc line fuel (i + 1) (if argPtr = 0 then line + i else argPtr) s

def parseInput (malloc : List ℕ → ℕ) (fuel line : ℕ) (mem : ℕ → UInt8) (eles : Elements) : Option Shell :=
  parseLoop malloc line fuel 0 0 ⟨mem, eles, llistCreate⟩

/-- The loop of `fmain` that fills `arglist`. -/
def popArgs : (argslen : ℕ) → Elements → LlistT → Option (List ℕ × Elements × LlistT)
  | 0, eles, tokens => some ([], eles, tokens)
  | argslen + 1, eles, tokens =>
    (llistFpop eles tokens).bind fun (eles, tokens, value) =>
      (popArgs argslen eles tokens).map fun (args, eles, tokens) => (ptrOfInt value :: args, eles, tokens)

variable {malloc : List ℕ → ℕ} {line i turns fuel : ℕ} {pending : Option ℕ} {s : Shell} {sep : ℕ → Bool}
  {items : List (ℕ × ℤ)} {eles : Elements} {tokens : LlistT}

theorem ptrOfInt_intOfPtr {p : ℕ} (h : p < 2 ^ 32) : ptrOfInt (intOfPtr p) = p := Library.Words.word_bmod h

def ptrOf (line : ℕ) : (pending : Option ℕ) → ℕ
  | none => 0
  | some start => line + start

/-- The characters after a terminator has been written behind each of the runs. -/
def terminated (mem : ℕ → UInt8) (line : ℕ) (runs : List (ℕ × ℕ)) (a : ℕ) : UInt8 :=
  if a ∈ runs.map (fun r => line + r.2) then 0 else mem a

theorem terminated_cons (mem : ℕ → UInt8) (line : ℕ) (r : ℕ × ℕ) (runs : List (ℕ × ℕ)) :
    terminated mem line (r :: runs) = terminated (Function.update mem (line + r.2) 0) line runs := by
  funext a
  simp only [terminated, List.map_cons, List.mem_cons]
  by_cases hmem : a ∈ runs.map fun r => line + r.2
  · rw [if_pos (Or.inr hmem), if_pos hmem]
  · by_cases ha : a = line + r.2
    · rw [if_pos (Or.inl ha), if_neg hmem, ha, Function.update_self]
    · rw [if_neg (not_or.mpr ⟨ha, hmem⟩), if_neg hmem, Function.update_of_ne ha]

/-- What the loop leaves: the tokens of the runs behind those there already. -/
structure Parsed (line : ℕ) (s : Shell) (items : List (ℕ × ℤ)) (runs : List (ℕ × ℕ)) (s' : Shell) : Prop where
  mem : s'.mem = terminated s.mem line runs
  holds : ∃ items', Holds s'.eles s'.tokens (items ++ items') ∧
    (items'.map Prod.snd = runs.map fun r => intOfPtr (line + r.1)) ∧ ∀ k ∈ keys items', k ∉ keys s.eles
  frame : ∀ k, k ∉ keys items → k ∈ keys s.eles → entries s'.eles k = entries s.eles k

theorem parsed_nil (h : Holds s.eles s.tokens items) : Parsed line s items [] s where
  mem := rfl
  holds := ⟨[], by rwa [List.append_nil], rfl, fun k hk => absurd hk List.not_mem_nil⟩
  frame _ _ _ := rfl

theorem mem_keys_of_entries {eles eles' : Elements} {k : ℕ} (h : entries eles' k = entries eles k)
    (hk : k ∈ keys eles) :
    k ∈ keys eles' := by
  by_contra hnone
  rw [← entries_eq_none, h, entries_eq_none] at hnone
  exact hnone hk

/-- A token is closed, and the loop goes on with the rest. -/
theorem closeToken_parsed (hfresh : Fresh malloc) (hline : 0 < line) (h : Holds s.eles s.tokens items) (start : ℕ) :
    ∃ s', closeToken malloc line i (line + start) s = some s' ∧ s'.mem = Function.update s.mem (line + i) 0 ∧
      ∃ items', Holds s'.eles s'.tokens items' ∧ ∀ runs s'', Parsed line s' items' runs s'' →
        Parsed line s items ((start, i) :: runs) s'' := by
  obtain ⟨eles, tokens, hpush, hholds, hframe⟩ := @holds_bpush _ _ _ _ (intOfPtr (line + start)) hfresh h
  refine ⟨⟨Function.update s.mem (line + i) 0, eles, tokens⟩, by rw [closeToken, if_pos (by omega), hpush]; rfl, rfl, _,
    hholds, fun runs s'' hparsed => ⟨?_, ?_, fun k hk hk' => ?_⟩⟩
  · rw [hparsed.mem, terminated_cons]
  · obtain ⟨items', hitems, hvalues, hnew⟩ := hparsed.holds
    rw [List.append_assoc] at hitems
    refine ⟨_, hitems, ?_, fun k hk hold => ?_⟩
    · rw [List.map_append, hvalues, List.map_cons, List.map_nil, List.map_cons, List.singleton_append]
    rw [List.singleton_append, keys_cons, List.mem_cons] at hk
    rcases hk with rfl | hk
    · exact (hfresh _).1 hold
    · refine hnew k hk ?_
      by_cases hlisted : k ∈ keys items
      · exact hholds.live (by rw [keys_append]; exact List.mem_append_left _ hlisted)
      · exact mem_keys_of_entries (hframe k hlisted hold) hold
  · have hkept := hframe k hk hk'
    rw [hparsed.frame k ?_ (mem_keys_of_entries hkept hk'), hkept]
    rw [keys_append, List.mem_append, not_or]
    refine ⟨hk, fun hnew => ?_⟩
    rw [List.mem_singleton.mp hnew] at hk'
    exact (hfresh _).1 hk'

/-- The loop from `i` on, when the first NUL is the last of the positions that are left. -/
theorem parseLoop_parsed (hfresh : Fresh malloc) (hline : 0 < line) (hfuel : turns ≤ fuel) (hturns : turns ≠ 0)
    (hsep : ∀ k, i ≤ k → sep k = decide (Separates (s.mem (line + k))))
    (hnul : ∀ k, i ≤ k → k < i + turns → (s.mem (line + k) = 0 ↔ k + 1 = i + turns))
    (h : Holds s.eles s.tokens items) : ∃ s', parseLoop malloc line fuel i (ptrOf line pending) s = some s' ∧
      Parsed line s items (scan sep turns i pending) s' := by
  induction turns generalizing i pending s items fuel with
  | zero => exact absurd rfl hturns
  | succ turns ih =>
    cases fuel with
    | zero => omega
    | succ fuel =>
      have hi := hsep i le_rfl
      have hzero := hnul i le_rfl (by omega)
      have hafter (hc : s.mem (line + i) ≠ 0) : turns ≠ 0 := fun hnone => hc (hzero.mpr (by omega))
      rw [parseLoop]
      by_cases hs : Separates (s.mem (line + i))
      · have hi : sep i = true := by rw [hi, decide_eq_true hs]
        rw [if_pos hs]
        cases pending with
        | none =>
          rw [ptrOf, closeToken, if_neg (not_not_intro rfl), Option.bind_some, scan, if_pos hi]
          by_cases hc : s.mem (line + i) = 0
          · obtain rfl : turns = 0 := by have := hzero.mp hc; omega
            exact ⟨s, if_pos hc, parsed_nil h⟩
          · rw [if_neg hc]
            exact @ih (i + 1) fuel none s items (by omega) (hafter hc) (fun k hk => hsep k (by omega))
              (fun k hk hk' => (hnul k (by omega) (by omega)).trans (by omega)) h
        | some start =>
          obtain ⟨s1, hclose, hmem, items1, h1, hcons⟩ := @closeToken_parsed _ _ i _ _ hfresh hline h start
          have hlater (k : ℕ) (hk : i + 1 ≤ k) : s1.mem (line + k) = s.mem (line + k) := by
            rw [hmem, Function.update_of_ne (by omega)]
          rw [ptrOf, hclose, Option.bind_some, scan, if_pos hi]
          by_cases hc : s.mem (line + i) = 0
          · obtain rfl : turns = 0 := by have := hzero.mp hc; omega
            exact ⟨s1, if_pos hc, hcons _ _ (parsed_nil h1)⟩
          · rw [if_neg hc]
            obtain ⟨s', hloop, hparsed⟩ := @ih (i + 1) fuel none s1 items1 (by omega) (hafter hc)
              (fun k hk => by rw [hlater k hk]; exact hsep k (by omega))
              (fun k hk hk' => by rw [hlater k hk]; exact (hnul k (by omega) (by omega)).trans (by omega)) h1
            exact ⟨s', hloop, hcons _ _ hparsed⟩
      · have hi : sep i = false := by rw [hi, decide_eq_false hs]
        have hc : s.mem (line + i) ≠ 0 := fun hc => hs (Or.inr (Or.inr hc))
        have hptr : (if ptrOf line pending = 0 then line + i else ptrOf line pending) =
            ptrOf line (some (pending.getD i)) := by
          cases pending with
          | none => rfl
          | some start => exact if_neg (by rw [ptrOf]; omega)
        have hscan : scan sep (turns + 1) i pending = scan sep turns (i + 1) (some (pending.getD i)) := by
          cases pending <;> rw [scan, hi] <;> rfl
        rw [if_neg hs, hptr, hscan]
        exact @ih (i + 1) fuel (some (pending.getD i)) s items (by omega) (hafter hc) (fun k hk => hsep k (by omega))
          (fun k hk hk' => (hnul k (by omega) (by omega)).trans (by omega)) h

/-- All values come out in order. -/
theorem popArgs_all (h : Holds eles tokens items) : ∃ eles' tokens',
    popArgs items.length eles tokens = some (items.map fun item => ptrOfInt item.2, eles', tokens') ∧
      Holds eles' tokens' [] ∧ ∀ k, k ∉ keys items → entries eles' k = entries eles k := by
  induction items generalizing eles tokens with
  | nil => exact ⟨eles, tokens, rfl, h, fun k _ => rfl⟩
  | cons item items ih =>
    obtain ⟨eles1, tokens1, hpop, h1, hframe1⟩ := holds_fpop h
    obtain ⟨eles2, tokens2, hrest, h2, hframe2⟩ := ih h1
    refine ⟨eles2, tokens2, ?_, h2, fun k hk => ?_⟩
    · rw [List.length_cons, popArgs, hpop, Option.bind_some]
      simp only [hrest, Option.map_some, List.map_cons]
    · have hk' := hk
      rw [keys_cons, List.mem_cons, not_or] at hk'
      rw [hframe2 k hk'.2, hframe1 k hk]

/-- The positions of the line that part its tokens. -/
def separators (mem : ℕ → UInt8) (line : ℕ) (k : ℕ) : Bool := decide (Separates (mem (line + k)))

/-- The string of `len` characters and a NUL at this address. -/
structure Terminated (mem : ℕ → UInt8) (line len : ℕ) : Prop where
  nonnull : 0 < line
  inside : line + len < 2 ^ 32
  nul : mem (line + len) = 0
  chars : ∀ k, k < len → mem (line + k) ≠ 0

/-- The tokens come out as the maximal runs in order, each with a NUL behind it, and nothing but the line and the
tokens' own elements changes. -/
theorem parseInput_tokens (mem : ℕ → UInt8) (eles : Elements) {len : ℕ} (hfresh : Fresh malloc)
    (hline : Terminated mem line len) (hfuel : len < fuel) : ∃ s runs eles' tokens',
      parseInput malloc fuel line mem eles = some s ∧
      Apart runs ∧ (∀ b e, (b, e) ∈ runs ↔ IsRun (separators mem line) len b e) ∧
      llistSize s.tokens = runs.length ∧
      popArgs (llistSize s.tokens).toNat s.eles s.tokens = some (runs.map fun r => line + r.1, eles', tokens') ∧
      (∀ r ∈ runs, (∀ k, r.1 ≤ k → k < r.2 → s.mem (line + k) = mem (line + k) ∧ mem (line + k) ≠ 0) ∧
        s.mem (line + r.2) = 0) ∧
      (∀ a, s.mem a ≠ mem a → line ≤ a ∧ a ≤ line + len) ∧
      ∀ k ∈ keys eles, entries eles' k = entries eles k := by
  obtain ⟨s, hparse, hparsed⟩ := @parseLoop_parsed malloc line 0 (len + 1) fuel none ⟨mem, eles, llistCreate⟩
    (separators mem line) [] hfresh hline.nonnull hfuel (Nat.succ_ne_zero len) (fun k _ => rfl)
    (fun k _ hk => ⟨fun hnul => by
      by_contra hne
      exact hline.chars k (by omega) hnul, fun hlast => by
      rw [show k = len by omega]
      exact hline.nul⟩) (holds_create eles)
  generalize hruns : scan (separators mem line) (len + 1) 0 none = runs at hparsed
  have hlast : separators mem line len = true := decide_eq_true (Or.inr (Or.inr hline.nul))
  have hmaximal (b e : ℕ) : (b, e) ∈ runs ↔ IsRun (separators mem line) len b e := by
    rw [← hruns, mem_scan pends_start, ← isRun_succ hlast, Nat.zero_add, Option.getD_none]
    exact ⟨fun hrun => ⟨hrun.1, hrun.2.1⟩, fun hrun => ⟨hrun.1, hrun.2, Nat.zero_le b⟩⟩
  have hends (a : ℕ) (ha : a ∈ runs.map fun r => line + r.2) : ∃ e, a = line + e ∧ e ≤ len ∧
      separators mem line e = true := by
    obtain ⟨⟨b, e⟩, hr, rfl⟩ := List.mem_map.mp ha
    have hrun := (hmaximal b e).mp hr
    refine ⟨e, rfl, hrun.le, ?_⟩
    rcases hrun.right with rfl | hsep
    · exact hlast
    · exact hsep
  obtain ⟨items, hholds, hvalues, hnew⟩ := hparsed.holds
  rw [List.nil_append] at hholds
  have hlength : items.length = runs.length := by
    rw [← List.length_map Prod.snd, hvalues, List.length_map]
  obtain ⟨eles', tokens', hpop, -, hframe⟩ := popArgs_all hholds
  have hargs : (items.map fun item => ptrOfInt item.2) = runs.map fun r => line + r.1 := by
    have hmap := congrArg (List.map ptrOfInt) hvalues
    rw [List.map_map, List.map_map] at hmap
    refine hmap.trans (List.map_congr_left fun r hr => ?_)
    rw [Function.comp_apply, ptrOfInt_intOfPtr]
    have hrun := (hmaximal r.1 r.2).mp hr
    have hin := hline.inside
    have hlt := hrun.lt
    have hle := hrun.le
    omega
  refine ⟨s, runs, eles', tokens', hparse, hruns ▸ scan_apart pends_start, hmaximal, ?_, ?_, ?_, ?_, ?_⟩
  · rw [llistSize, hholds.size, hlength]
  · rw [llistSize, hholds.size, Int.toNat_natCast, hpop, hargs]
  · intro r hr
    have hrun := (hmaximal r.1 r.2).mp hr
    refine ⟨fun k hk hk' => ?_, ?_⟩
    · have hplain := hrun.inside k hk hk'
      refine ⟨?_, fun hnul => ?_⟩
      · rw [hparsed.mem, terminated, if_neg]
        intro hmem
        obtain ⟨e, he, -, hsep⟩ := hends _ hmem
        rw [Nat.add_left_cancel he, hsep] at hplain
        cases hplain
      · exact of_decide_eq_false hplain (Or.inr (Or.inr hnul))
    · rw [hparsed.mem, terminated, if_pos (List.mem_map_of_mem hr)]
  · intro a ha
    rw [hparsed.mem, terminated] at ha
    split_ifs at ha with hmem
    · obtain ⟨e, rfl, hle, -⟩ := hends a hmem
      omega
    · exact absurd rfl ha
  · intro k hk
    have hkept := hparsed.frame k List.not_mem_nil hk
    rw [hframe k fun hlisted => hnew k hlisted hk, hkept]

/-- " ls  -l" with a newline. -/
def sampleLine (a : ℕ) : UInt8 := [32, 108, 115, 32, 32, 45, 108, 10].getD (a - 4096) 0

def nextAbove (live : List ℕ) : ℕ := live.foldr max 0 + 1

theorem fresh_nextAbove : Fresh nextAbove := by
  intro live
  have hle : ∀ k ∈ live, k ≤ live.foldr max 0 := by
    induction live with
    | nil =>
      intro k hk
      cases hk
    | cons a live ih =>
      rw [List.foldr_cons, List.forall_mem_cons]
      exact ⟨le_max_left _ _, fun k hk => (ih k hk).trans (le_max_right _ _)⟩
  exact ⟨fun hmem => absurd (hle _ hmem) (by rw [nextAbove]; omega), Nat.succ_ne_zero _⟩

theorem parseInput_tokens_sampleLine : ∃ s runs eles' tokens',
    parseInput nextAbove 9 4096 sampleLine [] = some s ∧
      Apart runs ∧ (∀ b e, (b, e) ∈ runs ↔ IsRun (separators sampleLine 4096) 8 b e) ∧
      llistSize s.tokens = runs.length ∧
      popArgs (llistSize s.tokens).toNat s.eles s.tokens = some (runs.map fun r => 4096 + r.1, eles', tokens') ∧
      (∀ r ∈ runs, (∀ k, r.1 ≤ k → k < r.2 → s.mem (4096 + k) = sampleLine (4096 + k) ∧ sampleLine (4096 + k) ≠ 0) ∧
        s.mem (4096 + r.2) = 0) ∧
      (∀ a, s.mem a ≠ sampleLine a → 4096 ≤ a ∧ a ≤ 4096 + 8) ∧
      ∀ k ∈ keys ([] : Elements), entries eles' k = entries [] k :=
  parseInput_tokens sampleLine [] fresh_nextAbove ⟨by decide, by decide, by decide, by decide⟩ (by decide)

end Eedox.ParseInput
