import Eedox.Printf
import Mathlib.Algebra.GroupWithZero.Nat

namespace Eedox.PrintfChunks

open Util Printf

/-- What a format consists of. -/
inductive Item
  | plain (c : UInt8) (h : c ≠ 37)
  | percent
  | unsigned
  | hex
  | string

def Item.render : Item → List UInt8
  | .plain c _ => [c]
  | .percent => [37, 37]
  | .unsigned => [37, 117]
  | .hex => [37, 120]
  | .string => [37, 115]

theorem Item.render_length_pos (item : Item) : 0 < item.render.length := by
  cases item <;> exact Nat.succ_pos _

/-- How many arguments it takes. -/
def Item.takes : Item → ℕ
  | .plain _ _ => 0
  | .percent => 0
  | .unsigned => 1
  | .hex => 1
  | .string => 1

/-- Its text, with the argument `a` for its own. -/
def Item.text (args : VaList) (a : ℕ) : Item → List UInt8
  | .plain c _ => [c]
  | .percent => [37]
  | .unsigned => args.unsigned a
  | .hex => args.hex a
  | .string => args.string a

def render (items : List Item) : List UInt8 := items.flatMap Item.render

def takes (items : List Item) : ℕ := (items.map Item.takes).sum

/-- The whole text, with each argument from `a` on used once and in order. -/
def expand (args : VaList) : (items : List Item) → (a : ℕ) → List UInt8
  | [], _ => []
  | item :: items, a => item.text args a ++ expand args items (a + item.takes)

variable {args : VaList} {items : List Item} {message rest : List UInt8} {i a : ℕ} {out : List UInt8}

@[simp] theorem render_nil : render [] = [] := rfl

@[simp] theorem render_cons (item : Item) (items : List Item) :
    render (item :: items) = item.render ++ render items := rfl

@[simp] theorem takes_nil : takes [] = 0 := rfl

@[simp] theorem takes_cons (item : Item) (items : List Item) : takes (item :: items) = item.takes + takes items := by
  rw [takes, List.map_cons, List.sum_cons, takes]

theorem length_decimals (fuel i : ℕ) : (decimals fuel i).length ≤ fuel := by
  induction fuel generalizing i with
  | zero => exact le_rfl
  | succ fuel ih =>
    rw [decimals]
    split_ifs
    · exact Nat.succ_le_succ (ih _)
    · exact Nat.zero_le _

theorem length_tostrU (i : ℕ) : (tostrU i).length ≤ 10 := by
  unfold tostrU
  split_ifs
  · decide
  · rw [List.length_reverse]
    exact length_decimals 10 i

theorem length_hexDigits (n h : ℕ) : (hexDigits n h).length = n := by
  induction n generalizing h with
  | zero => rfl
  | succ n ih => rw [hexDigits, List.length_append, ih, List.length_singleton]

theorem length_tostrX (h : ℕ) : (tostrX h).length = 10 := by
  rw [tostrX, List.length_append, length_hexDigits]
  rfl

/-- One turn of the loop on an item. -/
theorem printFrom_item (item : Item) (hlt : out.length < 512) : printFrom args (item.render ++ message) i a out =
    printFrom args message (i + item.render.length) (a + item.takes) (out ++ item.text args a) := by
  cases item with
  | plain c h =>
    cases message with
    | nil => simp [Item.render, printFrom, partialPrintBufferSize, hlt, h, Item.text]
    | cons ty message =>
      simp [Item.render, printFrom, partialPrintBufferSize, hlt, h, Item.takes, Item.text]
  | percent => simp [Item.render, printFrom, partialPrintBufferSize, hlt, Item.takes, Item.text]
  | unsigned => simp [Item.render, printFrom, partialPrintBufferSize, hlt, Item.takes, Item.text]
  | hex => simp [Item.render, printFrom, partialPrintBufferSize, hlt, Item.takes, Item.text]
  | string => simp [Item.render, printFrom, partialPrintBufferSize, hlt, Item.takes, Item.text]

theorem printFrom_full (hge : 512 ≤ out.length) : printFrom args message i a out = (some i, out) := by
  match message with
  | [] => rfl
  | [c] => rw [printFrom, if_neg (by rw [partialPrintBufferSize]; omega)]
  | c :: ty :: message => rw [printFrom, if_neg (by rw [partialPrintBufferSize]; omega)]

/-- A format starts with one item at most. -/
theorem render_inj {item item' : Item} {rest rest' : List UInt8} (h : item.render ++ rest = item'.render ++ rest') :
    item = item' ∧ rest = rest' := by
  cases item <;> cases item' <;> simp_all [Item.render]
  all_goals exact absurd h.1.symm ‹_›

/-- What is left of a format is nothing, starts with an item, or is not understood. -/
theorem render_cases (message : List UInt8) : message = [] ∨ (∃ item rest, message = Item.render item ++ rest) ∨
    (∀ item rest, message ≠ Item.render item ++ rest) ∧
      ∀ args i a out, out.length < 512 → printFrom args message i a out = (none, out) := by
  match message with
  | [] => exact Or.inl rfl
  | [c] =>
    by_cases hc : c = 37
    · refine Or.inr (Or.inr ⟨fun item rest h => ?_, fun args i a out hlt => ?_⟩)
      · cases item <;> simp_all [Item.render]
        exact absurd h.1.symm ‹_›
      · rw [printFrom, partialPrintBufferSize, if_pos hlt, if_pos hc]
    · exact Or.inr (Or.inl ⟨.plain c hc, [], rfl⟩)
  | c :: ty :: message =>
    by_cases hc : c = 37
    · subst hc
      by_cases h1 : ty = 37
      · exact Or.inr (Or.inl ⟨.percent, message, by rw [h1]; rfl⟩)
      by_cases h2 : ty = 117
      · exact Or.inr (Or.inl ⟨.unsigned, message, by rw [h2]; rfl⟩)
      by_cases h3 : ty = 120
      · exact Or.inr (Or.inl ⟨.hex, message, by rw [h3]; rfl⟩)
      by_cases h4 : ty = 115
      · exact Or.inr (Or.inl ⟨.string, message, by rw [h4]; rfl⟩)
      refine Or.inr (Or.inr ⟨fun item rest h => ?_, fun args i a out hlt => ?_⟩)
      · cases item <;> simp_all [Item.render]
        exact absurd h.1.symm ‹_›
      · rw [printFrom, partialPrintBufferSize, if_pos hlt, if_pos rfl, if_neg h1, if_neg h2, if_neg h3, if_neg h4]
    · exact Or.inr (Or.inl ⟨.plain c hc, ty :: message, rfl⟩)

/-- Each string for which there is a turn of the loop fits into what is then left of `local`: behind `n` bytes,
and those of the items in front of it. -/
def StringsFit (args : VaList) (message : List UInt8) (a n : ℕ) : Prop :=
  ∀ items rest, message = render items ++ (Item.string.render ++ rest) →
    n + (expand args items a).length < partialPrintBufferSize →
      n + (expand args items a).length + (args.string (a + takes items)).length < localSize

theorem stringsFit_nil {n : ℕ} : StringsFit args [] a n := by
  intro items rest h
  have hlen := congrArg List.length h
  simp [Item.render] at hlen

theorem stringsFit_item {item : Item} {n : ℕ} (hlt : n < 512) : StringsFit args (item.render ++ message) a n ↔
    (item = .string → n + (args.string a).length < 528) ∧
      StringsFit args message (a + item.takes) (n + (item.text args a).length) := by
  constructor
  · intro h
    refine ⟨fun hitem => ?_, fun items rest hm hn => ?_⟩
    · have := h [] message (by rw [hitem]; rfl) hlt
      simpa [expand, localSize, partialPrintBufferSize] using this
    · have := h (item :: items) rest (by rw [hm, render_cons, List.append_assoc])
        (by rw [expand, List.length_append]; omega)
      rw [expand, List.length_append, takes_cons, ← Nat.add_assoc a] at this
      omega
  · rintro ⟨hstring, hrest⟩ items rest hm hn
    cases items with
    | nil =>
      obtain ⟨rfl, -⟩ := render_inj hm
      simpa [expand, localSize, partialPrintBufferSize] using hstring rfl
    | cons it items =>
      rw [render_cons, List.append_assoc] at hm
      obtain ⟨rfl, htail⟩ := render_inj hm
      rw [expand, List.length_append] at hn ⊢
      have := hrest items rest htail (by omega)
      rw [takes_cons, ← Nat.add_assoc a]
      omega

theorem stringsFit_stuck {n : ℕ} (h : ∀ item rest, message ≠ Item.render item ++ rest) :
    StringsFit args message a n := by
  intro items rest hm
  cases items with
  | nil => exact absurd hm (h _ _)
  | cons it items =>
    rw [render_cons, List.append_assoc] at hm
    exact absurd hm (h _ _)

theorem length_text {item : Item} (hitem : item ≠ .string) : (item.text args a).length ≤ 10 := by
  cases item with
  | plain c h => exact (by decide : 1 ≤ 10)
  | percent => exact (by decide : 1 ≤ 10)
  | unsigned => exact length_tostrU _
  | hex => exact (length_tostrX _).le
  | string => exact absurd rfl hitem

/-- Only a string can go beyond the margin of `local`, for a turn of the loop starts below 512 bytes. -/
theorem printFrom_fits_iff (hout : out.length < 528) :
    (printFrom args message i a out).2.length < 528 ↔ StringsFit args message a out.length := by
  induction hn : message.length using Nat.strong_induction_on generalizing message i a out with
  | _ n ih =>
    subst hn
    by_cases hfull : 512 ≤ out.length
    · rw [printFrom_full hfull]
      exact ⟨fun _ items rest _ hlt => by rw [partialPrintBufferSize] at hlt; omega, fun _ => hout⟩
    have hlt : out.length < 512 := by omega
    rcases render_cases message with rfl | ⟨item, rest, rfl⟩ | ⟨hstuck, hprint⟩
    · exact ⟨fun _ => stringsFit_nil, fun _ => hout⟩
    · rw [printFrom_item item hlt, stringsFit_item hlt]
      have hshort : rest.length < (item.render ++ rest).length := by
        rw [List.length_append]
        cases item <;> simp [Item.render]
      have hlen : (out ++ item.text args a).length = out.length + (item.text args a).length := List.length_append
      by_cases hitem : item = .string
      · subst hitem
        by_cases hfits : out.length + (args.string a).length < 528
        · rw [ih _ hshort (by rw [hlen]; exact hfits) rfl, hlen]
          exact ⟨fun h => ⟨fun _ => hfits, h⟩, fun h => h.2⟩
        · rw [printFrom_full (by rw [hlen]; change 512 ≤ out.length + (args.string a).length; omega)]
          constructor
          · intro h
            rw [hlen] at h
            exact absurd h hfits
          · exact fun h => absurd (h.1 rfl) hfits
      · have htext := @length_text args a item hitem
        rw [ih _ hshort (by omega) rfl, hlen]
        exact ⟨fun h => ⟨fun hc => absurd hc hitem, h⟩, fun h => h.2⟩
    · rw [hprint args i a out hlt]
      exact ⟨fun _ => stringsFit_stuck hstuck, fun _ => hout⟩

/-- All bytes with their end lie inside `local` exactly when each string fits. -/
theorem partialPrint_fits_iff (args : VaList) (index : ℕ) (message : Str) :
    Fits (partialPrint args index message).2 ↔ StringsFit args (message.chars.drop index) 0 0 := by
  rw [Fits, partialPrint, localSize, partialPrintBufferSize]
  exact printFrom_fits_iff (by decide)

/-- A string that is as long as `local`, and a number. -/
def longArgs : VaList := ⟨fun a => if a = 0 then 0x1000 else 7, fun _ => ⟨List.replicate 528 97, fun h =>
  absurd (List.eq_of_mem_replicate h) (by decide)⟩⟩

def percentS : Str := ⟨[37, 115], by decide⟩

theorem string_overruns : ¬ Fits (partialPrint longArgs 0 percentS).2 := by decide +kernel

section chunks

variable {n : ℕ} {done : List Item} {str : Str}

theorem render_append (xs ys : List Item) : render (xs ++ ys) = render xs ++ render ys := List.flatMap_append

theorem expand_append (xs ys : List Item) (a : ℕ) :
    expand args (xs ++ ys) a = expand args xs a ++ expand args ys (a + takes xs) := by
  induction xs generalizing a with
  | nil => rfl
  | cons item xs ih => rw [List.cons_append, expand, ih, expand, takes_cons, List.append_assoc, Nat.add_assoc]

theorem length_le_render (items : List Item) : items.length ≤ (render items).length := by
  induction items with
  | nil => exact le_rfl
  | cons item items ih =>
    rw [List.length_cons, render_cons, List.length_append]
    have := item.render_length_pos
    omega

/-- How many items one call comes to, when `n` bytes are there already. -/
def covered (args : VaList) : (items : List Item) → (a n : ℕ) → ℕ
  | [], _, _ => 0
  | item :: items, a, n =>
    if n < partialPrintBufferSize then covered args items (a + item.takes) (n + (item.text args a).length) + 1 else 0

/-- The items of each call: each starts with the first argument again. -/
def chunksOf (args : VaList) : (fuel : ℕ) → List Item → List (List Item)
  | 0, _ => []
  | _, [] => []
  | fuel + 1, item :: items =>
    let k := covered args (item :: items) 0 0
    (item :: items).take k :: chunksOf args fuel ((item :: items).drop k)

def calls (args : VaList) (items : List Item) : List (List Item) := chunksOf args items.length items

/-- An item of a format, the argument that its call gives it, and its own. -/
structure Use where
  item : Item
  got : ℕ
  own : ℕ

def usesOf : (items : List Item) → (got own : ℕ) → List Use
  | [], _, _ => []
  | item :: items, got, own => ⟨item, got, own⟩ :: usesOf items (got + item.takes) (own + item.takes)

/-- The uses in the order of the output: a call's arguments start with the first one again. -/
def usesFrom : (chunks : List (List Item)) → (own : ℕ) → List Use
  | [], _ => []
  | chunk :: chunks, own => usesOf chunk 0 own ++ usesFrom chunks (own + takes chunk)

def uses (args : VaList) (items : List Item) : List Use := usesFrom (calls args items) 0

/-- Each item prints the same for the argument that its call gives it as for its own. -/
def Aligned (args : VaList) (us : List Use) : Prop := ∀ u ∈ us, u.item.text args u.got = u.item.text args u.own

/-- None prints more or less than for its own. -/
def SameLengths (args : VaList) (us : List Use) : Prop :=
  ∀ u ∈ us, (u.item.text args u.got).length = (u.item.text args u.own).length

theorem printFrom_render : printFrom args (render items) i a out =
    (some (i + (render (items.take (covered args items a out.length))).length),
      out ++ expand args (items.take (covered args items a out.length)) a) := by
  induction items generalizing i a out with
  | nil => simp [printFrom, expand]
  | cons item items ih =>
    by_cases hlt : out.length < 512
    · rw [render_cons, printFrom_item item hlt, ih, covered, partialPrintBufferSize, if_pos hlt, List.take_succ_cons,
        render_cons, expand, List.length_append, List.length_append, List.append_assoc, Nat.add_assoc]
    · rw [printFrom_full (by omega), covered, partialPrintBufferSize, if_neg hlt]
      simp [expand]

theorem covered_pos (item : Item) (items : List Item) : 0 < covered args (item :: items) 0 0 := by
  rw [covered, partialPrintBufferSize, if_pos (by decide)]
  exact Nat.succ_pos _

/-- The chunks are the texts of the calls' items, each with the arguments from the first one on. -/
theorem printChunks_eq {fuel steps : ℕ} (hstr : str.chars = render (done ++ items)) (hsteps : items.length ≤ steps)
    (hfuel : items.length < fuel) : printChunks args str fuel (render done).length =
      if ∀ chunk ∈ chunksOf args steps items, Fits (expand args chunk 0) then
        some ((chunksOf args steps items).map fun chunk => expand args chunk 0, true) else none := by
  induction fuel generalizing done items steps with
  | zero => omega
  | succ fuel ih =>
    rw [printChunks, hstr]
    cases items with
    | nil =>
      rw [List.append_nil, if_neg (Nat.lt_irrefl _)]
      cases steps <;> rfl
    | cons item items =>
      cases steps with
      | zero => simp at hsteps
      | succ steps =>
        have hpos := @covered_pos args item items
        generalize hk : covered args (item :: items) 0 0 = k at hpos
        have hlt : (render done).length < (render (done ++ item :: items)).length := by
          rw [render_append, List.length_append, render_cons, List.length_append]
          have := item.render_length_pos
          omega
        have hprint : partialPrint args (render done).length str =
            (some (render (done ++ (item :: items).take k)).length, expand args ((item :: items).take k) 0) := by
          rw [partialPrint, hstr, render_append, List.drop_left, printFrom_render, List.length_nil, hk, render_append,
            List.length_append, List.nil_append]
        have hdrop : ((item :: items).drop k).length < (item :: items).length := by
          rw [List.length_drop, List.length_cons]
          omega
        rw [List.length_cons] at hdrop hsteps hfuel
        have hrest := @ih ((item :: items).drop k) (done ++ (item :: items).take k) steps
          (by rw [hstr, List.append_assoc, List.take_append_drop]) (by omega) (by omega)
        rw [if_pos hlt, hprint]
        simp only [chunksOf, hk, List.map_cons, List.forall_mem_cons, hrest]
        by_cases hfit : Fits (expand args ((item :: items).take k) 0)
        · rw [if_pos hfit]
          by_cases hfits : ∀ chunk ∈ chunksOf args steps ((item :: items).drop k), Fits (expand args chunk 0)
          · rw [if_pos hfits, if_pos ⟨hfit, hfits⟩]
            rfl
          · rw [if_neg hfits, if_neg fun h => hfits h.2]
            rfl
        · rw [if_neg hfit, if_neg fun h => hfit h.1]

theorem flatten_chunksOf {steps : ℕ} (hsteps : items.length ≤ steps) : (chunksOf args steps items).flatten = items := by
  induction steps generalizing items with
  | zero =>
    obtain rfl := List.eq_nil_of_length_eq_zero (Nat.le_zero.mp hsteps)
    rfl
  | succ steps ih =>
    cases items with
    | nil => rfl
    | cons item items =>
      have hpos := @covered_pos args item items
      have hdrop : ((item :: items).drop (covered args (item :: items) 0 0)).length ≤ steps := by
        rw [List.length_drop]
        omega
      rw [chunksOf, List.flatten_cons, ih hdrop, List.take_append_drop]

theorem usesOf_text (items : List Item) (got own : ℕ) :
    (usesOf items got own).flatMap (fun u => u.item.text args u.got) = expand args items got ∧
      (usesOf items got own).flatMap (fun u => u.item.text args u.own) = expand args items own := by
  induction items generalizing got own with
  | nil => exact ⟨rfl, rfl⟩
  | cons item items ih => simp only [usesOf, List.flatMap_cons, ih, expand, and_self]

theorem usesFrom_text (chunks : List (List Item)) (own : ℕ) :
    (usesFrom chunks own).flatMap (fun u => u.item.text args u.got) =
    (chunks.map fun chunk => expand args chunk 0).flatten ∧
      (usesFrom chunks own).flatMap (fun u => u.item.text args u.own) = expand args chunks.flatten own := by
  induction chunks generalizing own with
  | nil => exact ⟨rfl, rfl⟩
  | cons chunk chunks ih =>
    simp only [usesFrom, List.flatMap_append, usesOf_text, ih, List.map_cons, List.flatten_cons,
      expand_append, and_self]

/-- Pieces that agree in their lengths are equal one by one when they are equal together. -/
theorem aligned_of_text {us : List Use} (hlen : SameLengths args us)
    (h : us.flatMap (fun u => u.item.text args u.got) = us.flatMap fun u => u.item.text args u.own) :
    Aligned args us := by
  induction us with
  | nil => exact fun u hu => absurd hu List.not_mem_nil
  | cons u us ih =>
    rw [SameLengths, List.forall_mem_cons] at hlen
    rw [List.flatMap_cons, List.flatMap_cons] at h
    obtain ⟨hfirst, hrest⟩ := List.append_inj h hlen.1
    exact List.forall_mem_cons.mpr ⟨hfirst, ih hlen.2 hrest⟩

theorem text_of_aligned {us : List Use} (h : Aligned args us) :
    us.flatMap (fun u => u.item.text args u.got) = us.flatMap fun u => u.item.text args u.own := by
  rw [List.flatMap_def, List.flatMap_def, List.map_congr_left h]

/-- What is printed when no chunk overruns `local`. -/
theorem printing_text {text : List UInt8} {count : ℤ} (hstr : str.chars = render items)
    (hprint : printing args str = some (text, count)) :
    text = (uses args items).flatMap (fun u => u.item.text args u.got) ∧ count = text.length := by
  have hlen : items.length < str.chars.length + 1 := by
    rw [hstr]
    exact Nat.lt_succ_of_le (length_le_render items)
  have hchunks := @printChunks_eq args items [] str _ items.length (by rw [hstr]; rfl) le_rfl hlen
  rw [render_nil, List.length_nil] at hchunks
  rw [printing, hchunks] at hprint
  split_ifs at hprint with hfits
  · rw [Option.map_some, Option.some.injEq, Prod.mk.injEq] at hprint
    obtain ⟨rfl, rfl⟩ := hprint
    exact ⟨((usesFrom_text (calls args items) 0).1).symm, by rw [if_pos rfl]⟩
  · cases hprint

theorem expand_uses : expand args items 0 = (uses args items).flatMap fun u => u.item.text args u.own := by
  rw [uses, (usesFrom_text _ 0).2, calls, flatten_chunksOf le_rfl]

/-- Each of the three prints the whole text with each argument used once when every item prints for the argument
that its call gives it what it prints for its own, and in no other way unless the lengths make up for it. -/
theorem printed_expanded_iff {text : List UInt8} {count : ℤ} (hstr : str.chars = render items)
    (hprint : kprintf str args = some (text, count) ∨ sprintf str args = some (text, count) ∨
      printf str args = some (text, count)) :
    count = text.length ∧ (Aligned args (uses args items) → text = expand args items 0) ∧
      (SameLengths args (uses args items) → text = expand args items 0 → Aligned args (uses args items)) := by
  have hprint : printing args str = some (text, count) := by
    rcases hprint with h | h | h <;> exact h
  obtain ⟨rfl, hcount⟩ := printing_text hstr hprint
  rw [expand_uses]
  exact ⟨hcount, text_of_aligned, aligned_of_text⟩

def sevens : VaList := ⟨fun _ => 7, fun _ => ⟨[], nul_nil⟩⟩

/-- "a%u". -/
def numbered : Str := ⟨[97, 37, 117], by decide⟩

theorem printed_expanded_numbered : (2 : ℤ) = [(97 : UInt8), 55].length ∧
    (Aligned sevens (uses sevens [.plain 97 (by decide), .unsigned]) →
      [97, 55] = expand sevens [.plain 97 (by decide), .unsigned] 0) ∧
    (SameLengths sevens (uses sevens [.plain 97 (by decide), .unsigned]) →
      [97, 55] = expand sevens [.plain 97 (by decide), .unsigned] 0 →
        Aligned sevens (uses sevens [.plain 97 (by decide), .unsigned])) :=
  @printed_expanded_iff sevens [.plain 97 (by decide), .unsigned] numbered [97, 55] 2 rfl (Or.inl (by decide))

/-- A string that fills one chunk, and a number. -/
def fullArgs : VaList := ⟨fun a => if a = 0 then 0x1000 else 7, fun _ => ⟨List.replicate 512 97, fun h =>
  absurd (List.eq_of_mem_replicate h) (by decide)⟩⟩

def percentSU : Str := ⟨[37, 115, 37, 117], by decide⟩

/-- The second call prints the string's address for the number. -/
theorem argument_restarted : percentSU.chars = render [.string, .unsigned] ∧
    kprintf percentSU fullArgs = some (List.replicate 512 97 ++ [52, 48, 57, 54], 516) ∧
    List.replicate 512 97 ++ [52, 48, 57, 54] ≠ expand fullArgs [.string, .unsigned] 0 := by decide +kernel

end chunks

end Eedox.PrintfChunks
