import Eedox.Library.MaximalRuns
import Mathlib.Data.List.Basic
import Mathlib.Data.List.TakeWhile
import Mathlib.Data.UInt

namespace Eedox.Services

open Library.MaximalRuns

def listMaxSize : ℕ := 512

/-- A call of `exec` in a new process. The process that has forked it stems from `generation` others whose own
call had failed. -/
structure Start where
  generation : ℕ
  path : List UInt8
  deriving DecidableEq

def Separates (c : UInt8) : Prop := c = 32 ∨ c = 10

instance (c : UInt8) : Decidable (Separates c) := inferInstanceAs (Decidable (_ ∨ _))

/-- The string at the index. -/
def stringAt (list : List UInt8) (p : ℕ) : List UInt8 := (list.drop p).takeWhile (· ≠ 0)

/-- The loop from the index `i` on. A child whose `exec` fails goes on with it as its parent does, in a copy of
`list`. -/
def serviceLoop (execs : List UInt8 → Bool) : (turns i generation : ℕ) → (list : List UInt8) → (ptr : Option ℕ) →
    List Start
  | 0, _, _, _, _ => []
  | turns + 1, i, generation, list, ptr =>
    if Separates (list.getD i 0) then
      match ptr with
      | none => serviceLoop execs turns (i + 1) generation list none
      | some p =>
        if p < i then
          let list := list.set i 0
          ⟨generation, stringAt list p⟩ ::
            ((if execs (stringAt list p) then [] else serviceLoop execs turns (i + 1) (generation + 1) list none) ++
              serviceLoop execs turns (i + 1) generation list none)
        else serviceLoop execs turns (i + 1) generation list ptr
    else
      match ptr with
      | none => serviceLoop execs turns (i + 1) generation list (some i)
      | some p => serviceLoop execs turns (i + 1) generation list (some p)

/-- The calls of `exec` by `init` and its children. No value when a byte is stored behind `list`, which holds
`junk` before. -/
def runServices (execs : List UInt8 → Bool) (junk content : List UInt8) : Option (List Start) :=
  let bytes := content.take listMaxSize
  if bytes.length < listMaxSize then
    some (serviceLoop execs bytes.length 0 0 (bytes ++ 0 :: junk.drop (bytes.length + 1)) none)
  else none

/-- What `init` does with the names that are left, and its children when theirs is not executable. -/
def starts (execs : List UInt8 → Bool) : (generation : ℕ) → (names : List (List UInt8)) → List Start
  | _, [] => []
  | generation, name :: names =>
    ⟨generation, name⟩ ::
      ((if execs name then [] else starts execs (generation + 1) names) ++ starts execs generation names)

/-- The characters of a run. -/
def name (content : List UInt8) (r : ℕ × ℕ) : List UInt8 := (content.take r.2).drop r.1

def separators (content : List UInt8) (k : ℕ) : Bool := decide (Separates (content.getD k 0))

variable {execs : List UInt8 → Bool} {turns i generation : ℕ} {list content : List UInt8} {pending : Option ℕ}

theorem takeWhile_terminated (before behind : List UInt8) :
    (before ++ 0 :: behind).takeWhile (· ≠ 0) = before.takeWhile (· ≠ 0) := by
  induction before with
  | nil => rfl
  | cons c before ih =>
    rw [List.cons_append, List.takeWhile_cons, List.takeWhile_cons, ih]

/-- A run ends at the NUL that has been put behind it, or at an earlier one. -/
theorem stringAt_set {p : ℕ} (hp : p ≤ i) (hi : i < list.length)
    (hsame : ∀ k, p ≤ k → k < i → list[k]? = content[k]?) :
    stringAt (list.set i 0) p = (name content (p, i)).takeWhile (· ≠ 0) := by
  have hcut : (list.take i).drop p = name content (p, i) := by
    apply List.ext_getElem?
    intro k
    rw [name, List.getElem?_drop, List.getElem?_drop, List.getElem?_take, List.getElem?_take]
    split_ifs with hk
    · exact hsame _ (Nat.le_add_right p k) hk
    · rfl
  rw [stringAt, List.set_eq_take_append_cons_drop, if_pos hi,
    List.drop_append_of_le_length (by rw [List.length_take]; omega), takeWhile_terminated, hcut]

/-- The loop starts the runs that a separator ends. -/
theorem serviceLoop_eq (hpends : Pends (separators content) i pending) (hlen : i + turns ≤ list.length)
    (hsame : ∀ k, pending.getD i ≤ k → k < i + turns → list[k]? = content[k]?) :
    serviceLoop execs turns i generation list pending =
      starts execs generation ((scan (separators content) turns i pending).map fun r =>
        (name content r).takeWhile (· ≠ 0)) := by
  induction turns generalizing i generation list pending with
  | zero => rfl
  | succ turns ih =>
    have hle : pending.getD i ≤ i := by
      cases pending with
      | none => exact le_rfl
      | some p => exact hpends.1.le
    have hi : list.getD i 0 = content.getD i 0 := by
      rw [List.getD_eq_getElem?_getD, hsame i hle (by omega), ← List.getD_eq_getElem?_getD]
    by_cases hsep : Separates (content.getD i 0)
    · have hsep' : separators content i = true := decide_eq_true hsep
      cases pending with
      | none =>
        rw [serviceLoop, hi, if_pos hsep, scan, if_pos hsep']
        exact ih (pends_sep hsep') (by omega) fun k hk hk' => hsame k (Nat.le_of_succ_le hk) (by omega)
      | some p =>
        have hcut := @stringAt_set i list content p hle (by omega) fun k hk hk' => hsame k hk (by omega)
        have hrest (generation : ℕ) := @ih (i + 1) generation (list.set i 0) none (pends_sep hsep')
          (by rw [List.length_set]; omega) fun k hk hk' => by
            rw [Option.getD_none] at hk
            rw [List.getElem?_set_ne (by omega)]
            exact hsame k (hle.trans (by omega)) (by omega)
        rw [serviceLoop, hi, if_pos hsep, if_pos hpends.1]
        simp only [hcut, hrest]
        rw [scan, if_pos hsep', List.map_cons, starts]
    · have hsep' : ¬ separators content i = true := fun h => hsep (of_decide_eq_true h)
      cases pending with
      | none =>
        rw [serviceLoop, hi, if_neg hsep, scan, if_neg hsep']
        exact ih (pends_open hpends (by simpa using hsep')) (by omega) fun k hk hk' => hsame k hk (by omega)
      | some p =>
        rw [serviceLoop, hi, if_neg hsep, scan, if_neg hsep']
        exact ih (pends_more hpends (by simpa using hsep')) (by omega) fun k hk hk' => hsame k hk (by omega)

/-- No process but `init` starts anything exactly when only the last call of `exec` may fail. -/
theorem starts_eq_iff {names served : List (List UInt8)} :
    starts execs generation names = served.map (Start.mk generation) ↔
      names = served ∧ ∀ before name behind, names = before ++ name :: behind → behind ≠ [] → execs name = true := by
  induction names generalizing served with
  | nil =>
    rw [starts]
    constructor
    · intro h
      rw [List.map_eq_nil_iff.mp h.symm]
      exact ⟨rfl, fun before name behind hsplit => by simp at hsplit⟩
    · rintro ⟨rfl, -⟩
      rfl
  | cons name names ih =>
    have hcond : (∀ before name' behind, name :: names = before ++ name' :: behind → behind ≠ [] → execs name' = true) ↔
        (names ≠ [] → execs name = true) ∧
          ∀ before name' behind, names = before ++ name' :: behind → behind ≠ [] → execs name' = true := by
      constructor
      · exact fun h => ⟨h [] name names rfl,
          fun before name' behind hsplit => h (name :: before) name' behind (by rw [hsplit]; rfl)⟩
      · rintro ⟨hfirst, hrest⟩ before name' behind hsplit hne
        cases before with
        | nil =>
          obtain ⟨rfl, rfl⟩ := List.cons.inj hsplit
          exact hfirst hne
        | cons b before => exact hrest before name' behind (List.cons.inj hsplit).2 hne
    rw [hcond, starts]
    by_cases hexec : execs name = true
    · rw [if_pos hexec, List.nil_append]
      cases served with
      | nil => simp
      | cons first served =>
        rw [List.map_cons, List.cons.injEq, ih, Start.mk.injEq, List.cons.injEq]
        simp only [true_and, hexec, implies_true, and_assoc]
    · rw [if_neg hexec]
      cases names with
      | nil =>
        cases served with
        | nil => simp
        | cons first served => simp [starts]
      | cons second names =>
        constructor
        · intro h
          cases served with
          | nil => cases h
          | cons first served =>
            have htail := (List.cons.inj h).2
            cases served with
            | nil => simp [starts] at htail
            | cons next served => simp [starts] at htail
        · exact fun h => absurd (h.2.1 (List.cons_ne_nil _ _)) hexec

/-- The conditions on the file and on what it names. -/
structure Startable (execs : List UInt8 → Bool) (content : List UInt8) : Prop where
  short : content.length < listMaxSize
  closed : ∀ c, content.getLast? = some c → Separates c
  nul : ∀ r ∈ runsOf (separators content) content.length, 0 ∉ name content r
  execs : ∀ before r behind, runsOf (separators content) content.length = before ++ r :: behind → behind ≠ [] →
    execs (name content r) = true

theorem closed_iff : scanPending (separators content) content.length 0 none = none ↔
    ∀ c, content.getLast? = some c → Separates c := by
  rw [scanPending_eq_none]
  rcases List.eq_nil_or_concat' content with rfl | ⟨front, last, rfl⟩
  · simp
  · simp [separators]

theorem takeWhile_eq_self {l : List UInt8} : l.takeWhile (· ≠ 0) = l ↔ 0 ∉ l := by
  rw [List.takeWhile_eq_self_iff]
  constructor
  · exact fun h hmem => absurd (h 0 hmem) (by decide)
  · exact fun h c hc => decide_eq_true (ne_of_mem_of_not_mem hc h)

/-- The runs that are started are all runs with their whole names. -/
theorem served_iff :
    ((scan (separators content) content.length 0 none).map fun r => (name content r).takeWhile (· ≠ 0)) =
      (runsOf (separators content) content.length).map (name content) ↔
    (∀ c, content.getLast? = some c → Separates c) ∧
      ∀ r ∈ runsOf (separators content) content.length, 0 ∉ name content r := by
  rw [← closed_iff, runsOf]
  cases scanPending (separators content) content.length 0 none with
  | none =>
    rw [Option.toList_none, List.map_nil, List.append_nil, List.map_inj_left]
    simp only [takeWhile_eq_self, true_and]
  | some start =>
    refine ⟨fun h => ?_, fun h => absurd h.1 (Option.some_ne_none start)⟩
    have hlen := congrArg List.length h
    simp at hlen

/-- Each name has a process of its own, started by `init` in order, exactly under these conditions. -/
theorem runServices_iff (execs : List UInt8 → Bool) (junk content : List UInt8) :
    runServices execs junk content =
        some ((runsOf (separators content) content.length).map fun r => ⟨0, name content r⟩) ↔
      Startable execs content := by
  by_cases hshort : content.length < listMaxSize
  · have hbytes : content.take listMaxSize = content := List.take_of_length_le hshort.le
    have hloop := @serviceLoop_eq execs content.length 0 0 (content ++ 0 :: junk.drop (content.length + 1)) content none
      pends_start (by rw [List.length_append]; omega) fun k _ hk => List.getElem?_append_left (by omega)
    have hserved : ((runsOf (separators content) content.length).map fun r => (⟨0, name content r⟩ : Start)) =
        ((runsOf (separators content) content.length).map (name content)).map (Start.mk 0) := by rw [List.map_map]; rfl
    simp only [runServices, hbytes, if_pos hshort, hloop, Option.some.injEq]
    rw [hserved, starts_eq_iff]
    constructor
    · rintro ⟨hnames, hexecs⟩
      obtain ⟨hclosed, hnul⟩ := served_iff.mp hnames
      refine ⟨hshort, hclosed, hnul, fun before r behind hsplit hne => ?_⟩
      refine hexecs (before.map (name content)) _ (behind.map (name content)) ?_ (by simpa using hne)
      rw [hnames, hsplit, List.map_append, List.map_cons]
    · rintro ⟨-, hclosed, hnul, hexecs⟩
      have hnames := served_iff.mpr ⟨hclosed, hnul⟩
      refine ⟨hnames, fun before service behind hsplit hne => ?_⟩
      rw [hnames] at hsplit
      obtain ⟨runs, rest, hruns, -, hrest⟩ := List.map_eq_append_iff.mp hsplit
      obtain ⟨r, later, rfl, rfl, rfl⟩ := List.map_eq_cons_iff.mp hrest
      exact hexecs runs r later hruns (by rintro rfl; exact hne rfl)
  · have hlen : (content.take listMaxSize).length = listMaxSize := by
      rw [List.length_take]
      omega
    simp only [runServices, hlen, if_neg (Nat.lt_irrefl _)]
    exact ⟨fun h => (nomatch h), fun h => absurd h.short hshort⟩

/-- "/bin/sh" without a newline. -/
def oneService : List UInt8 := [47, 98, 105, 110, 47, 115, 104]

/-- A service that ends the file is not started. -/
theorem last_service_left_out : runServices (fun _ => true) (List.replicate 512 0) oneService = some [] ∧
    (runsOf (separators oneService) oneService.length).map (name oneService) = [oneService] ∧
    runServices (fun _ => true) (List.replicate 512 0) oneService ≠
      some ((runsOf (separators oneService) oneService.length).map fun r => ⟨0, name oneService r⟩) := by decide

end Eedox.Services
