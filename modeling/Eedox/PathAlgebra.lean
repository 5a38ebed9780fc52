import Eedox.Library.Moves
import Eedox.Pathbuf

namespace Eedox.PathAlgebra

open Util Pathbuf Library.Moves

def placeOf (path : PathbufT) : Place Str := ⟨path.fields, path.isAbsolute, path.back⟩

/-- The move that a component of a path stands for; an empty one and `.` are dropped. -/
def moveOf (buffer : List UInt8) : Option (Move Str) :=
  if buffer = [46, 46] then some .up
  else if buffer = [46] ∨ buffer = [] then none
  else some (.down (kstringStr buffer))

def components (address : Str) : List (List UInt8) := address.chars.splitOn 47

def movesOf (address : Str) : List (Move Str) := (components address).filterMap moveOf

/-- The normaliser that goes through the components from left to right. -/
def normalise (address : Str) : Place Str :=
  goAll (origin (address.chars.head? = some 47)) (movesOf address)

theorem placeOf_inj {p q : PathbufT} (h : placeOf p = placeOf q) : p = q := by
  cases p
  cases q
  obtain ⟨hf, ha, hb⟩ := Place.mk.inj h
  simp only at hf ha hb
  subst hf ha hb
  rfl

theorem placeOf_component (path : PathbufT) (buffer : List UInt8) :
    placeOf (component path buffer) = goAll (placeOf path) (moveOf buffer).toList := by
  unfold component moveOf
  by_cases hback : buffer = [46, 46]
  · rw [if_pos hback, if_pos hback]
    simp only [Option.toList_some, goAll_cons, goAll_nil, go, placeOf]
    split_ifs <;> simp_all
  · rw [if_neg hback, if_neg hback]
    by_cases hdot : buffer = [46]
    · rw [if_pos hdot, if_pos (Or.inl hdot)]
      rfl
    · by_cases hempty : buffer = []
      · rw [if_neg hdot, if_neg (by simpa using hempty), if_pos (Or.inr hempty)]
        rfl
      · rw [if_neg hdot, if_pos hempty, if_neg (by simp [hdot, hempty])]
        rfl

theorem placeOf_components (path : PathbufT) (buffers : List (List UInt8)) :
    placeOf (buffers.foldl component path) = goAll (placeOf path) (buffers.filterMap moveOf) := by
  induction buffers generalizing path with
  | nil => rfl
  | cons buffer buffers ih =>
    rw [List.foldl_cons, ih, placeOf_component, ← goAll_append]
    cases h : moveOf buffer with
    | none => simp [h]
    | some m => simp [h]

theorem modifyHead_nil (parts : List (List UInt8)) : parts.modifyHead ([] ++ ·) = parts := by
  cases parts with
  | nil => rfl
  | cons part parts => rfl

/-- The parser takes the components one after the other; the first one goes on from what is read. -/
theorem parseFrom_eq (cs buffer : List UInt8) (path : PathbufT) :
    parseFrom cs buffer path = ((cs.splitOn 47).modifyHead (buffer ++ ·)).foldl component path := by
  induction cs generalizing buffer path with
  | nil => simp [parseFrom]
  | cons c cs ih =>
    rw [parseFrom, List.splitOn, List.splitOnP_cons_eq_if_modifyHead]
    by_cases hc : c = 47
    · rw [if_neg (not_not.mpr hc), ih, if_pos (by simpa using hc), modifyHead_nil]
      simp [List.splitOn]
    · rw [if_pos hc, ih, if_neg (by simpa using hc), List.modifyHead_modifyHead]
      simp only [List.append_assoc, List.singleton_append]
      rfl

theorem placeOf_parse (address : Str) : placeOf (pathbufParse address) = normalise address := by
  rw [pathbufParse, parseFrom_eq, modifyHead_nil, placeOf_components]
  simp [normalise, movesOf, components, placeOf, origin]

theorem placeOf_stepBack (path : PathbufT) : placeOf (stepBack path) = go (placeOf path) .up := by
  unfold stepBack go
  by_cases hfields : path.fields = []
  · cases habs : path.isAbsolute <;> simp [placeOf, hfields, habs]
  · simp [placeOf, hfields]

theorem placeOf_stepBacks (path : PathbufT) (n : ℕ) :
    placeOf (stepBack^[n] path) = goAll (placeOf path) (List.replicate n .up) := by
  induction n generalizing path with
  | zero => rfl
  | succ n ih => rw [Function.iterate_succ_apply, ih, placeOf_stepBack, List.replicate_succ, goAll_cons]

theorem placeOf_join {path : PathbufT} (h : path.isAbsolute = false) (cwd : PathbufT) :
    placeOf (pathbufJoin cwd path) = join (placeOf cwd) (placeOf path) := by
  rw [pathbufJoin, if_neg (by simp [h]), join, Place.moves, goAll_append]
  change _ = goAll (goAll (placeOf cwd) (List.replicate path.back .up)) (path.fields.map .down)
  rw [← placeOf_stepBacks, goAll_downs]
  rfl

theorem parse_isAbsolute (address : Str) :
    (pathbufParse address).isAbsolute = decide (address.chars.head? = some 47) :=
  parseFrom_isAbsolute _ _ _

/-- The second string behind the first one and a separator. -/
def under (a b : Str) : Str := ⟨a.chars ++ 47 :: b.chars, by
  rw [List.mem_append, List.mem_cons, not_or, not_or]
  exact ⟨a.nul, by decide, b.nul⟩⟩

theorem movesOf_under (a b : Str) : movesOf (under a b) = movesOf a ++ movesOf b := by
  rw [movesOf, components, under, List.splitOn_append_cons_self, List.filterMap_append]
  rfl

theorem head_under {a : Str} (ha : a.chars.head? = some 47) (b : Str) :
    (under a b).chars.head? = some 47 := by
  rw [under, List.head?_append, ha]
  rfl

theorem placeOf_under {a b : Str} (ha : a.chars.head? = some 47) (hb : b.chars.head? ≠ some 47) :
    placeOf (pathbufParse (under a b)) = join (placeOf (pathbufParse a)) (placeOf (pathbufParse b)) := by
  have hfree : normalise b = goAll (origin false) (movesOf b) := by
    rw [normalise, decide_eq_false hb]
  rw [placeOf_parse, placeOf_parse, placeOf_parse, hfree, ← goAll_eq_join]
  rw [normalise, normalise, decide_eq_true (head_under ha b), decide_eq_true ha, movesOf_under, goAll_append]

/-- A string that is resolved in the directory of another one means what the two mean together. -/
theorem parse_compositional {a : Str} (ha : a.chars.head? = some 47) (b : Str) :
    pathbufCmp (resolvePath (pathbufParse a) (pathbufParse b))
      (pathbufParse (if b.chars.head? = some 47 then b else under a b)) = true ∧
    ∀ s, placeOf (pathbufParse s) = normalise s := by
  refine ⟨?_, placeOf_parse⟩
  rw [pathbufCmp_eq, resolvePath, parse_isAbsolute]
  by_cases hb : b.chars.head? = some 47
  · rw [if_pos (decide_eq_true hb), if_pos hb]
  · have habs : (pathbufParse b).isAbsolute = false := by rw [parse_isAbsolute, decide_eq_false hb]
    rw [if_neg (by simpa using hb), if_neg hb]
    apply placeOf_inj
    rw [placeOf_join habs, placeOf_under ha hb]

/-- `..` and then a name, in a directory that has a trailing separator. -/
theorem parse_compositional_up :
    (⟨[47, 97, 47], by decide⟩ : Str).chars.head? = some 47 ∧
    pathbufCmp (resolvePath (pathbufParse ⟨[47, 97, 47], by decide⟩)
        (pathbufParse ⟨[46, 46, 47, 46, 46, 47, 98], by decide⟩))
      (pathbufParse (if (⟨[46, 46, 47, 46, 46, 47, 98], by decide⟩ : Str).chars.head? = some 47 then
        ⟨[46, 46, 47, 46, 46, 47, 98], by decide⟩
        else under ⟨[47, 97, 47], by decide⟩ ⟨[46, 46, 47, 46, 46, 47, 98], by decide⟩)) = true :=
  ⟨rfl, (parse_compositional rfl ⟨[46, 46, 47, 46, 46, 47, 98], by decide⟩).1⟩

/-- The paths that the parser and the join make: the root has no parent to count. -/
def Counting (path : PathbufT) : Prop := path.isAbsolute = true → path.back = 0

theorem join_isAbsolute (p q : PathbufT) :
    (pathbufJoin p q).isAbsolute = (p.isAbsolute || q.isAbsolute) := by
  cases hq : q.isAbsolute with
  | true => rw [pathbufJoin, if_pos hq, Bool.or_true, pathbufRoot]
  | false =>
    have hplace : (placeOf (pathbufJoin p q)).fixed = (placeOf p).fixed := by
      rw [placeOf_join hq, join, goAll_fixed]
    rw [Bool.or_false]
    exact hplace

theorem join_absolute {q : PathbufT} (hq : q.isAbsolute = true) (p : PathbufT) :
    pathbufJoin p q = pathbufRoot := by
  rw [pathbufJoin, if_pos hq]

theorem pathbufJoin_assoc {q r : PathbufT} (hq : q.isAbsolute = false) (hr : r.isAbsolute = false)
    (p : PathbufT) : pathbufJoin (pathbufJoin p q) r = pathbufJoin p (pathbufJoin q r) := by
  have hqr : (pathbufJoin q r).isAbsolute = false := by rw [join_isAbsolute, hq, hr, Bool.or_false]
  apply placeOf_inj
  rw [placeOf_join hr, placeOf_join hq, placeOf_join hqr, placeOf_join hr]
  exact join_assoc hq _ _

theorem join_root {r : PathbufT} (hr : r.isAbsolute = false) :
    pathbufJoin pathbufRoot r = { pathbufRoot with fields := r.fields } := by
  have hroot : ∀ n, stepBack^[n] pathbufRoot = pathbufRoot := by
    intro n
    exact Function.iterate_fixed rfl n
  rw [pathbufJoin, if_neg (by simp [hr])]
  simp only [hroot]
  rfl

/-- The join is associative, and an absolute right operand wins, if and only if the middle operand is
relative, or it is the root and nothing is left to add. -/
theorem join_lawful_iff {q : PathbufT} (hq : Counting q) (p r : PathbufT) :
    (pathbufCmp (pathbufJoin (pathbufJoin p q) r) (pathbufJoin p (pathbufJoin q r)) = true ∧
      (q.isAbsolute = true → pathbufCmp (pathbufJoin p q) q = true)) ↔
    (q.isAbsolute = true → q.fields = [] ∧ (r.isAbsolute = true ∨ r.fields = [])) := by
  rw [pathbufCmp_eq]
  cases habs : q.isAbsolute with
  | false =>
    simp only [Bool.false_eq_true, false_implies, and_true, iff_true]
    cases hr : r.isAbsolute with
    | false => exact pathbufJoin_assoc habs hr p
    | true =>
      have hqr : (pathbufJoin q r).isAbsolute = true := by rw [join_absolute hr, pathbufRoot]
      rw [join_absolute hr, join_absolute hqr]
  | true =>
    have hqr : (pathbufJoin q r).isAbsolute = true := by rw [join_isAbsolute, habs, Bool.true_or]
    have hwins : pathbufRoot = q ↔ q.fields = [] := by
      constructor
      · rintro rfl
        rfl
      · intro hfields
        have hback := hq habs
        cases q
        simp only at hfields hback habs
        rw [hfields, hback, habs, pathbufRoot]
    rw [join_absolute habs, join_absolute hqr, pathbufCmp_eq, hwins]
    simp only [true_implies]
    cases hr : r.isAbsolute with
    | true => simp [join_absolute hr]
    | false =>
      rw [join_root hr]
      simp [pathbufRoot, and_comm]

theorem join_lawful_iff_relative : Counting ⟨[kstringStr [98]], false, 1⟩ ∧
    pathbufCmp (pathbufJoin (pathbufJoin pathbufRoot ⟨[kstringStr [98]], false, 1⟩) pathbufRoot)
      (pathbufJoin pathbufRoot (pathbufJoin ⟨[kstringStr [98]], false, 1⟩ pathbufRoot)) = true :=
  ⟨nofun, ((join_lawful_iff (q := ⟨[kstringStr [98]], false, 1⟩) nofun pathbufRoot pathbufRoot).mpr nofun).1⟩

/-- The absolute path `/b` under `a` is the root. -/
theorem join_loses_fields :
    Counting (pathbufParse ⟨[47, 98], by decide⟩) ∧
    (pathbufParse ⟨[47, 98], by decide⟩).isAbsolute = true ∧
    pathbufCmp (pathbufJoin (pathbufParse ⟨[97], by decide⟩) (pathbufParse ⟨[47, 98], by decide⟩))
      (pathbufParse ⟨[47, 98], by decide⟩) = false := by
  refine ⟨fun _ => ?_, ?_, ?_⟩ <;> decide

end Eedox.PathAlgebra
