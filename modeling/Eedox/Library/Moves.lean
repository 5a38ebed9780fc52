import Mathlib.Data.List.Induction

namespace Eedox.Library.Moves

variable {α : Type*}

/-- A step in a tree of named places: to the parent, or to a child. -/
inductive Move (α : Type*)
  | up
  | down (name : α)

/-- A place as seen from the root when it is fixed, and else from a place that is not known yet: `back`
levels up and then down the names. -/
@[ext] structure Place (α : Type*) where
  names : List α
  fixed : Bool
  back : ℕ

def origin (fixed : Bool) : Place α := ⟨[], fixed, 0⟩

/-- Above the root there is nothing to go up to. -/
def go (p : Place α) : Move α → Place α
  | .up =>
    if p.names ≠ [] then { p with names := p.names.dropLast }
    else if p.fixed then p
    else { p with back := p.back + 1 }
  | .down name => { p with names := p.names ++ [name] }

def goAll (p : Place α) (ms : List (Move α)) : Place α := ms.foldl go p

/-- The moves that a place stands for. -/
def Place.moves (p : Place α) : List (Move α) := List.replicate p.back .up ++ p.names.map .down

def join (p q : Place α) : Place α := goAll p q.moves

variable {p q r x : Place α} {ms ns : List (Move α)}

@[simp] theorem goAll_nil (p : Place α) : goAll p [] = p := rfl

@[simp] theorem goAll_cons (p : Place α) (m : Move α) (ms : List (Move α)) :
    goAll p (m :: ms) = goAll (go p m) ms := rfl

theorem goAll_append (p : Place α) (ms ns : List (Move α)) :
    goAll p (ms ++ ns) = goAll (goAll p ms) ns := List.foldl_append

theorem goAll_snoc (p : Place α) (ms : List (Move α)) (m : Move α) :
    goAll p (ms ++ [m]) = go (goAll p ms) m := by
  rw [goAll_append, goAll_cons, goAll_nil]

@[simp] theorem go_fixed (p : Place α) (m : Move α) : (go p m).fixed = p.fixed := by
  cases m with
  | up =>
    unfold go
    split_ifs <;> rfl
  | down name => rfl

@[simp] theorem goAll_fixed (p : Place α) (ms : List (Move α)) : (goAll p ms).fixed = p.fixed := by
  induction ms generalizing p with
  | nil => rfl
  | cons m ms ih => rw [goAll_cons, ih, go_fixed]

/-- A name and then a step up lead nowhere. -/
theorem go_down_up (p : Place α) (name : α) : go (go p (.down name)) .up = p := by
  simp [go]

theorem goAll_downs (p : Place α) (names : List α) :
    goAll p (names.map .down) = { p with names := p.names ++ names } := by
  induction names generalizing p with
  | nil => simp
  | cons name names ih =>
    rw [List.map_cons, goAll_cons, ih]
    simp [go]

/-- From an origin that is not fixed, the steps up are only counted. -/
theorem goAll_ups (n : ℕ) (x : Place α) (hn : x.names = []) (hf : x.fixed = false) :
    goAll x (List.replicate n .up) = { x with back := x.back + n } := by
  induction n generalizing x with
  | zero => rfl
  | succ n ih =>
    have hgo : go x .up = { x with back := x.back + 1 } := by simp [go, hn, hf]
    rw [List.replicate_succ, goAll_cons, hgo, ih { x with back := x.back + 1 } hn hf]
    ext1
    · rfl
    · rfl
    · simp only
      omega

/-- A place that is not fixed is where its moves lead. -/
theorem join_origin (hf : x.fixed = false) : join (origin false) x = x := by
  rw [join, Place.moves, goAll_append, goAll_ups _ _ rfl rfl, goAll_downs]
  ext1
  · simp [origin]
  · exact hf.symm
  · simp [origin]

/-- One more move behind the moves of a place is a move of the place. -/
theorem go_join (hf : x.fixed = false) (p : Place α) (m : Move α) : go (join p x) m = join p (go x m) := by
  cases m with
  | down name =>
    have hmoves : (go x (.down name)).moves = x.moves ++ [.down name] := by
      simp [Place.moves, go]
    rw [join, join, hmoves, goAll_snoc]
  | up =>
    rcases List.eq_nil_or_concat x.names with hn | ⟨names, name, hn⟩
    · have hgo : go x .up = { x with back := x.back + 1 } := by simp [go, hn, hf]
      rw [hgo, join, join, ← goAll_snoc]
      simp [Place.moves, hn, List.replicate_succ']
    · rw [List.concat_eq_append] at hn
      have hgo : go x .up = { x with names := names } := by simp [go, hn]
      rw [hgo, join, join, Place.moves, Place.moves, hn, List.map_append, ← List.append_assoc,
        List.map_singleton, goAll_snoc, go_down_up]

/-- A run of moves from `p` is a join with where it leads from an open origin. -/
theorem goAll_eq_join (p : Place α) (ms : List (Move α)) :
    goAll p ms = join p (goAll (origin false) ms) := by
  induction ms using List.reverseRecOn with
  | nil => rfl
  | append_singleton ms m ih => rw [goAll_snoc, goAll_snoc, ih, go_join (goAll_fixed _ _)]

theorem join_assoc (hq : q.fixed = false) (p r : Place α) : join (join p q) r = join p (join q r) := by
  have hjoin : join q r = goAll (origin false) (q.moves ++ r.moves) := by
    have horigin : goAll (origin false) q.moves = q := join_origin hq
    rw [goAll_append, horigin, join]
  rw [hjoin, ← goAll_eq_join, goAll_append]
  rfl

end Eedox.Library.Moves
