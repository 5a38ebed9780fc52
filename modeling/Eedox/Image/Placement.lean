import Eedox.Image.Writer
import Eedox.Fs.Childtable

namespace Eedox.Image

open Util Library.Bytes Fs.Childtable

section Tree

theorem length_collect (t : Children) (i : ℕ) : (t.collect i).length = t.count := by
  induction t generalizing i with
  | none => rfl
  | file name content rest ih => simp [Children.collect, Children.count, ih, Nat.add_comm]
  | dir name children rest ihc ih =>
    simp only [Children.collect, Children.count, List.length_cons, List.length_append, ihc, ih]
    omega

theorem names_places (t : Children) (i : ℕ) : (t.places i).map Prod.fst = t.names := by
  induction t generalizing i with
  | none => rfl
  | file name content rest ih => simp [Children.places, Children.names, ih]
  | dir name children rest ihc ih => simp [Children.places, Children.names, ih]

/-- A node of the tree with its place in the list. -/
abbrev Spot := ℕ × Item

def Item.count : Item → ℕ
  | .file _ => 1
  | .dir children => 1 + children.count

def Spot.node : Spot → Node
  | (_, .file content) => .file content
  | (i, .dir children) => .dir (children.places (i + 1))

def Spot.collect : Spot → List Node
  | (_, .file content) => [.file content]
  | (i, .dir children) => .dir (children.places (i + 1)) :: children.collect (i + 1)

def Children.spot (name : Str) (i : ℕ) : Children → Option Spot
  | .none => Option.none
  | .file name' content rest => if name = name' then some (i, .file content) else rest.spot name (i + 1)
  | .dir name' children rest =>
    if name = name' then some (i, .dir children) else rest.spot name (i + 1 + children.count)

def locate : Spot → List Str → Option Spot
  | spot, [] => some spot
  | (_, .file _), _ :: _ => none
  | (i, .dir children), name :: path => (children.spot name (i + 1)).bind fun spot => locate spot path

theorem length_spot_collect (s : Spot) : s.collect.length = s.2.count := by
  obtain ⟨i, content | children⟩ := s
  · rfl
  · simp [Spot.collect, Item.count, length_collect, Nat.add_comm]

theorem find_spot (t : Children) (name : Str) (i : ℕ) : (t.spot name i).map Prod.snd = t.find name := by
  induction t generalizing i with
  | none => rfl
  | file name' content rest ih =>
    by_cases h : name = name'
    · simp [Children.spot, Children.find, h]
    · simp [Children.spot, Children.find, h, ih]
  | dir name' children rest ihc ih =>
    by_cases h : name = name'
    · simp [Children.spot, Children.find, h]
    · simp [Children.spot, Children.find, h, ih]

theorem locate_cons (i : ℕ) (children : Children) (name : Str) (path : List Str) :
    locate (i, .dir children) (name :: path) = (children.spot name (i + 1)).bind fun spot => locate spot path := rfl

theorem lookup_locate (path : List Str) (s : Spot) :
    (locate s path).map Prod.snd = lookup s.2 path := by
  induction path generalizing s with
  | nil => rfl
  | cons name path ih =>
    obtain ⟨i, content | children⟩ := s
    · rfl
    · rw [locate_cons, lookup, ← find_spot children name (i + 1)]
      cases children.spot name (i + 1) with
      | none => rfl
      | some spot => exact ih spot

theorem locate_append (path : List Str) (name : Str) (s : Spot) :
    locate s (path ++ [name]) = (locate s path).bind fun spot => locate spot [name] := by
  induction path generalizing s with
  | nil => rfl
  | cons n path ih =>
    obtain ⟨i, content | children⟩ := s
    · rfl
    · rw [List.cons_append, locate_cons, locate_cons, Option.bind_assoc]
      congr 1
      funext spot
      exact ih spot

theorem locate_single (i : ℕ) (children : Children) (name : Str) :
    locate (i, .dir children) [name] = children.spot name (i + 1) := by
  rw [locate_cons]
  cases children.spot name (i + 1) <;> rfl

/-- The nodes under a child lie together in the list, from its place on. -/
theorem collect_spot {t : Children} {name : Str} {i : ℕ} {s : Spot} (h : t.spot name i = some s) :
    ∃ pre post, t.collect i = pre ++ (s.collect ++ post) ∧ i + pre.length = s.1 := by
  induction t generalizing i with
  | none => cases h
  | file name' content rest ih =>
    by_cases hn : name = name'
    · obtain rfl : (i, Item.file content) = s := by simpa [Children.spot, hn] using h
      exact ⟨[], rest.collect (i + 1), rfl, rfl⟩
    · obtain ⟨pre, post, he, hl⟩ := ih (by simpa [Children.spot, hn] using h)
      refine ⟨.file content :: pre, post, by rw [Children.collect, he]; rfl, ?_⟩
      rw [List.length_cons]
      omega
  | dir name' children rest ihc ih =>
    by_cases hn : name = name'
    · obtain rfl : (i, Item.dir children) = s := by simpa [Children.spot, hn] using h
      exact ⟨[], rest.collect (i + 1 + children.count), rfl, rfl⟩
    · obtain ⟨pre, post, he, hl⟩ := ih (by simpa [Children.spot, hn] using h)
      refine ⟨.dir (children.places (i + 1)) :: (children.collect (i + 1) ++ pre), post, ?_, ?_⟩
      · rw [Children.collect, he]
        simp only [List.cons_append, List.append_assoc]
      · rw [List.length_cons, List.length_append, length_collect]
        omega

theorem collect_locate {path : List Str} {s spot : Spot} (h : locate s path = some spot) :
    ∃ pre post, s.collect = pre ++ (spot.collect ++ post) ∧ s.1 + pre.length = spot.1 := by
  induction path generalizing s with
  | nil =>
    obtain rfl : s = spot := Option.some.inj h
    exact ⟨[], [], by simp, rfl⟩
  | cons name path ih =>
    obtain ⟨i, content | children⟩ := s
    · cases h
    · obtain ⟨c, hc, hp⟩ := Option.bind_eq_some_iff.mp h
      obtain ⟨pre, post, he, hl⟩ := collect_spot hc
      obtain ⟨pre', post', he', hl'⟩ := ih hp
      refine ⟨.dir (children.places (i + 1)) :: (pre ++ pre'), post' ++ post, ?_, ?_⟩
      · rw [Spot.collect, he, he']
        simp only [List.cons_append, List.append_assoc]
      · simp only [List.length_cons, List.length_append]
        omega

theorem head_collect (s : Spot) : s.collect.head? = some s.node := by
  obtain ⟨i, content | children⟩ := s <;> rfl

/-- The node found by a path stands at its place in the list. -/
theorem nodes_locate {t : Children} {path : List Str} {spot : Spot}
    (h : locate (0, .dir t) path = some spot) : (nodes t)[spot.1]? = some spot.node := by
  obtain ⟨pre, post, he, hl⟩ := collect_locate h
  have hn : nodes t = Spot.collect (0, .dir t) := rfl
  have hh := head_collect spot
  cases hc : spot.collect with
  | nil => simp [hc] at hh
  | cons node rest =>
    rw [hc] at hh he
    obtain rfl : node = spot.node := Option.some.inj hh
    rw [hn, he, ← hl]
    simp

theorem spot_range {t : Children} {name : Str} {i : ℕ} {s : Spot} (h : t.spot name i = some s) :
    i ≤ s.1 ∧ s.1 + s.2.count ≤ i + t.count := by
  obtain ⟨pre, post, he, hl⟩ := collect_spot h
  have hlen := congrArg List.length he
  rw [length_collect, List.length_append, List.length_append, length_spot_collect] at hlen
  omega

theorem locate_range {path : List Str} {s spot : Spot} (h : locate s path = some spot) :
    s.1 ≤ spot.1 ∧ spot.1 + spot.2.count ≤ s.1 + s.2.count := by
  obtain ⟨pre, post, he, hl⟩ := collect_locate h
  have hlen := congrArg List.length he
  rw [length_spot_collect, List.length_append, List.length_append, length_spot_collect] at hlen
  omega

theorem Item.count_pos (item : Item) : 0 < item.count := by
  cases item with
  | file content => exact Nat.one_pos
  | dir children =>
    rw [Item.count]
    omega

theorem spot_apart {t : Children} {n m : Str} {i : ℕ} {a b : Spot} (ha : t.spot n i = some a)
    (hb : t.spot m i = some b) (hne : n ≠ m) :
    a.1 + a.2.count ≤ b.1 ∨ b.1 + b.2.count ≤ a.1 := by
  induction t generalizing i with
  | none => cases ha
  | file name content rest ih =>
    by_cases hn : n = name
    · obtain rfl : (i, Item.file content) = a := by simpa [Children.spot, hn] using ha
      have hm : m ≠ name := fun h => hne (hn.trans h.symm)
      have := spot_range (by simpa [Children.spot, hm] using hb)
      simp only [Item.count]
      omega
    · have ha' : rest.spot n (i + 1) = some a := by simpa [Children.spot, hn] using ha
      by_cases hm : m = name
      · obtain rfl : (i, Item.file content) = b := by simpa [Children.spot, hm] using hb
        have := spot_range ha'
        simp only [Item.count]
        omega
      · exact ih ha' (by simpa [Children.spot, hm] using hb)
  | dir name children rest ihc ih =>
    by_cases hn : n = name
    · obtain rfl : (i, Item.dir children) = a := by simpa [Children.spot, hn] using ha
      have hm : m ≠ name := fun h => hne (hn.trans h.symm)
      have := spot_range (by simpa [Children.spot, hm] using hb)
      simp only [Item.count]
      omega
    · have ha' : rest.spot n (i + 1 + children.count) = some a := by
        simpa [Children.spot, hn] using ha
      by_cases hm : m = name
      · obtain rfl : (i, Item.dir children) = b := by simpa [Children.spot, hm] using hb
        have := spot_range ha'
        simp only [Item.count]
        omega
      · exact ih ha' (by simpa [Children.spot, hm] using hb)

/-- Two paths to one place are the same path. -/
theorem locate_injective {p q : List Str} {s a b : Spot} (ha : locate s p = some a)
    (hb : locate s q = some b) (h : a.1 = b.1) : p = q := by
  induction p generalizing s q with
  | nil =>
    obtain rfl : s = a := Option.some.inj ha
    cases q with
    | nil => rfl
    | cons name q =>
      obtain ⟨i, content | children⟩ := s
      · cases hb
      · obtain ⟨c, hc, hq⟩ := Option.bind_eq_some_iff.mp hb
        have h1 := spot_range hc
        have h2 := locate_range hq
        omega
  | cons n p ih =>
    obtain ⟨i, content | children⟩ := s
    · cases ha
    · obtain ⟨c, hc, hp⟩ := Option.bind_eq_some_iff.mp ha
      have h1 := spot_range hc
      have h2 := locate_range hp
      cases q with
      | nil =>
        obtain rfl : (i, Item.dir children) = b := Option.some.inj hb
        omega
      | cons m q =>
        obtain ⟨d, hd, hq⟩ := Option.bind_eq_some_iff.mp hb
        have h3 := locate_range hq
        have h4 := a.2.count_pos
        have h5 := b.2.count_pos
        by_cases hnm : n = m
        · subst hnm
          obtain rfl : c = d := Option.some.inj (hc.symm.trans hd)
          rw [ih hp hq]
        · have := spot_apart hc hd hnm
          omega

end Tree

end Eedox.Image
