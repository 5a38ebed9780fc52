import Mathlib.Data.List.Chain

namespace Eedox.Library.Blocks

/-- A block of memory by the size of its payload, and what was asked for if it is in use. -/
@[ext] structure Block where
  size : ℕ
  request : Option ℕ

variable {w : ℕ}

/-- The room that the blocks take one after the other, each behind a header of `w` bytes. -/
def extent (w : ℕ) : List Block → ℕ
  | [] => 0
  | b :: bs => w + b.size + extent w bs

/-- The blocks with the addresses of their headers. -/
def places (w a : ℕ) : List Block → List (ℕ × Block)
  | [] => []
  | b :: bs => (a, b) :: places w (a + (w + b.size)) bs

/-- The header of the last block, or `p` when there is none. -/
def lastPlace (w p a : ℕ) : List Block → ℕ
  | [] => p
  | b :: bs => lastPlace w a (a + (w + b.size)) bs

def holes (w a : ℕ) (bs : List Block) : List ℕ :=
  ((places w a bs).filter fun x => x.2.request.isNone).map Prod.fst

/-- The payloads in use, with what was asked for. -/
def inUse (w a : ℕ) (bs : List Block) : List (ℕ × ℕ) :=
  (places w a bs).filterMap fun x => x.2.request.map fun n => (x.1 + w, n)

@[simp] theorem extent_nil : extent w [] = 0 := rfl

@[simp] theorem extent_cons (b : Block) (bs : List Block) :
    extent w (b :: bs) = w + b.size + extent w bs := rfl

@[simp] theorem extent_append (bs cs : List Block) :
    extent w (bs ++ cs) = extent w bs + extent w cs := by
  induction bs with
  | nil => simp
  | cons b bs ih => simp [ih, Nat.add_assoc]

theorem places_append (a : ℕ) (bs cs : List Block) :
    places w a (bs ++ cs) = places w a bs ++ places w (a + extent w bs) cs := by
  induction bs generalizing a with
  | nil => rfl
  | cons b bs ih => simp [places, ih, Nat.add_assoc]

theorem lastPlace_append (p a : ℕ) (bs cs : List Block) :
    lastPlace w p a (bs ++ cs) = lastPlace w (lastPlace w p a bs) (a + extent w bs) cs := by
  induction bs generalizing p a with
  | nil => rfl
  | cons b bs ih => simp [lastPlace, ih, Nat.add_assoc]

theorem holes_append (a : ℕ) (bs cs : List Block) :
    holes w a (bs ++ cs) = holes w a bs ++ holes w (a + extent w bs) cs := by
  simp [holes, places_append]

theorem inUse_append (a : ℕ) (bs cs : List Block) :
    inUse w a (bs ++ cs) = inUse w a bs ++ inUse w (a + extent w bs) cs := by
  simp [inUse, places_append]

@[simp] theorem holes_nil (a : ℕ) : holes w a [] = [] := rfl

@[simp] theorem inUse_nil (a : ℕ) : inUse w a [] = [] := rfl

theorem holes_cons (a : ℕ) (b : Block) (bs : List Block) : holes w a (b :: bs) =
    if b.request.isNone then a :: holes w (a + (w + b.size)) bs else holes w (a + (w + b.size)) bs := by
  unfold holes
  rw [places, List.filter_cons]
  split_ifs <;> rfl

theorem inUse_hole (a : ℕ) {b : Block} (bs : List Block) (h : b.request = none) :
    inUse w a (b :: bs) = inUse w (a + (w + b.size)) bs := by
  simp [inUse, places, h]

theorem inUse_used (a : ℕ) {b : Block} (bs : List Block) {n : ℕ} (h : b.request = some n) :
    inUse w a (b :: bs) = (a + w, n) :: inUse w (a + (w + b.size)) bs := by
  simp [inUse, places, h]

theorem mem_places {a : ℕ} {bs : List Block} {x : ℕ × Block} (h : x ∈ places w a bs) :
    ∃ cs ds, bs = cs ++ x.2 :: ds ∧ x.1 = a + extent w cs := by
  induction bs generalizing a with
  | nil => cases h
  | cons b bs ih =>
    rcases List.mem_cons.mp h with rfl | h
    · exact ⟨[], bs, rfl, rfl⟩
    · obtain ⟨cs, ds, rfl, hx⟩ := ih h
      exact ⟨b :: cs, ds, rfl, by rw [hx, extent_cons]; omega⟩

theorem mem_holes {a x : ℕ} {bs : List Block} (h : x ∈ holes w a bs) :
    ∃ cs b ds, bs = cs ++ b :: ds ∧ b.request = none ∧ x = a + extent w cs := by
  obtain ⟨⟨y, b⟩, hy, rfl⟩ := List.mem_map.mp h
  obtain ⟨hp, hn⟩ := List.mem_filter.mp hy
  obtain ⟨cs, ds, hb, hx⟩ := mem_places hp
  exact ⟨cs, b, ds, hb, Option.isNone_iff_eq_none.mp hn, hx⟩

theorem mem_inUse {a : ℕ} {bs : List Block} {x : ℕ × ℕ} (h : x ∈ inUse w a bs) :
    ∃ cs b ds, bs = cs ++ b :: ds ∧ b.request = some x.2 ∧ x.1 = a + extent w cs + w := by
  obtain ⟨⟨y, b⟩, hy, hx⟩ := List.mem_filterMap.mp h
  obtain ⟨n, hn, rfl⟩ := Option.map_eq_some_iff.mp hx
  obtain ⟨cs, ds, hb, hy⟩ := mem_places hy
  exact ⟨cs, b, ds, hb, hn, by rw [← hy]⟩

theorem holes_used (a : ℕ) (bs ds : List Block) {b : Block} (h : b.request ≠ none) :
    holes w a (bs ++ b :: ds) = holes w a bs ++ holes w (a + extent w bs + (w + b.size)) ds := by
  rw [holes_append, holes_cons, if_neg (by rwa [Option.isNone_iff_eq_none])]

theorem holes_hole (a : ℕ) (bs ds : List Block) {b : Block} (h : b.request = none) :
    (holes w a (bs ++ b :: ds)).Perm ((a + extent w bs) ::
      (holes w a bs ++ holes w (a + extent w bs + (w + b.size)) ds)) := by
  rw [holes_append, holes_cons, if_pos (by rwa [Option.isNone_iff_eq_none])]
  exact List.perm_middle

/-- Each block ends before the next one starts. -/
theorem places_apart (a : ℕ) (bs : List Block) :
    (places w a bs).Pairwise fun x y => x.1 + (w + x.2.size) ≤ y.1 := by
  induction bs generalizing a with
  | nil => exact List.Pairwise.nil
  | cons b bs ih =>
    refine List.pairwise_cons.mpr ⟨fun y hy => ?_, ih _⟩
    obtain ⟨cs, ds, -, hx⟩ := mem_places hy
    rw [hx]
    exact Nat.le_add_right _ _

theorem place_mem (a : ℕ) (bs ds : List Block) (b : Block) :
    (a + extent w bs, b) ∈ places w a (bs ++ b :: ds) := by
  rw [places_append]
  exact List.mem_append_right _ List.mem_cons_self

/-- No header lies inside another block. -/
theorem places_distinct {a : ℕ} {bs : List Block} {x y : ℕ × Block} (hx : x ∈ places w a bs)
    (hy : y ∈ places w a bs) : x = y ∨ x.1 + (w + x.2.size) ≤ y.1 ∨ y.1 + (w + y.2.size) ≤ x.1 := by
  have hapart := places_apart (w := w) a bs
  have hboth : ∀ x ∈ places w a bs, ∀ y ∈ places w a bs,
      x = y ∨ x.1 + (w + x.2.size) ≤ y.1 ∨ y.1 + (w + y.2.size) ≤ x.1 :=
    List.Pairwise.forall_of_forall_of_flip (fun x _ => Or.inl rfl)
      (hapart.imp fun hxy => Or.inr (Or.inl hxy)) (hapart.imp fun hxy => Or.inr (Or.inr hxy))
  exact hboth x hx y hy

/-- What was asked for ends before the header of the next payload in use starts. -/
theorem inUse_spread (a : ℕ) {bs : List Block} (h : ∀ b ∈ bs, ∀ n ∈ b.request, n ≤ b.size) :
    (inUse w a bs).Pairwise fun x y => x.1 + x.2 + w ≤ y.1 := by
  induction bs generalizing a with
  | nil => exact List.Pairwise.nil
  | cons b bs ih =>
    have hrest := ih (a + (w + b.size)) fun c hc => h c (List.mem_cons_of_mem b hc)
    cases hb : b.request with
    | none =>
      rw [inUse_hole a bs hb]
      exact hrest
    | some n =>
      rw [inUse_used a bs hb]
      refine List.pairwise_cons.mpr ⟨fun y hy => ?_, hrest⟩
      obtain ⟨cs, c, ds, -, -, hx⟩ := mem_inUse hy
      have hn := h b List.mem_cons_self n hb
      rw [hx]
      change a + w + n + w ≤ _
      omega

/-- What was asked for ends before the next payload in use starts. -/
theorem inUse_apart (a : ℕ) {bs : List Block} (h : ∀ b ∈ bs, ∀ n ∈ b.request, n ≤ b.size) :
    (inUse w a bs).Pairwise fun x y => x.1 + x.2 ≤ y.1 :=
  (inUse_spread a h).imp fun hxy => by omega

theorem mem_heads {a x : ℕ} {bs : List Block} : x ∈ (places w a bs).map Prod.fst ↔
    ∃ cs b ds, bs = cs ++ b :: ds ∧ x = a + extent w cs := by
  constructor
  · intro hx
    obtain ⟨y, hy, rfl⟩ := List.mem_map.mp hx
    obtain ⟨cs, ds, hbs, hplace⟩ := mem_places hy
    exact ⟨cs, y.2, ds, hbs, hplace⟩
  · rintro ⟨cs, b, ds, rfl, rfl⟩
    rw [places_append, List.map_append]
    exact List.mem_append_right _ List.mem_cons_self

theorem mem_holes_iff {a x : ℕ} {bs : List Block} : x ∈ holes w a bs ↔
    ∃ cs b ds, bs = cs ++ b :: ds ∧ b.request = none ∧ x = a + extent w cs := by
  constructor
  · exact mem_holes
  · rintro ⟨cs, b, ds, rfl, hb, rfl⟩
    rw [(holes_hole a cs ds hb).mem_iff]
    exact List.mem_cons_self

theorem mem_inUse_iff {a : ℕ} {x : ℕ × ℕ} {bs : List Block} : x ∈ inUse w a bs ↔
    ∃ cs b ds, bs = cs ++ b :: ds ∧ b.request = some x.2 ∧ x.1 = a + extent w cs + w := by
  constructor
  · exact mem_inUse
  · rintro ⟨cs, b, ds, rfl, hb, hx⟩
    rw [inUse_append, inUse_used _ _ hb, ← hx]
    exact List.mem_append_right _ List.mem_cons_self

theorem holes_nodup (hw : 0 < w) (a : ℕ) (bs : List Block) : (holes w a bs).Nodup := by
  unfold holes
  refine List.pairwise_map.mpr (List.Pairwise.filter _ ((places_apart a bs).imp fun hxy => ?_))
  omega

theorem lastPlace_snoc (p a : ℕ) (bs : List Block) (b : Block) :
    lastPlace w p a (bs ++ [b]) = a + extent w bs := by
  rw [lastPlace_append]
  rfl

theorem length_extent (bs : List Block) : w * bs.length ≤ extent w bs := by
  induction bs with
  | nil => simp
  | cons b bs ih =>
    rw [List.length_cons, Nat.mul_succ, extent_cons]
    omega

/-- The headers of the holes have room among the blocks. -/
theorem holes_extent (a : ℕ) (bs : List Block) : w * (holes w a bs).length ≤ extent w bs := by
  induction bs generalizing a with
  | nil => simp
  | cons b bs ih =>
    have hrest := ih (a + (w + b.size))
    rw [holes_cons, extent_cons]
    split_ifs
    · rw [List.length_cons, Nat.mul_succ]
      omega
    · omega

/-- The most room that free blocks in a row take, with `acc` in front of the first block and `u` behind the last. -/
def row (w u : ℕ) : ℕ → List Block → ℕ
  | acc, [] => acc + u
  | acc, b :: bs => if b.request.isNone then row w u (acc + (w + b.size)) bs else max acc (row w u 0 bs)

theorem row_nil (u acc : ℕ) : row w u acc [] = acc + u := rfl

theorem row_free (u acc : ℕ) {b : Block} (bs : List Block) (h : b.request = none) :
    row w u acc (b :: bs) = row w u (acc + (w + b.size)) bs := if_pos (Option.isNone_iff_eq_none.mpr h)

theorem row_used (u acc : ℕ) {b : Block} (bs : List Block) (h : b.request ≠ none) :
    row w u acc (b :: bs) = max acc (row w u 0 bs) := if_neg fun h' => h (Option.isNone_iff_eq_none.mp h')

/-- Two free neighbours take the room of one block. -/
theorem row_merge (u acc : ℕ) (bs ds : List Block) {b n : Block} (hb : b.request = none) (hn : n.request = none) :
    row w u acc (bs ++ ⟨b.size + n.size + w, none⟩ :: ds) = row w u acc (bs ++ b :: n :: ds) := by
  induction bs generalizing acc with
  | nil =>
    rw [List.nil_append, List.nil_append, row_free _ _ _ rfl, row_free _ _ _ hb, row_free _ _ _ hn]
    congr 1
    change acc + (w + (b.size + n.size + w)) = _
    omega
  | cons c bs ih => simp only [List.cons_append, row, ih]

theorem le_row (u acc : ℕ) (bs : List Block) : acc ≤ row w u acc bs ∧ u ≤ row w u acc bs := by
  induction bs generalizing acc with
  | nil => simp [row_nil]
  | cons b bs ih =>
    by_cases hb : b.request = none
    · rw [row_free u acc bs hb]
      have hrest := ih (acc + (w + b.size))
      omega
    · rw [row_used u acc bs hb]
      have hrest := ih 0
      omega

theorem le_row_of_free (u acc : ℕ) (bs ds : List Block) {b : Block} (hb : b.request = none) :
    w + b.size ≤ row w u acc (bs ++ b :: ds) ∧ (ds = [] → w + b.size + u ≤ row w u acc (bs ++ b :: ds)) := by
  induction bs generalizing acc with
  | nil =>
    rw [List.nil_append, row_free u acc ds hb]
    have hle := @le_row w u (acc + (w + b.size)) ds
    refine ⟨by omega, fun hds => ?_⟩
    rw [hds, row_nil]
    omega
  | cons c bs ih =>
    rw [List.cons_append]
    by_cases hc : c.request = none
    · rw [row_free u acc _ hc]
      exact ih _
    · rw [row_used u acc _ hc]
      obtain ⟨hrow, hlast⟩ := ih 0
      refine ⟨by omega, fun hds => ?_⟩
      have hend := hlast hds
      omega

/-- Free blocks that stand alone bound the rows. -/
theorem row_lt (u k : ℕ) (bs : List Block) (hu : u < k) (h : ∀ cs b ds, bs = cs ++ b :: ds → b.request = none →
    w + b.size < k ∧ (ds = [] → w + b.size + u < k) ∧ ∀ n es, ds = n :: es → n.request ≠ none) :
    row w u 0 bs < k := by
  induction bs with
  | nil => simpa [row_nil] using hu
  | cons b bs ih =>
    have hrest := ih fun cs c ds hcs => h (b :: cs) c ds (by rw [hcs, List.cons_append])
    by_cases hb : b.request = none
    · obtain ⟨hsize, hlast, hnext⟩ := h [] b bs rfl hb
      rw [row_free u 0 bs hb]
      cases bs with
      | nil =>
        have hl := hlast rfl
        rw [row_nil]
        omega
      | cons n es =>
        have hn := hnext n es rfl
        rw [row_used _ _ _ hn] at hrest ⊢
        omega
    · rw [row_used u 0 bs hb]
      omega

end Eedox.Library.Blocks
