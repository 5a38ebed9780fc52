import Eedox.UserHeapShape

namespace Eedox.UserHeapTiling

open Library.Bytes Library.Words Library.Blocks Library.DoublyLinked UserHeap UserHeapShape

def flag (b : Block) : ℕ := if b.request.isNone then 0 else 1

def heads (a : ℕ) (bs : List Block) : List ℕ := (places 16 a bs).map Prod.fst

/-- From `a` on, memory holds the sizes and the flags of the blocks. -/
def Rep (m : Mem) (a : ℕ) (bs : List Block) : Prop :=
  ∀ x ∈ places 16 a bs, (header m x.1).size = x.2.size ∧ (header m x.1).used = flag x.2

/-- The blocks fill the heap up to the break; one in use was asked for as a whole. -/
structure Tiled (h : Heap) (bs : List Block) : Prop where
  rep : Rep h.mem h.root bs
  fills : h.brk = extent 16 bs
  room : h.brk ≤ h.size
  low : 0 < h.root
  word : h.root + h.size < 2 ^ 32
  aligned : ∀ b ∈ bs, b.size % 4 = 0
  whole : ∀ b ∈ bs, ∀ n ∈ b.request, n = b.size

def Listed (h : Heap) (free : List ℕ) : Prop :=
  Linked (fun a => (header h.mem a).nextFree) (fun a => (header h.mem a).prevFree) 0 h.free free

/-- And the free ones are on the free list, in that order. -/
structure Shaped (h : Heap) (bs : List Block) (free : List ℕ) : Prop where
  tiled : Tiled h bs
  listed : Listed h free
  perm : free.Perm (holes 16 h.root bs)

section Blocks

variable {m m' : Mem} {a x : ℕ} {bs cs : List Block} {b : Block}

theorem flag_none (h : b.request = none) : flag b = 0 := by
  unfold flag
  rw [h]
  rfl

theorem flag_some {n : ℕ} (h : b.request = some n) : flag b = 1 := by
  unfold flag
  rw [h]
  rfl

theorem flag_eq_zero : flag b = 0 ↔ b.request = none := by
  unfold flag
  cases b.request <;> simp

theorem heads_append : heads a (bs ++ cs) = heads a bs ++ heads (a + extent 16 bs) cs := by
  rw [heads, places_append, List.map_append]
  rfl

@[simp] theorem heads_cons : heads a (b :: bs) = a :: heads (a + (16 + b.size)) bs := rfl

@[simp] theorem heads_nil : heads a [] = [] := rfl

theorem heads_clear {x y : ℕ} (hx : x ∈ heads a bs) (hy : y ∈ heads a bs) : Clear x y := by
  obtain ⟨p, hp, rfl⟩ := List.mem_map.mp hx
  obtain ⟨q, hq, rfl⟩ := List.mem_map.mp hy
  rcases places_distinct hp hq with rfl | hpq | hqp
  · exact Or.inl rfl
  · exact Or.inr (Or.inr (by omega))
  · exact Or.inr (Or.inl (by omega))

theorem heads_bounds (hx : x ∈ heads a bs) : a ≤ x ∧ x + 16 ≤ a + extent 16 bs := by
  obtain ⟨cs, b, ds, rfl, rfl⟩ := mem_heads.mp hx
  rw [extent_append, extent_cons]
  omega

theorem holes_subset (hx : x ∈ holes 16 a bs) : x ∈ heads a bs := by
  obtain ⟨cs, b, ds, hbs, -, hplace⟩ := mem_holes hx
  exact mem_heads.mpr ⟨cs, b, ds, hbs, hplace⟩

theorem rep_append : Rep m a (bs ++ cs) ↔ Rep m a bs ∧ Rep m (a + extent 16 bs) cs := by
  unfold Rep
  rw [places_append, List.forall_mem_append]

theorem rep_cons : Rep m a (b :: bs) ↔
    ((header m a).size = b.size ∧ (header m a).used = flag b) ∧ Rep m (a + (16 + b.size)) bs := by
  unfold Rep
  rw [places, List.forall_mem_cons]

theorem rep_nil : Rep m a [] := fun _ hx => absurd hx List.not_mem_nil

theorem Rep.congr (hr : Rep m a bs) (h : ∀ x ∈ heads a bs,
    (header m' x).size = (header m x).size ∧ (header m' x).used = (header m x).used) : Rep m' a bs := by
  intro x hx
  obtain ⟨hsize, hused⟩ := h x.1 (List.mem_map.mpr ⟨x, hx, rfl⟩)
  rw [hsize, hused]
  exact hr x hx

theorem extent_aligned (h : ∀ b ∈ bs, b.size % 4 = 0) : extent 16 bs % 4 = 0 := by
  induction bs with
  | nil => rfl
  | cons b bs ih =>
    have hb := h b List.mem_cons_self
    have hrest := ih fun c hc => h c (List.mem_cons_of_mem b hc)
    rw [extent_cons]
    omega

end Blocks

section Tiled

variable {h : Heap} {bs ds : List Block} {b : Block}

theorem Tiled.bounded (ht : Tiled h (bs ++ b :: ds)) :
    extent 16 bs + (16 + b.size) + extent 16 ds = h.brk := by
  rw [ht.fills, extent_append, extent_cons]
  omega

theorem Tiled.header_eq (ht : Tiled h (bs ++ b :: ds)) : (header h.mem (h.root + extent 16 bs)).size = b.size ∧
    (header h.mem (h.root + extent 16 bs)).used = flag b :=
  (rep_cons.mp (rep_append.mp ht.rep).2).1

theorem Tiled.next_eq (ht : Tiled h (bs ++ b :: ds)) :
    objectHeaderNext h.mem (h.root + extent 16 bs) = h.root + extent 16 bs + (16 + b.size) := by
  have hb := ht.bounded
  have hw := ht.word
  have hr := ht.room
  have ha := ht.aligned b (by simp)
  unfold objectHeaderNext wordSize headerSize
  rw [ht.header_eq.1, add32_of_lt (by omega)]
  omega

theorem Tiled.end_eq (ht : Tiled h bs) : heapEnd h = h.root + h.brk := by
  have hw := ht.word
  have hr := ht.room
  have ha := extent_aligned ht.aligned
  rw [← ht.fills] at ha
  unfold heapEnd wordSize
  rw [add32_of_lt (by omega)]
  omega

theorem Tiled.isEnd_iff (ht : Tiled h (bs ++ b :: ds)) :
    heapIsEnd h (h.root + extent 16 bs) = true ↔ ds = [] := by
  have hb := ht.bounded
  unfold heapIsEnd
  rw [ht.next_eq, ht.end_eq, decide_eq_true_eq]
  cases ds with
  | nil =>
    rw [extent_nil] at hb
    simp only [iff_true]
    omega
  | cons d ds =>
    rw [extent_cons] at hb
    simp only [reduceCtorEq, iff_false]
    omega

theorem Tiled.second {d : Block} (ht : Tiled h (bs ++ b :: d :: ds)) :
    (header h.mem (h.root + extent 16 bs + (16 + b.size))).size = d.size ∧
      (header h.mem (h.root + extent 16 bs + (16 + b.size))).used = flag d := by
  rw [List.append_cons] at ht
  have hd := ht.header_eq
  rwa [extent_append, extent_cons, extent_nil, Nat.add_zero, ← Nat.add_assoc] at hd

theorem Tiled.not_null {d : Block} (ht : Tiled h (bs ++ b :: d :: ds)) :
    objectHeaderIsNull h (h.root + extent 16 bs + (16 + b.size)) = false := by
  have hb := ht.bounded
  unfold objectHeaderIsNull
  rw [ht.end_eq, decide_eq_false_iff_not]
  rw [extent_cons] at hb
  omega

theorem Tiled.untouched_eq (ht : Tiled h bs) : heapUntouchedMemory h = h.size - h.brk :=
  sub32_of_le ht.room (by have hw := ht.word; have hl := ht.low; omega)

theorem Tiled.zero_notMem (ht : Tiled h bs) : 0 ∉ heads h.root bs := fun h0 => by
  have hb := (heads_bounds h0).1
  have hl := ht.low
  omega

theorem Tiled.heads_lt (ht : Tiled h bs) {x : ℕ} (hx : x ∈ heads h.root bs) : x < 2 ^ 32 := by
  have hb := (heads_bounds hx).2
  have hr := ht.room
  have hw := ht.word
  rw [← ht.fills] at hb
  omega

/-- A new middle part, where the sizes and flags of the other blocks stay. -/
theorem Tiled.replace {h' : Heap} (mid mid' : List Block) (ht : Tiled h (bs ++ (mid ++ ds))) (hmid : mid ≠ [])
    (hroot : h'.root = h.root) (hsize : h'.size = h.size) (hbrk : h'.brk = extent 16 (bs ++ (mid' ++ ds)))
    (hroom : h'.brk ≤ h.size) (hextent : ds = [] ∨ extent 16 mid' = extent 16 mid)
    (hrep : Rep h'.mem (h.root + extent 16 bs) mid')
    (hnew : ∀ c ∈ mid', c.size % 4 = 0 ∧ ∀ n ∈ c.request, n = c.size)
    (hout : ∀ x ∈ heads h.root (bs ++ (mid ++ ds)), x ≠ h.root + extent 16 bs →
      (header h'.mem x).size = (header h.mem x).size ∧ (header h'.mem x).used = (header h.mem x).used) :
    Tiled h' (bs ++ (mid' ++ ds)) := by
  obtain ⟨hbs, hrest⟩ := rep_append.mp ht.rep
  have hds := (rep_append.mp hrest).2
  have hside (c : Block) (hc : c ∈ bs ++ (mid' ++ ds)) : c ∈ mid' ∨ c ∈ bs ++ (mid ++ ds) := by
    simp only [List.mem_append] at hc ⊢
    tauto
  refine ⟨?_, hbrk, by rw [hsize]; exact hroom, by rw [hroot]; exact ht.low, by rw [hroot, hsize]; exact ht.word,
    fun c hc => (hside c hc).elim (fun hc => (hnew c hc).1) (ht.aligned c),
    fun c hc => (hside c hc).elim (fun hc => (hnew c hc).2) (ht.whole c)⟩
  rw [hroot, rep_append, rep_append]
  refine ⟨hbs.congr fun x hx => hout x ?_ ?_, hrep, ?_⟩
  · rw [heads_append]
    exact List.mem_append_left _ hx
  · have hb := (heads_bounds hx).2
    omega
  · rcases hextent with rfl | he
    · exact rep_nil
    · rw [he]
      refine hds.congr fun x hx => hout x ?_ ?_
      · rw [heads_append, heads_append]
        exact List.mem_append_right _ (List.mem_append_right _ hx)
      · have hb := (heads_bounds hx).1
        cases mid with
        | nil => exact absurd rfl hmid
        | cons c mid =>
          rw [extent_cons] at hb
          omega

end Tiled

theorem Listed.of_links {h h' : Heap} {free : List ℕ} (hl : Listed h free) (hfree : h'.free = h.free)
    (hsame : ∀ x ∈ free, (header h'.mem x).nextFree = (header h.mem x).nextFree ∧
      (header h'.mem x).prevFree = (header h.mem x).prevFree) : Listed h' free := by
  unfold Listed
  rw [hfree]
  exact hl.congr (fun x hx => (hsame x hx).1) fun x hx => (hsame x hx).2

section Shaped

variable {h : Heap} {bs ds : List Block} {b : Block} {free : List ℕ} {x : ℕ}

theorem Shaped.nodup (hs : Shaped h bs free) : free.Nodup := hs.perm.nodup_iff.mpr (holes_nodup (by omega) _ _)

theorem Shaped.subset (hs : Shaped h bs free) (hx : x ∈ free) : x ∈ heads h.root bs :=
  holes_subset (hs.perm.mem_iff.mp hx)

theorem Shaped.nextFree_mem (hs : Shaped h bs free) (hx : x ∈ free) (hn : (header h.mem x).nextFree ≠ 0) :
    (header h.mem x).nextFree ∈ free :=
  ((hs.listed.prev_next hx).resolve_left hn).1

theorem Shaped.free_mem (hs : Shaped h bs free) (hf : h.free ≠ 0) : h.free ∈ free := by
  have hl := hs.listed
  cases free with
  | nil => exact absurd hl hf
  | cons a free =>
    rw [hl.1]
    exact List.mem_cons_self

theorem Shaped.place (hs : Shaped h bs free) (hx : x ∈ free) :
    ∃ cs b ds, bs = cs ++ b :: ds ∧ b.request = none ∧ x = h.root + extent 16 cs :=
  mem_holes (hs.perm.mem_iff.mp hx)

theorem Shaped.mem_free (hs : Shaped h (bs ++ b :: ds) free) (hb : b.request = none) :
    h.root + extent 16 bs ∈ free :=
  hs.perm.mem_iff.mpr (mem_holes_iff.mpr ⟨bs, b, ds, rfl, hb, rfl⟩)

theorem Shaped.second_mem {n : Block} (hs : Shaped h (bs ++ b :: n :: ds) free) (hn : n.request = none) :
    h.root + extent 16 bs + (16 + b.size) ∈ free := by
  rw [List.append_cons] at hs
  have hfree := hs.mem_free hn
  rwa [extent_append, extent_cons, extent_nil, Nat.add_zero, ← Nat.add_assoc] at hfree

theorem head_mem {a : ℕ} : a + extent 16 bs ∈ heads a (bs ++ b :: ds) := mem_heads.mpr ⟨bs, b, ds, rfl, rfl⟩

end Shaped

end Eedox.UserHeapTiling
