import Eedox.KernelHeap
import Eedox.Library.Blocks
import Mathlib.Data.List.Chain

namespace Eedox.HeapTiling

open Library.Bytes Library.Words Library.Blocks KernelHeap

def flag (b : Block) : ℕ := if b.request.isNone then 1 else 0

/-- From `a` on, memory holds the headers of the blocks, the first with `p` for its predecessor. -/
def Rep (m : Mem) : ℕ → ℕ → List Block → Prop
  | _, _, [] => True
  | a, p, b :: bs => header m a = ⟨flag b, b.size, p⟩ ∧ Rep m (a + (9 + b.size)) a bs

theorem rep_append {m : Mem} {a p : ℕ} {bs cs : List Block} : Rep m a p (bs ++ cs) ↔
    Rep m a p bs ∧ Rep m (a + extent 9 bs) (lastPlace 9 p a bs) cs := by
  induction bs generalizing a p with
  | nil => simp [Rep, lastPlace]
  | cons b bs ih =>
    rw [List.cons_append, Rep, ih, Rep, extent_cons, lastPlace, and_assoc, Nat.add_assoc a]

theorem rep_congr {m m' : Mem} {a p : ℕ} {bs : List Block}
    (hm : ∀ x, a ≤ x → x < a + extent 9 bs → m' x = m x) : Rep m' a p bs ↔ Rep m a p bs := by
  induction bs generalizing a p with
  | nil => rfl
  | cons b bs ih =>
    rw [extent_cons] at hm
    rw [Rep, Rep, ih fun x h1 h2 => hm x (by omega) (by omega),
      header_congr fun x h1 h2 => hm x h1 (by omega)]

/-- Some blocks in the middle are replaced by others that take the same room. -/
theorem Rep.splice {m m' : Mem} {a p : ℕ} {bs cs cs' ds : List Block}
    (h : Rep m a p (bs ++ (cs ++ ds)))
    (hnew : Rep m' (a + extent 9 bs) (lastPlace 9 p a bs) cs') (he : extent 9 cs' = extent 9 cs)
    (hbefore : ∀ x, a ≤ x → x < a + extent 9 bs → m' x = m x)
    (hnext : ∀ d ds', ds = d :: ds' → header m' (a + extent 9 bs + extent 9 cs) =
      { header m (a + extent 9 bs + extent 9 cs) with
        prev := lastPlace 9 (lastPlace 9 p a bs) (a + extent 9 bs) cs' })
    (hafter : ∀ x, a + extent 9 bs + extent 9 cs + 9 ≤ x → m' x = m x) :
    Rep m' a p (bs ++ (cs' ++ ds)) := by
  rw [rep_append, rep_append] at h ⊢
  obtain ⟨hbs, -, hds⟩ := h
  refine ⟨(rep_congr hbefore).mpr hbs, hnew, ?_⟩
  rw [he]
  cases ds with
  | nil => trivial
  | cons d ds =>
    obtain ⟨hd, hrest⟩ := hds
    refine ⟨?_, (rep_congr fun x hx _ => hafter x (by omega)).mpr hrest⟩
    rw [hnext d ds rfl, hd]

/-- The blocks fill the heap, and each has a payload. -/
structure Tiled (h : Heap) (bs : List Block) : Prop where
  rep : Rep h.mem h.start 0 bs
  fills : extent 9 bs = 9 + h.size
  positive : ∀ b ∈ bs, 0 < b.size
  low : 1 < h.start
  word : h.start + (9 + h.size) < 2 ^ 32

/-- No hole follows a hole. -/
def Separate (bs : List Block) : Prop := bs.IsChain fun b c => b.request = none → c.request ≠ none

variable {h : Heap} {bs ds : List Block} {b : Block}

theorem Tiled.header_eq (ht : Tiled h (bs ++ b :: ds)) : header h.mem (h.start + extent 9 bs) =
    ⟨flag b, b.size, lastPlace 9 0 h.start bs⟩ := (rep_append.mp ht.rep).2.1

theorem Tiled.header_first (ht : Tiled h (b :: ds)) : header h.mem h.start = ⟨flag b, b.size, 0⟩ := ht.rep.1

theorem Tiled.bounded (ht : Tiled h (bs ++ b :: ds)) :
    extent 9 bs + (9 + b.size) + extent 9 ds = 9 + h.size := by
  have he := ht.fills
  rw [extent_append, extent_cons] at he
  omega

theorem Tiled.next_eq (ht : Tiled h (bs ++ b :: ds)) : hheaderNext h.mem (h.start + extent 9 bs) =
    h.start + extent 9 bs + (9 + b.size) := by
  have hb := ht.bounded
  have hw := ht.word
  unfold hheaderNext
  rw [ht.header_eq, hheaderSize, @add32_of_lt _ 9 (by omega)]
  change add32 _ b.size = _
  rw [add32_of_lt (by omega)]
  omega

theorem Tiled.end_eq (ht : Tiled h bs) : heapEnd h = h.start + h.size := by
  have hw := ht.word
  exact add32_of_lt (by omega)

theorem Tiled.valid_iff (ht : Tiled h (bs ++ b :: ds)) :
    hheaderIsvalid h (h.start + extent 9 bs + (9 + b.size)) = true ↔ ds ≠ [] := by
  have hb := ht.bounded
  rw [hheaderIsvalid, ht.end_eq, decide_eq_true_eq]
  cases ds with
  | nil =>
    rw [extent_nil] at hb
    simp only [ne_eq, not_true_eq_false, iff_false]
    omega
  | cons d ds =>
    have hd := ht.positive d (by simp)
    rw [extent_cons] at hb
    simp only [ne_eq, reduceCtorEq, not_false_eq_true, iff_true]
    omega

theorem Tiled.relist (ht : Tiled h bs) (index : List ℕ) (watcher : List (ℕ × ℕ)) :
    Tiled { h with index := index, watcher := watcher } bs :=
  ⟨ht.rep, ht.fills, ht.positive, ht.low, ht.word⟩

theorem flag_ne_zero {b : Block} : flag b ≠ 0 ↔ b.request = none := by
  unfold flag
  cases b.request <;> simp

theorem lastPlace_eq (bs : List Block) (a : ℕ) :
    (bs = [] ∧ lastPlace 9 0 a bs = 0) ∨
      ∃ cs b, bs = cs ++ [b] ∧ lastPlace 9 0 a bs = a + extent 9 cs := by
  rcases List.eq_nil_or_concat bs with rfl | ⟨cs, b, rfl⟩
  · exact Or.inl ⟨rfl, rfl⟩
  · exact Or.inr ⟨cs, b, List.concat_eq_append, by rw [List.concat_eq_append, lastPlace_snoc]⟩

/-- Step over the header behind: it ends here, and only one of the two is a hole. -/
theorem Tiled.check_prev (ht : Tiled h (bs ++ b :: ds)) (hs : Separate (bs ++ b :: ds)) :
    let prev := lastPlace 9 0 h.start bs
    prev ≤ h.start + extent 9 bs ∧
      ¬(prev ≥ h.start ∧ add32 (add32 prev hheaderSize) (header h.mem prev).size ≠
        h.start + extent 9 bs) ∧
      ¬(prev ≥ h.start ∧ (header h.mem prev).isHole ≠ 0 ∧ flag b ≠ 0) := by
  intro prev
  have hl := ht.low
  rcases lastPlace_eq bs h.start with ⟨-, hp⟩ | ⟨cs, c, rfl, hp⟩
  · rw [show prev = 0 from hp]
    omega
  · rw [List.append_assoc, List.singleton_append] at ht hs
    have hn := ht.next_eq
    rw [show prev = h.start + extent 9 cs from hp]
    unfold hheaderNext at hn
    rw [hn, ht.header_eq, extent_append, extent_cons, extent_nil]
    refine ⟨by omega, by omega, fun ⟨_, hc, hb⟩ => ?_⟩
    have hcb := (List.isChain_cons_cons.mp (List.isChain_append.mp hs).2.1).1
    exact hcb (flag_ne_zero.mp hc) (flag_ne_zero.mp hb)

/-- Step over the header in front, if there is one. -/
theorem Tiled.check_next {d : Block} (ht : Tiled h (bs ++ b :: d :: ds))
    (hs : Separate (bs ++ b :: d :: ds)) :
    (header h.mem (h.start + extent 9 bs + (9 + b.size))).prev = h.start + extent 9 bs ∧
      ¬(flag b ≠ 0 ∧ (header h.mem (h.start + extent 9 bs + (9 + b.size))).isHole ≠ 0) := by
  have hcb := (List.isChain_cons_cons.mp (List.isChain_append.mp hs).2.1).1
  rw [List.append_cons] at ht
  have hd := ht.header_eq
  rw [extent_append, extent_cons, extent_nil, Nat.add_zero, ← Nat.add_assoc h.start, lastPlace_snoc] at hd
  rw [hd]
  exact ⟨rfl, fun ⟨hb, hc⟩ => hcb (flag_ne_zero.mp hb) (flag_ne_zero.mp hc)⟩

theorem flag_le (b : Block) : ¬flag b > 1 := by
  unfold flag
  split_ifs <;> omega

theorem Tiled.checkFrom_passed (ht : Tiled h (bs ++ b :: ds)) (hs : Separate (bs ++ b :: ds))
    {fuel : ℕ} (hf : ds.length < fuel) : checkFrom h fuel (h.start + extent 9 bs) = .passed := by
  induction ds generalizing bs b fuel with
  | nil =>
    cases fuel with
    | zero => omega
    | succ fuel =>
      obtain ⟨h1, h2, h3⟩ := ht.check_prev hs
      have hv := ht.valid_iff
      rw [hheaderIsvalid, decide_eq_true_eq] at hv
      unfold checkFrom
      simp only [ht.header_eq, ht.next_eq]
      rw [if_neg (not_or.mpr ⟨flag_le b, by omega⟩), if_neg h2, if_neg h3, if_pos (by simpa using hv)]
  | cons d ds ih =>
    cases fuel with
    | zero => omega
    | succ fuel =>
      obtain ⟨h1, h2, h3⟩ := ht.check_prev hs
      obtain ⟨h4, h5⟩ := ht.check_next hs
      have hv := ht.valid_iff
      rw [hheaderIsvalid, decide_eq_true_eq] at hv
      unfold checkFrom
      simp only [ht.header_eq, ht.next_eq]
      rw [if_neg (not_or.mpr ⟨flag_le b, by omega⟩), if_neg h2, if_neg h3, if_neg (by simpa using hv),
        if_neg (not_not.mpr h4), if_neg h5]
      rw [List.append_cons] at ht hs
      have hgo := ih ht hs (by simpa using hf)
      rwa [extent_append, extent_cons, extent_nil, Nat.add_zero, ← Nat.add_assoc h.start] at hgo

theorem Tiled.ne_nil (ht : Tiled h bs) : bs ≠ [] := by
  intro hb
  have he := ht.fills
  rw [hb, extent_nil] at he
  omega

theorem Tiled.heapCheck_passed (ht : Tiled h bs) (hs : Separate bs) : heapCheck h = .passed := by
  cases bs with
  | nil => exact absurd rfl ht.ne_nil
  | cons b ds =>
    have hb := ht.fills
    rw [extent_cons] at hb
    have hl := length_extent (w := 9) ds
    exact @Tiled.checkFrom_passed h [] ds b ht hs _ (by omega)

end Eedox.HeapTiling
