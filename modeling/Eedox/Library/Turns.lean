import Mathlib.Data.List.Basic
import Eedox.Library.Runs

namespace Eedox.Library.Turns

open Runs

variable {σ α ι : Type*}

/-- The queue loses at most its head, and what comes to it comes to its end. -/
def Moves (q q' : List ι) : Prop := ∃ n ≤ 1, ∃ extra, q' = q.drop n ++ extra

theorem moves_append (q extra : List ι) : Moves q (q ++ extra) := ⟨0, Nat.zero_le 1, extra, rfl⟩

theorem moves_refl (q : List ι) : Moves q q := ⟨0, Nat.zero_le 1, [], (List.append_nil q).symm⟩

theorem moves_tail (q extra : List ι) : Moves q (q.tail ++ extra) := ⟨1, Nat.le_refl 1, extra, by rw [List.drop_one]⟩

theorem Moves.after_append {q q' : List ι} (extra : List ι) (h : Moves (q ++ extra) q') (hq : q ≠ []) : Moves q q' := by
  obtain ⟨n, hn, more, rfl⟩ := h
  have hlen : n ≤ q.length := Nat.le_trans hn (List.length_pos_iff.mpr hq)
  exact ⟨n, hn, extra ++ more, by rw [List.drop_append_of_le_length hlen, List.append_assoc]⟩

/-- Whoever is behind the head is at its old place or one further to the front. -/
theorem Moves.getElem? {q q' : List ι} (h : Moves q q') {i : ℕ} {x : ι} (hx : q[i + 1]? = some x) :
    q'[i + 1]? = some x ∨ q'[i]? = some x := by
  obtain ⟨n, hn, extra, rfl⟩ := h
  have hlen := (List.getElem?_eq_some_iff.mp hx).1
  rcases Nat.le_one_iff_eq_zero_or_eq_one.mp hn with rfl | rfl
  · left
    rw [List.drop_zero, List.getElem?_append_left hlen, hx]
  · right
    rw [List.getElem?_append_left (by rw [List.length_drop]; omega), List.getElem?_drop, Nat.add_comm, hx]

/-- A machine with a queue, which a tick turns unless there is only one in it. -/
structure Turning (step : σ → α → Option σ) (queue : σ → List ι) (tick : α → Bool) (inv : σ → Prop) : Prop where
  preserve : ∀ s a t, inv s → step s a = some t → inv t
  moves : ∀ s a t, inv s → step s a = some t → Moves (queue s) (queue t)
  turns : ∀ s a t, inv s → tick a = true → step s a = some t → 1 < (queue s).length →
    ∃ extra, queue t = (queue s).tail ++ extra

/-- Whoever is at a place of the queue is at its head before there have been more ticks than others were before. -/
theorem Turning.served {step : σ → α → Option σ} {queue : σ → List ι} {tick : α → Bool} {inv : σ → Prop}
    (h : Turning step queue tick inv) {s u : σ} {i : ℕ} {x : ι} {as : List α} (hs : inv s)
    (hx : (queue s)[i]? = some x) (hrun : exec step s as = some u) (hticks : i ≤ as.countP tick) :
    ∃ bs t, bs <+: as ∧ bs.countP tick ≤ i ∧ exec step s bs = some t ∧ (queue t).head? = some x := by
  induction as generalizing s i with
  | nil =>
    obtain rfl : i = 0 := Nat.le_zero.mp hticks
    exact ⟨[], s, List.nil_prefix, Nat.zero_le _, rfl, by rw [List.head?_eq_getElem?, hx]⟩
  | cons a as ih =>
    cases i with
    | zero => exact ⟨[], s, List.nil_prefix, Nat.zero_le _, rfl, by rw [List.head?_eq_getElem?, hx]⟩
    | succ i =>
      obtain ⟨v, hv, hrest⟩ := exec_cons.mp hrun
      have hinv := h.preserve s a v hs hv
      have hlater {j : ℕ} (hj : (queue v)[j]? = some x) (hcount : j ≤ as.countP tick)
          (hle : j + (if tick a = true then 1 else 0) ≤ i + 1) : ∃ bs t, bs <+: a :: as ∧
            bs.countP tick ≤ i + 1 ∧ exec step s bs = some t ∧ (queue t).head? = some x := by
        obtain ⟨bs, t, hb, hc, ht, hhead⟩ := ih hinv hj hrest hcount
        refine ⟨a :: bs, t, List.cons_prefix_cons.mpr ⟨rfl, hb⟩, ?_, exec_cons.mpr ⟨v, hv, ht⟩, hhead⟩
        rw [List.countP_cons]
        omega
      rw [List.countP_cons] at hticks
      by_cases ha : tick a = true
      · rw [if_pos ha] at hticks
        have hlen := (List.getElem?_eq_some_iff.mp hx).1
        obtain ⟨extra, hq⟩ := h.turns s a v hs ha hv (by omega)
        apply hlater (j := i)
        · rw [hq, List.getElem?_append_left (by rw [List.length_tail]; omega), List.getElem?_tail, hx]
        · omega
        · simp [ha]
      · have hno : (if tick a = true then 1 else 0) = 0 := if_neg ha
        rcases (h.moves s a v hs hv).getElem? hx with hj | hj
        · exact hlater hj (by omega) (by omega)
        · exact hlater hj (by omega) (by omega)

end Eedox.Library.Turns
