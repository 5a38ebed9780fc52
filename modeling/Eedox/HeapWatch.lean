import Eedox.KernelHeap

namespace Eedox.HeapWatch

open Library.Words KernelHeap

/-- The records in use: one that is free has the null pointer. -/
def records (watcher : List (ℕ × ℕ)) : List (ℕ × ℕ) := watcher.filter fun r => r.1 ≠ 0

variable {watcher recs : List (ℕ × ℕ)} {rec : ℕ × ℕ} {ptr size : ℕ}

theorem records_cons (r : ℕ × ℕ) (recs : List (ℕ × ℕ)) :
    records (r :: recs) = if r.1 ≠ 0 then r :: records recs else records recs := by
  unfold records
  rw [List.filter_cons]
  simp only [decide_eq_true_eq]

theorem reuseRecord_perm (h : reuseRecord rec watcher = some recs) (hr : rec.1 ≠ 0) :
    (records recs).Perm (rec :: records watcher) ∧ recs.length = watcher.length := by
  induction watcher generalizing recs with
  | nil => cases h
  | cons r watcher ih =>
    unfold reuseRecord at h
    split at h
    · rename_i recs' hrecs
      obtain ⟨hperm, hlen⟩ := ih hrecs
      obtain rfl := Option.some.inj h
      refine ⟨?_, by rw [List.length_cons, List.length_cons, hlen]⟩
      rw [records_cons, records_cons]
      split_ifs
      · exact (hperm.cons r).trans (List.Perm.swap _ _ _)
      · exact hperm
    · split_ifs at h with h0
      obtain rfl := Option.some.inj h
      refine ⟨?_, rfl⟩
      rw [records_cons, records_cons, if_pos hr, if_neg (not_not.mpr h0)]

theorem reuseRecord_none (h : reuseRecord rec watcher = none) : records watcher = watcher := by
  induction watcher with
  | nil => rfl
  | cons r watcher ih =>
    unfold reuseRecord at h
    split at h
    · cases h
    · rename_i hrecs
      split_ifs at h with h0
      rw [records_cons, if_pos h0, ih hrecs]

theorem overlaps_apart (hpos : 0 < size) (hrec : 0 < rec.2) (hw : ptr + size ≤ 2 ^ 32 - 1)
    (hrw : rec.1 + rec.2 ≤ 2 ^ 32 - 1) (h : ptr + size ≤ rec.1 ∨ rec.1 + rec.2 ≤ ptr) :
    overlaps ptr size rec = false := by
  unfold overlaps
  rw [add32_of_lt (by omega), add32_of_lt (by omega), sub32_of_le (by omega) (by omega),
    sub32_of_le (by omega) (by omega)]
  simp only [Bool.or_eq_false_iff, Bool.and_eq_false_iff, decide_eq_false_iff_not]
  omega

theorem heapwatchAlloc_spec (hsize : size ≠ 0) (hptr : ptr ≠ 0)
    (hapart : ∀ r ∈ records watcher, overlaps ptr size r = false) (hlen : watcher.length ≤ 1024)
    (hroom : (records watcher).length < 1024) :
    ∃ recs, heapwatchAlloc watcher ptr size = some recs ∧
      (records recs).Perm ((ptr, size) :: records watcher) ∧ recs.length ≤ 1024 := by
  have hany : ¬watcher.any fun r => r.1 ≠ 0 && overlaps ptr size r := by
    simp only [List.any_eq_true, Bool.and_eq_true, decide_eq_true_eq, not_exists, not_and]
    intro r hr h0
    rw [hapart r (List.mem_filter.mpr ⟨hr, decide_eq_true h0⟩)]
    simp
  unfold heapwatchAlloc
  rw [if_neg (not_or.mpr ⟨hsize, hptr⟩), if_neg hany]
  cases hr : reuseRecord (ptr, size) watcher with
  | some recs =>
    obtain ⟨hperm, hl⟩ := reuseRecord_perm hr hptr
    exact ⟨recs, rfl, hperm, hl.trans_le hlen⟩
  | none =>
    have hall := reuseRecord_none hr
    rw [hall] at hroom ⊢
    refine ⟨watcher ++ [(ptr, size)], if_neg (by omega), ?_, by rw [List.length_append]; simp; omega⟩
    have hcat : records (watcher ++ [(ptr, size)]) = watcher ++ [(ptr, size)] := by
      conv_rhs => rw [← hall]
      unfold records
      rw [List.filter_append, List.filter_cons, if_pos (by simpa using hptr), List.filter_nil]
    rw [hcat]
    exact List.perm_append_singleton _ _

theorem heapwatchAlloc_full (hsize : size ≠ 0) (hptr : ptr ≠ 0) (hlen : watcher.length ≤ 1024)
    (hfull : 1024 ≤ (records watcher).length) : heapwatchAlloc watcher ptr size = none := by
  unfold heapwatchAlloc
  rw [if_neg (not_or.mpr ⟨hsize, hptr⟩)]
  by_cases hany : watcher.any fun r => r.1 ≠ 0 && overlaps ptr size r
  · rw [if_pos hany]
  · rw [if_neg hany]
    cases hr : reuseRecord (ptr, size) watcher with
    | some recs =>
      obtain ⟨hperm, hl⟩ := reuseRecord_perm hr hptr
      have hsub := List.length_filter_le (fun r => r.1 ≠ 0) recs
      have hcount := hperm.length_eq
      rw [List.length_cons] at hcount
      unfold records at hcount hfull
      omega
    | none =>
      have hsub := List.length_filter_le (fun r => r.1 ≠ 0) watcher
      unfold records at hfull
      exact if_pos (by omega)

theorem clearRecord_spec (hptr : ptr ≠ 0) (h : ∃ r ∈ records watcher, r.1 = ptr) :
    ∃ recs n, clearRecord ptr watcher = some recs ∧
      (records watcher).Perm ((ptr, n) :: records recs) ∧ recs.length = watcher.length := by
  induction watcher with
  | nil =>
    obtain ⟨r, hr, -⟩ := h
    cases hr
  | cons r watcher ih =>
    unfold clearRecord
    by_cases hr : r.1 = ptr
    · refine ⟨(0, 0) :: watcher, r.2, if_pos hr, ?_, rfl⟩
      rw [records_cons, records_cons, if_pos (by rw [hr]; exact hptr), if_neg (by simp), ← hr]
    · have hrest : ∃ r ∈ records watcher, r.1 = ptr := by
        obtain ⟨s, hs, hp⟩ := h
        rw [records_cons] at hs
        split_ifs at hs
        · rcases List.mem_cons.mp hs with rfl | hs
          · exact absurd hp hr
          · exact ⟨s, hs, hp⟩
        · exact ⟨s, hs, hp⟩
      obtain ⟨recs, n, hc, hperm, hlen⟩ := ih hrest
      refine ⟨r :: recs, n, by rw [if_neg hr, hc]; rfl, ?_, by rw [List.length_cons, List.length_cons, hlen]⟩
      rw [records_cons, records_cons]
      split_ifs
      · exact (hperm.cons r).trans (List.Perm.swap _ _ _)
      · exact hperm

end Eedox.HeapWatch
