import Eedox.HeapWatch
import Eedox.Library.Runs

namespace Eedox.WatcherRuns

open Library.Words Library.Runs KernelHeap HeapWatch

inductive Call
  | alloc (ptr size : ℕ)
  | free (ptr : ℕ)

/-- A call that panics ends the run. -/
def step (watcher : List (ℕ × ℕ)) : Call → Option (List (ℕ × ℕ))
  | .alloc ptr size => heapwatchAlloc watcher ptr size
  | .free ptr => heapwatchFree watcher ptr

/-- A range of at least a byte that does not wrap. -/
def Ranged (rec : ℕ × ℕ) : Prop := 0 < rec.2 ∧ rec.1 + rec.2 ≤ 2 ^ 32

def Call.Valid : Call → Prop
  | .alloc ptr size => Ranged (ptr, size)
  | .free _ => True

/-- The two ranges have a byte in common. -/
def Shares (r s : ℕ × ℕ) : Prop := r.1 < s.1 + s.2 ∧ s.1 < r.1 + r.2

/-- The first range begins below the second and ends above it. -/
def Encloses (r s : ℕ × ℕ) : Prop := r.1 < s.1 ∧ s.1 + s.2 < r.1 + r.2

def Disjoint (watcher : List (ℕ × ℕ)) : Prop := (records watcher).Pairwise fun r s => ¬ Shares r s

/-- A call that returns has recorded a range apart from all others, or found the start of a live one. -/
def Right (watcher : List (ℕ × ℕ)) : Call → Prop
  | .alloc ptr size => ∀ r ∈ records watcher, ¬ Shares (ptr, size) r
  | .free ptr => ∃ r ∈ records watcher, r.1 = ptr

/-- The live ranges are apart, and each of them can be freed at its start. -/
structure Sound (watcher : List (ℕ × ℕ)) : Prop where
  disjoint : Disjoint watcher
  freed : ∀ r ∈ records watcher, (heapwatchFree watcher r.1).isSome = true

/-- The new range does not enclose a live one. A call for the null pointer does nothing at all. -/
def Harmless (watcher : List (ℕ × ℕ)) : Call → Prop
  | .alloc ptr size => ∀ r ∈ records watcher, ¬ Encloses (ptr, size) r ∧ (ptr = 0 → size ≤ r.1)
  | .free ptr => ptr ≠ 0

instance (watcher : List (ℕ × ℕ)) : (c : Call) → Decidable (Harmless watcher c)
  | .alloc ptr size => inferInstanceAs (Decidable (∀ r ∈ records watcher,
      ¬ (ptr < r.1 ∧ r.1 + r.2 < ptr + size) ∧ (ptr = 0 → size ≤ r.1)))
  | .free ptr => inferInstanceAs (Decidable (ptr ≠ 0))

variable {watcher recs w : List (ℕ × ℕ)} {rec r s : ℕ × ℕ} {ptr size : ℕ} {c : Call} {calls : List Call}

theorem ne_zero_of_mem (h : r ∈ records watcher) : r.1 ≠ 0 := by
  simpa using (List.mem_filter.mp h).2

theorem shares_comm : Shares r s ↔ Shares s r := and_comm

/-- The test looks at the ends of the new range: it misses what this encloses. -/
theorem shares_iff (hr : Ranged r) (hs : Ranged s) :
    Shares r s ↔ overlaps r.1 r.2 s = true ∨ Encloses r s := by
  obtain ⟨hr, hrw⟩ := hr
  obtain ⟨hs, hsw⟩ := hs
  have hend (p n : ℕ) (hn : 0 < n) (hp : p + n ≤ 2 ^ 32) : sub32 (add32 p n) 1 = p + n - 1 := by
    unfold sub32 add32
    omega
  unfold overlaps Shares Encloses
  simp only [hend _ _ hr hrw, hend _ _ hs hsw, Bool.or_eq_true, Bool.and_eq_true, decide_eq_true_eq]
  omega

theorem heapwatchAlloc_some (h : heapwatchAlloc watcher ptr size = some recs) (hsize : size ≠ 0) (hptr : ptr ≠ 0) :
    (∀ r ∈ records watcher, overlaps ptr size r = false) ∧
      (records recs).Perm ((ptr, size) :: records watcher) := by
  rw [heapwatchAlloc, if_neg (not_or.mpr ⟨hsize, hptr⟩)] at h
  by_cases hany : watcher.any fun r => r.1 ≠ 0 && overlaps ptr size r
  · rw [if_pos hany] at h
    cases h
  rw [if_neg hany] at h
  refine ⟨fun r hr => ?_, ?_⟩
  · by_contra hc
    apply hany
    rw [List.any_eq_true]
    refine ⟨r, (List.mem_filter.mp hr).1, ?_⟩
    simp only [Bool.not_eq_false] at hc
    simp [hc, ne_zero_of_mem hr]
  · split at h
    · rename_i recs' hreuse
      obtain rfl := Option.some.inj h
      exact (reuseRecord_perm hreuse hptr).1
    · obtain ⟨-, h⟩ := Option.ite_none_left_eq_some.mp h
      obtain rfl := Option.some.inj h
      rw [records, List.filter_append, List.filter_cons, if_pos (by simpa using hptr), List.filter_nil]
      exact List.perm_append_singleton _ _

theorem clearRecord_some (h : clearRecord ptr watcher = some recs) (hptr : ptr ≠ 0) :
    ∃ r ∈ records watcher, r.1 = ptr := by
  induction watcher generalizing recs with
  | nil => cases h
  | cons r watcher ih =>
    rw [clearRecord] at h
    split_ifs at h with hr
    · exact ⟨r, List.mem_filter.mpr ⟨List.mem_cons_self, by simpa [hr] using hptr⟩, hr⟩
    · obtain ⟨recs', hrecs, -⟩ := Option.map_eq_some_iff.mp h
      obtain ⟨s, hs, heq⟩ := ih hrecs
      refine ⟨s, List.mem_filter.mpr ⟨List.mem_cons_of_mem _ (List.mem_filter.mp hs).1, (List.mem_filter.mp hs).2⟩, heq⟩

/-- The live records after a call that returns. -/
theorem step_cases (h : step watcher c = some w) (hc : c.Valid) : records w = records watcher ∨
    (∃ ptr size, c = .alloc ptr size ∧ ptr ≠ 0 ∧ (∀ r ∈ records watcher, overlaps ptr size r = false) ∧
      (records w).Perm ((ptr, size) :: records watcher)) ∨
    ∃ ptr size, c = .free ptr ∧ ptr ≠ 0 ∧ (records watcher).Perm ((ptr, size) :: records w) := by
  cases c with
  | alloc ptr size =>
    have hpos : size ≠ 0 := Nat.pos_iff_ne_zero.mp hc.1
    by_cases hptr : ptr = 0
    · rw [step, heapwatchAlloc, if_pos (Or.inr hptr)] at h
      exact Or.inl (by rw [Option.some.inj h])
    · obtain ⟨hover, hperm⟩ := heapwatchAlloc_some h hpos hptr
      exact Or.inr (Or.inl ⟨ptr, size, rfl, hptr, hover, hperm⟩)
  | free ptr =>
    by_cases hptr : ptr = 0
    · rw [step, heapwatchFree, if_pos hptr] at h
      exact Or.inl (by rw [Option.some.inj h])
    · rw [step, heapwatchFree, if_neg hptr] at h
      obtain ⟨recs, n, hrecs, hperm, -⟩ := clearRecord_spec hptr (clearRecord_some h hptr)
      obtain rfl : recs = w := Option.some.inj (hrecs.symm.trans h)
      exact Or.inr (Or.inr ⟨ptr, n, rfl, hptr, hperm⟩)

theorem right_iff (h : step watcher c = some w) (hc : c.Valid) (hranged : ∀ r ∈ records watcher, Ranged r) :
    Right watcher c ↔ Harmless watcher c := by
  cases c with
  | alloc ptr size =>
    refine forall₂_congr fun r hr => ?_
    have hpos := ne_zero_of_mem hr
    by_cases hptr : ptr = 0
    · have hlen := (hranged r hr).1
      unfold Shares Encloses
      simp only
      omega
    · have hover := (heapwatchAlloc_some h (Nat.pos_iff_ne_zero.mp hc.1) hptr).1 r hr
      rw [shares_iff hc (hranged r hr), hover]
      simp [hptr]
  | free ptr =>
    constructor
    · rintro ⟨r, hr, rfl⟩
      exact ne_zero_of_mem hr
    · intro hptr
      rw [step, heapwatchFree, if_neg hptr] at h
      exact clearRecord_some h hptr

theorem step_ranged (h : step watcher c = some w) (hc : c.Valid) (hranged : ∀ r ∈ records watcher, Ranged r) :
    ∀ r ∈ records w, Ranged r := by
  intro r hr
  rcases step_cases h hc with hsame | ⟨ptr, size, rfl, -, -, hperm⟩ | ⟨ptr, size, -, -, hperm⟩
  · exact hranged r (hsame ▸ hr)
  · rcases List.mem_cons.mp (hperm.mem_iff.mp hr) with rfl | hr
    · exact hc
    · exact hranged r hr
  · exact hranged r (hperm.mem_iff.mpr (List.mem_cons_of_mem _ hr))

theorem step_disjoint (h : step watcher c = some w) (hc : c.Valid) (hright : Right watcher c)
    (hdisjoint : Disjoint watcher) : Disjoint w := by
  have hperm_iff {l l' : List (ℕ × ℕ)} (hp : l.Perm l') :
      l.Pairwise (fun r s => ¬ Shares r s) ↔ l'.Pairwise fun r s => ¬ Shares r s :=
    hp.pairwise_iff fun hrs => fun hsr => hrs (shares_comm.mp hsr)
  unfold Disjoint at *
  rcases step_cases h hc with hsame | ⟨ptr, size, rfl, -, -, hperm⟩ | ⟨ptr, size, -, -, hperm⟩
  · rw [hsame]
    exact hdisjoint
  · exact (hperm_iff hperm).mpr (List.pairwise_cons.mpr ⟨hright, hdisjoint⟩)
  · exact (List.pairwise_cons.mp ((hperm_iff hperm).mp hdisjoint)).2

theorem freed_of_mem (h : r ∈ records watcher) : (heapwatchFree watcher r.1).isSome = true := by
  have hptr := ne_zero_of_mem h
  obtain ⟨recs, n, hrecs, -, -⟩ := clearRecord_spec hptr ⟨r, h, rfl⟩
  rw [heapwatchFree, if_neg hptr, hrecs]
  rfl

theorem meets_right_iff (hvalid : ∀ c ∈ calls, c.Valid) (hranged : ∀ r ∈ records watcher, Ranged r)
    (hrun : exec step watcher calls = some w) : Meets step Harmless watcher calls ↔ Meets step Right watcher calls := by
  induction calls generalizing watcher with
  | nil => exact Iff.rfl
  | cons c calls ih =>
    rw [List.forall_mem_cons] at hvalid
    obtain ⟨t, ht, hrest⟩ := exec_cons.mp hrun
    have hnext := ih hvalid.2 (step_ranged ht hvalid.1 hranged) hrest
    have hright := right_iff ht hvalid.1 hranged
    constructor
    · exact fun h => meets_cons (hright.mpr h.1) ht (hnext.mp (h.2 t ht))
    · exact fun h => meets_cons (hright.mp h.1) ht (hnext.mpr (h.2 t ht))

theorem disjoint_run (hvalid : ∀ c ∈ calls, c.Valid) (hdisjoint : Disjoint watcher)
    (hright : Meets step Right watcher calls) {bs : List Call} (hb : bs <+: calls)
    (hrun : exec step watcher bs = some w) : Disjoint w := by
  induction calls generalizing watcher bs with
  | nil =>
    rw [List.prefix_nil.mp hb, exec_nil, Option.some.injEq] at hrun
    exact hrun ▸ hdisjoint
  | cons c calls ih =>
    rw [List.forall_mem_cons] at hvalid
    cases bs with
    | nil => exact Option.some.inj hrun ▸ hdisjoint
    | cons b bs =>
      obtain ⟨rfl, hbs⟩ := List.cons_prefix_cons.mp hb
      obtain ⟨t, ht, hrest⟩ := exec_cons.mp hrun
      exact ih hvalid.2 (step_disjoint ht hvalid.1 hright.1 hdisjoint) (hright.2 t ht) hbs hrest

/-- A run that does not panic keeps the live ranges apart exactly when no new range encloses a live one. -/
theorem sound_iff (hvalid : ∀ c ∈ calls, c.Valid) (hrun : exec step [] calls = some w) :
    Meets step Harmless [] calls ↔ Meets step Right [] calls ∧
      ∀ bs t, bs <+: calls → exec step [] bs = some t → Sound t := by
  have hranged : ∀ r ∈ records [], Ranged r := fun r hr => absurd hr List.not_mem_nil
  rw [meets_right_iff hvalid hranged hrun]
  constructor
  · intro hright
    refine ⟨hright, fun bs t hb ht => ?_⟩
    exact ⟨disjoint_run hvalid (show Disjoint [] from .nil) hright hb ht, fun r hr => freed_of_mem hr⟩
  · exact fun h => h.1

/-- A block, the ones below and above it, and the first one again after it was freed. -/
def apartRun : List Call :=
  [.alloc 0x1000 16, .alloc 0xff0 16, .alloc 0x1010 16, .free 0x1000, .alloc 0x1004 8]

theorem sound_iff_apartRun : ∃ w, exec step [] apartRun = some w ∧ ∀ bs t, bs <+: apartRun →
    exec step [] bs = some t → Sound t := by
  obtain ⟨w, hw⟩ := Option.isSome_iff_exists.mp (by decide : (exec step [] apartRun).isSome = true)
  have hvalid : ∀ c ∈ apartRun, c.Valid := by simp [apartRun, Call.Valid, Ranged]
  exact ⟨w, hw, ((sound_iff hvalid hw).mp (by decide)).2⟩

/-- The second range encloses the first one, and no fault is reported. -/
theorem enclosed_unreported : (∀ c ∈ [Call.alloc 0x1000 16, .alloc 0xff0 64], c.Valid) ∧
    exec step [] [.alloc 0x1000 16, .alloc 0xff0 64] = some [(0x1000, 16), (0xff0, 64)] ∧
    ¬ Disjoint [(0x1000, 16), (0xff0, 64)] := by
  refine ⟨by simp [Call.Valid, Ranged], by decide, fun h => ?_⟩
  have hapart : ¬ Shares (0x1000, 16) (0xff0, 64) := (List.pairwise_cons.mp h).1 _ (by simp)
  exact hapart ⟨by decide, by decide⟩

end Eedox.WatcherRuns
