import Eedox.KernelHeap

namespace Eedox.HeapJudge

open Library.Bytes Library.Words KernelHeap

/-- The blocks from `cur` on: each lies behind its predecessor, links back to it, and is not a hole next to
a hole, up to a last one behind which the heap has ended. -/
inductive Orderly (h : Heap) : ℕ → Prop
  | last {cur : ℕ} (flag : (header h.mem cur).isHole ≤ 1) (ended : heapEnd h ≤ hheaderNext h.mem cur) : Orderly h cur
  | step {cur : ℕ} (flag : (header h.mem cur).isHole ≤ 1) (inside : hheaderNext h.mem cur < heapEnd h)
      (increasing : cur < hheaderNext h.mem cur) (linked : (header h.mem (hheaderNext h.mem cur)).prev = cur)
      (apart : ¬ ((header h.mem cur).isHole = 1 ∧ (header h.mem (hheaderNext h.mem cur)).isHole = 1))
      (rest : Orderly h (hheaderNext h.mem cur)) : Orderly h cur

/-- The loop ends, with a report or without one. -/
def Ends (h : Heap) : Prop := ∃ fuel, checkFrom h fuel h.start ≠ .running

/-- A check without a report has found the blocks in order. -/
def Accepts (h : Heap) : Prop := ∀ fuel, checkFrom h fuel h.start = .passed → Orderly h h.start

/-- The first block is its own predecessor and its own successor. -/
structure SelfLinked (h : Heap) : Prop where
  inside : h.start < heapEnd h
  used : (header h.mem h.start).isHole = 0
  prev : (header h.mem h.start).prev = h.start
  size : (header h.mem h.start).size = 2 ^ 32 - 9

variable {h : Heap} {cur fuel : ℕ}

theorem hheaderNext_self (hcur : cur < 2 ^ 32) :
    hheaderNext h.mem cur = cur ↔ (header h.mem cur).size = 2 ^ 32 - 9 := by
  have hsize : (header h.mem cur).size < 2 ^ 32 := wordAt_lt h.mem (cur + 1)
  unfold hheaderNext hheaderSize add32
  omega

/-- What one turn has found when it does not report. -/
theorem checkFrom_succ (hcheck : ∀ label, checkFrom h (fuel + 1) cur ≠ .corrupted label) :
    ((header h.mem cur).isHole ≤ 1 ∧ (header h.mem cur).prev ≤ cur) ∧
      (heapEnd h ≤ hheaderNext h.mem cur ∧ checkFrom h (fuel + 1) cur = .passed ∨
        hheaderNext h.mem cur < heapEnd h ∧ (header h.mem (hheaderNext h.mem cur)).prev = cur ∧
          ¬ ((header h.mem cur).isHole ≠ 0 ∧ (header h.mem (hheaderNext h.mem cur)).isHole ≠ 0) ∧
          checkFrom h (fuel + 1) cur = checkFrom h fuel (hheaderNext h.mem cur)) := by
  rw [checkFrom] at hcheck ⊢
  by_cases h1 : (header h.mem cur).isHole > 1 ∨ (header h.mem cur).prev > cur
  · exact absurd (if_pos h1) (hcheck 1)
  rw [if_neg h1] at hcheck ⊢
  by_cases h2 : (header h.mem cur).prev ≥ h.start ∧
      add32 (add32 (header h.mem cur).prev hheaderSize) (header h.mem (header h.mem cur).prev).size ≠ cur
  · exact absurd (if_pos h2) (hcheck 2)
  rw [if_neg h2] at hcheck ⊢
  by_cases h3 : (header h.mem cur).prev ≥ h.start ∧ (header h.mem (header h.mem cur).prev).isHole ≠ 0 ∧
      (header h.mem cur).isHole ≠ 0
  · exact absurd (if_pos h3) (hcheck 3)
  rw [if_neg h3] at hcheck ⊢
  refine ⟨by omega, ?_⟩
  by_cases hend : hheaderNext h.mem cur ≥ heapEnd h
  · exact Or.inl ⟨hend, if_pos hend⟩
  rw [if_neg hend] at hcheck ⊢
  by_cases h4 : (header h.mem (hheaderNext h.mem cur)).prev ≠ cur
  · exact absurd (if_pos h4) (hcheck 4)
  rw [if_neg h4] at hcheck ⊢
  by_cases h5 : (header h.mem cur).isHole ≠ 0 ∧ (header h.mem (hheaderNext h.mem cur)).isHole ≠ 0
  · exact absurd (if_pos h5) (hcheck 5)
  rw [if_neg h5]
  exact Or.inr ⟨by omega, not_not.mp h4, h5, rfl⟩

/-- Whether a turn goes on in place or forward, what follows it is in order. -/
theorem orderly_of_passed (hcheck : checkFrom h fuel cur = .passed) : Orderly h cur := by
  induction fuel generalizing cur with
  | zero => cases hcheck
  | succ fuel ih =>
    obtain ⟨⟨hflag, -⟩, hended | ⟨hinside, hlinked, hapart, hnext⟩⟩ := @checkFrom_succ h cur fuel
      fun label hc => by rw [hcheck] at hc; cases hc
    · exact .last hflag hended.1
    · rw [hcheck] at hnext
      have hrest := ih hnext.symm
      by_cases hself : hheaderNext h.mem cur = cur
      · rw [hself] at hrest
        exact hrest
      · have hle : (header h.mem (hheaderNext h.mem cur)).prev ≤ hheaderNext h.mem cur := by
          cases fuel with
          | zero => cases hnext
          | succ fuel =>
            exact (@checkFrom_succ h (hheaderNext h.mem cur) fuel fun label hc => by
              rw [← hnext] at hc; cases hc).1.2
        exact .step hflag hinside (by omega) hlinked (by omega) hrest

/-- Each turn goes up, or the next one reports. -/
theorem ends_from (hplace : (header h.mem cur).prev = cur → hheaderNext h.mem cur = cur →
    (header h.mem cur).isHole = 0 → ¬ cur < heapEnd h) (hfuel : heapEnd h - cur + 2 ≤ fuel) :
    checkFrom h fuel cur ≠ .running := by
  induction fuel generalizing cur with
  | zero => omega
  | succ fuel ih =>
    intro hrun
    obtain ⟨-, hended | ⟨hinside, hlinked, hapart, hnext⟩⟩ := @checkFrom_succ h cur fuel
      fun label hc => by rw [hrun] at hc; cases hc
    · rw [hrun] at hended
      cases hended.2
    · rw [hrun] at hnext
      rcases Nat.lt_trichotomy (hheaderNext h.mem cur) cur with hlt | heq | hgt
      · cases fuel with
        | zero => omega
        | succ fuel =>
          have hle := (@checkFrom_succ h (hheaderNext h.mem cur) fuel fun label hc => by
            rw [← hnext] at hc; cases hc).1.2
          omega
      · rw [heq] at hlinked hapart hinside
        exact hplace hlinked heq (by omega) hinside
      · refine ih (fun hself => ?_) (by omega) hnext.symm
        omega

theorem endless_of_selfLinked (hs : SelfLinked h) (fuel : ℕ) : checkFrom h fuel h.start = .running := by
  have hlt : h.start < 2 ^ 32 := Nat.lt_trans hs.inside (Nat.mod_lt _ (by decide))
  have hnext : hheaderNext h.mem h.start = h.start := (hheaderNext_self hlt).mpr hs.size
  have hsum : add32 (add32 h.start hheaderSize) (header h.mem h.start).size = h.start := hnext
  induction fuel with
  | zero => rfl
  | succ fuel ih =>
    have hinside := hs.inside
    rw [checkFrom]
    simp only [hs.prev, hs.used, hsum, hnext]
    rw [if_neg (by omega), if_neg (by simp), if_neg (by simp), if_neg (by omega), if_neg (by simp),
      if_neg (by simp), ih]

/-- The check always ends, but for a first block that is linked to itself and steps on itself; what it
accepts is in order in any case. -/
theorem heapCheck_iff (h : Heap) (hstart : h.start < 2 ^ 32) : Ends h ∧ Accepts h ↔ ¬ SelfLinked h := by
  constructor
  · rintro ⟨⟨fuel, hends⟩, -⟩ hs
    exact hends (endless_of_selfLinked hs fuel)
  · intro hs
    refine ⟨⟨heapEnd h - h.start + 2, ends_from (fun hprev hnext hused hinside => hs ?_) le_rfl⟩,
      fun fuel hpassed => orderly_of_passed hpassed⟩
    exact ⟨hinside, hused, hprev, (hheaderNext_self hstart).mp hnext⟩

/-- A heap of one hole of 0x100 bytes. -/
def freshHeap : Heap := heapInit (fun _ => 0) 0x10000 0x100 0

theorem ends_freshHeap : Ends freshHeap ∧ Accepts freshHeap := by
  refine (heapCheck_iff freshHeap (by decide)).mpr fun hs => ?_
  exact absurd hs.used (by decide)

/-- The header of the first block is overwritten by one that leads back to it. -/
def loopedHeap : Heap :=
  { freshHeap with mem := setPrev (setSize (setIsHole freshHeap.mem 0x11000 0) 0x11000 (2 ^ 32 - 9)) 0x11000 0x11000 }

theorem endless_loopedHeap : ¬ Ends loopedHeap := by
  rintro ⟨fuel, hends⟩
  exact hends (endless_of_selfLinked ⟨by decide, by decide, by decide, by decide⟩ fuel)

end Eedox.HeapJudge
