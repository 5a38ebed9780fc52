import Mathlib.Data.List.Nodup

namespace Eedox.Library.DoublyLinked

variable {next prev next' prev' : ℕ → ℕ}

/-- The links run through the nodes of `l`, from `head` behind `p` to the end, which is 0. -/
def Linked (next prev : ℕ → ℕ) : ℕ → ℕ → List ℕ → Prop
  | _, head, [] => head = 0
  | p, head, a :: l => head = a ∧ a ≠ 0 ∧ prev a = p ∧ Linked next prev a (next a) l

variable {p head x : ℕ} {l : List ℕ}

theorem Linked.ne_zero (h : Linked next prev p head l) {a : ℕ} (ha : a ∈ l) : a ≠ 0 := by
  induction l generalizing p head with
  | nil => cases ha
  | cons b l ih =>
    obtain ⟨-, hb, -, hrest⟩ := h
    rcases List.mem_cons.mp ha with rfl | ha
    · exact hb
    · exact ih hrest ha

theorem Linked.head_eq (h : Linked next prev p head l) : head = l.headD 0 := by
  cases l with
  | nil => exact h
  | cons a l => exact h.1

theorem Linked.next_eq (h : Linked next prev p head l) {pre post : List ℕ} (hl : l = pre ++ x :: post) :
    next x = post.headD 0 := by
  induction pre generalizing p head l with
  | nil =>
    subst hl
    exact h.2.2.2.head_eq
  | cons a pre ih =>
    subst hl
    exact ih h.2.2.2 rfl

theorem Linked.congr (h : Linked next prev p head l) (hn : ∀ a ∈ l, next' a = next a)
    (hp : ∀ a ∈ l, prev' a = prev a) : Linked next' prev' p head l := by
  induction l generalizing p head with
  | nil => exact h
  | cons a l ih =>
    obtain ⟨hhead, ha, hprev, hrest⟩ := h
    refine ⟨hhead, ha, (hp a List.mem_cons_self).trans hprev, ?_⟩
    rw [hn a List.mem_cons_self]
    exact ih hrest (fun b hb => hn b (List.mem_cons_of_mem a hb)) fun b hb => hp b (List.mem_cons_of_mem a hb)

/-- What holds at the head and behind each node it holds at holds at all of them. -/
theorem Linked.forall_mem {P : ℕ → Prop} (h : Linked next prev p head l) (hhead : head ≠ 0 → P head)
    (hnext : ∀ a ∈ l, P a → next a ≠ 0 → P (next a)) : ∀ a ∈ l, P a := by
  induction l generalizing p head with
  | nil => exact fun _ ha => absurd ha List.not_mem_nil
  | cons b l ih =>
    obtain ⟨rfl, hb, -, hrest⟩ := h
    have hpb := hhead hb
    intro a ha
    rcases List.mem_cons.mp ha with rfl | ha
    · exact hpb
    · exact ih hrest (fun hn => hnext head List.mem_cons_self hpb hn)
        (fun c hc => hnext c (List.mem_cons_of_mem head hc)) a ha

/-- Behind a node is the end, or a node that points back to it. -/
theorem Linked.prev_next (h : Linked next prev p head l) {a : ℕ} (ha : a ∈ l) :
    next a = 0 ∨ (next a ∈ l ∧ prev (next a) = a) := by
  induction l generalizing p head with
  | nil => cases ha
  | cons b l ih =>
    obtain ⟨-, -, -, hrest⟩ := h
    rcases List.mem_cons.mp ha with rfl | ha
    · cases l with
      | nil => exact Or.inl hrest
      | cons c l =>
        obtain ⟨hc, -, hprev, -⟩ := hrest
        rw [hc]
        exact Or.inr ⟨List.mem_cons_of_mem a List.mem_cons_self, hprev⟩
    · exact (ih hrest ha).imp_right fun ⟨hmem, hprev⟩ => ⟨List.mem_cons_of_mem b hmem, hprev⟩

/-- In front of a node is the start, or a node that points to it. -/
theorem Linked.next_prev (h : Linked next prev p head l) {a : ℕ} (ha : a ∈ l) :
    (head = a ∧ prev a = p) ∨ (prev a ∈ l ∧ next (prev a) = a) := by
  induction l generalizing p head with
  | nil => cases ha
  | cons b l ih =>
    obtain ⟨hhead, -, hprev, hrest⟩ := h
    rcases List.mem_cons.mp ha with rfl | ha
    · exact Or.inl ⟨hhead, hprev⟩
    · refine Or.inr ?_
      rcases ih hrest ha with ⟨hnext, hprev⟩ | ⟨hmem, hnext⟩
      · rw [hprev]
        exact ⟨List.mem_cons_self, hnext⟩
      · exact ⟨List.mem_cons_of_mem b hmem, hnext⟩

/-- What pointed to `x` points past it. -/
theorem Linked.skip (h : Linked next prev p head l) (hnodup : (p :: l).Nodup) (hx : x ∈ l)
    (hn : ∀ a ∈ l, a ≠ x → next' a = if next a = x then next x else next a)
    (hp : ∀ a ∈ l, a ≠ x → prev' a = if prev a = x then prev x else prev a) :
    Linked next' prev' p (if head = x then next x else head) (l.erase x) := by
  induction l generalizing p head with
  | nil => cases hx
  | cons a l ih =>
    obtain ⟨rfl, ha, hprev, hrest⟩ := h
    obtain ⟨hnot, hnodup⟩ := List.nodup_cons.mp hnodup
    by_cases hax : head = x
    · subst hax
      rw [if_pos rfl, List.erase_cons_head]
      have hout := (List.nodup_cons.mp hnodup).1
      cases l with
      | nil => exact hrest
      | cons b l =>
        obtain ⟨hb, hb0, hbprev, hrest⟩ := hrest
        have hne (c : ℕ) (hc : c ∈ b :: l) : c ≠ head := fun heq => hout (heq ▸ hc)
        have hfar (c : ℕ) (hc : c ∈ l) : prev c ≠ head := by
          rcases hrest.next_prev hc with ⟨-, hpb⟩ | ⟨hmem, -⟩
          · rw [hpb]
            exact hne b List.mem_cons_self
          · exact hne _ (List.mem_cons_of_mem b hmem)
        have hnear (c : ℕ) (hc : c ∈ b :: l) : next c ≠ head := by
          have hlinked : Linked next prev head b (b :: l) := ⟨rfl, hb0, hbprev, hrest⟩
          rcases hlinked.prev_next hc with hend | ⟨hmem, -⟩
          · rw [hend]
            exact ha.symm
          · exact hne _ hmem
        refine ⟨hb, hb0, ?_, ?_⟩
        · rw [hp b (by simp) (hne b (by simp)), if_pos hbprev, hprev]
        · rw [hn b (by simp) (hne b (by simp)), if_neg (hnear b (by simp))]
          refine hrest.congr (fun c hc => ?_) fun c hc => ?_
          · rw [hn c (by simp [hc]) (hne c (by simp [hc])), if_neg (hnear c (by simp [hc]))]
          · rw [hp c (by simp [hc]) (hne c (by simp [hc])), if_neg (hfar c hc)]
    · have hmem : x ∈ l := (List.mem_cons.mp hx).resolve_left fun heq => hax heq.symm
      rw [if_neg hax, List.erase_cons_tail (by simpa using hax)]
      refine ⟨rfl, ha, ?_, ?_⟩
      · have hpx : p ≠ x := fun heq => hnot (heq ▸ hx)
        rw [hp head List.mem_cons_self hax, hprev, if_neg hpx]
      · rw [hn head List.mem_cons_self hax]
        exact ih hrest hnodup hmem (fun c hc => hn c (List.mem_cons_of_mem head hc))
          fun c hc => hp c (List.mem_cons_of_mem head hc)

/-- The node that points to `x` is the one that `x` points back to. -/
theorem Linked.next_iff (h : Linked next prev 0 head l) (hx : x ∈ l) {a : ℕ} (ha : a ∈ l) :
    next a = x ↔ a = prev x := by
  constructor
  · intro hnext
    rcases h.prev_next ha with hend | ⟨-, hprev⟩
    · exact absurd (hnext.symm.trans hend) (h.ne_zero hx)
    · rw [← hnext, hprev]
  · rintro rfl
    rcases h.next_prev hx with ⟨-, hprev⟩ | ⟨-, hnext⟩
    · exact absurd hprev (h.ne_zero ha)
    · exact hnext

/-- The node that points back to `x` is the one that `x` points to. -/
theorem Linked.prev_iff (h : Linked next prev 0 head l) (hx : x ∈ l) {a : ℕ} (ha : a ∈ l) :
    prev a = x ↔ a = next x := by
  constructor
  · intro hprev
    rcases h.next_prev ha with ⟨-, hstart⟩ | ⟨-, hnext⟩
    · exact absurd (hprev.symm.trans hstart) (h.ne_zero hx)
    · rw [← hprev, hnext]
  · rintro rfl
    rcases h.prev_next hx with hend | ⟨-, hprev⟩
    · exact absurd hend (h.ne_zero ha)
    · exact hprev

/-- A node is taken out of a list. -/
theorem Linked.remove (h : Linked next prev 0 head l) (hnodup : l.Nodup) (hx : x ∈ l)
    (hn : ∀ a ∈ l, a ≠ x → next' a = if a = prev x then next x else next a)
    (hp : ∀ a ∈ l, a ≠ x → prev' a = if a = next x then prev x else prev a) :
    Linked next' prev' 0 (if head = x then next x else head) (l.erase x) := by
  have hzero : (0 :: l).Nodup := List.nodup_cons.mpr ⟨fun h0 => h.ne_zero h0 rfl, hnodup⟩
  refine h.skip hzero hx (fun a ha hax => ?_) fun a ha hax => ?_
  · rw [hn a ha hax]
    exact if_congr (h.next_iff hx ha).symm rfl rfl
  · rw [hp a ha hax]
    exact if_congr (h.prev_iff hx ha).symm rfl rfl

/-- A node is put in front of a list. -/
theorem Linked.push (h : Linked next prev 0 head l) (hnodup : l.Nodup) (hx : x ≠ 0)
    (hnx : next' x = head) (hpx : prev' x = 0) (hn : ∀ a ∈ l, next' a = next a)
    (hp : ∀ a ∈ l, prev' a = if a = head then x else prev a) : Linked next' prev' 0 x (x :: l) := by
  refine ⟨rfl, hx, hpx, ?_⟩
  rw [hnx]
  cases l with
  | nil => exact h
  | cons b l =>
    obtain ⟨rfl, hb, -, hrest⟩ := h
    refine ⟨rfl, hb, ?_, ?_⟩
    · rw [hp head List.mem_cons_self, if_pos rfl]
    · rw [hn head List.mem_cons_self]
      refine hrest.congr (fun a ha => hn a (List.mem_cons_of_mem head ha)) fun a ha => ?_
      have hne : a ≠ head := fun heq => (List.nodup_cons.mp hnodup).1 (heq ▸ ha)
      rw [hp a (List.mem_cons_of_mem head ha), if_neg hne]

end Eedox.Library.DoublyLinked
