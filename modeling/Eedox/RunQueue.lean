import Eedox.Scheduler

namespace Eedox.RunQueue

open Library.Runs Util Semaphore Pipe Descriptor TaskTable Scheduler
open ReaderWriterLock (Krwlock Operation krwlockInit readBlocked writeBlocked enqueue krwlockReadEnd
  krwlockWriteEnd krwlockRelease wakeReaders)
open DiskInterrupts (Op)
open Syscall (Kernel Call boot initFdt)
open EndOfFile (fdOf withPipe)

def asleepAt : Phase → Option Place
  | .asleep b => some b.place
  | _ => none

def wokenAt : Phase → Option Place
  | .woken b => some b.place
  | _ => none

@[simp] theorem asleepAt_ready : asleepAt .ready = none := rfl

@[simp] theorem asleepAt_asleep (b : Block) : asleepAt (.asleep b) = some b.place := rfl

@[simp] theorem asleepAt_woken (b : Block) : asleepAt (.woken b) = none := rfl

@[simp] theorem wokenAt_ready : wokenAt .ready = none := rfl

@[simp] theorem wokenAt_asleep (b : Block) : wokenAt (.asleep b) = none := rfl

@[simp] theorem wokenAt_woken (b : Block) : wokenAt (.woken b) = some b.place := rfl

def Live (ph : Phase) : Prop := ph ≠ .absent ∧ ph ≠ .exited

def awake (phase : ℕ → Phase) (ts : List ℕ) : ℕ → Phase :=
  fun u => if u ∈ ts then (phase u).awake else phase u

theorem awakeAll_eq (s : State) (ts : List ℕ) :
    awakeAll s ts = { s with rrQueue := s.rrQueue ++ ts, phase := awake s.phase ts } := by
  induction ts generalizing s with
  | nil =>
    have hphase : awake s.phase [] = s.phase := funext fun u => if_neg List.not_mem_nil
    simp [awakeAll, hphase]
  | cons t ts ih =>
    have hphase : awake (Function.update s.phase t (s.phase t).awake) ts = awake s.phase (t :: ts) := by
      funext u
      unfold awake
      by_cases hu : u = t
      · subst hu
        cases hp : s.phase u <;> simp [Phase.awake]
      · simp [hu]
    rw [awakeAll, List.foldl_cons, ← awakeAll, ih]
    simp [taskAwake, setPhase, hphase]

theorem taskAwake_eq (s : State) (t : ℕ) :
    taskAwake s t = { s with rrQueue := s.rrQueue ++ [t], phase := awake s.phase [t] } :=
  awakeAll_eq s [t]

theorem asleepAt_eq_some {ph : Phase} {place : Place} :
    asleepAt ph = some place ↔ ∃ b, ph = .asleep b ∧ b.place = place := by
  cases ph <;> simp [asleepAt]

/-- The phases differ in nothing but tasks that stand at the places `touched`, or at none. -/
def Within (touched : Place → Prop) (phase phase' : ℕ → Phase) : Prop :=
  ∀ t, phase' t = phase t ∨ Live (phase t) ∧ Live (phase' t) ∧
    ∀ place, ¬ touched place → asleepAt (phase t) ≠ some place ∧ wokenAt (phase t) ≠ some place ∧
      asleepAt (phase' t) ≠ some place ∧ wokenAt (phase' t) ≠ some place

section Within

variable {touched : Place → Prop} {phase phase' phase'' : ℕ → Phase} {t : ℕ} {place : Place}

theorem Within.refl (phase : ℕ → Phase) : Within touched phase phase := fun _ => Or.inl rfl

theorem Within.trans (h : Within touched phase phase') (h' : Within touched phase' phase'') :
    Within touched phase phase'' := by
  intro t
  rcases h t with he | ⟨hl, hl', hp⟩
  · rw [← he]
    exact h' t
  · rcases h' t with he' | ⟨-, hl'', hp'⟩
    · rw [he']
      exact Or.inr ⟨hl, hl', hp⟩
    · exact Or.inr ⟨hl, hl'', fun place hn =>
        ⟨(hp place hn).1, (hp place hn).2.1, (hp' place hn).2.2.1, (hp' place hn).2.2.2⟩⟩

theorem Within.asleepAt (h : Within touched phase phase') (hp : ¬ touched place) (t : ℕ) :
    asleepAt (phase' t) = some place ↔ RunQueue.asleepAt (phase t) = some place := by
  rcases h t with he | ⟨-, -, hn⟩
  · rw [he]
  · obtain ⟨h1, -, h3, -⟩ := hn place hp
    exact iff_of_false h3 h1

theorem Within.wokenAt (h : Within touched phase phase') (hp : ¬ touched place) (t : ℕ) :
    wokenAt (phase' t) = some place ↔ RunQueue.wokenAt (phase t) = some place := by
  rcases h t with he | ⟨-, -, hn⟩
  · rw [he]
  · obtain ⟨-, h2, -, h4⟩ := hn place hp
    exact iff_of_false h4 h2

theorem Within.eq_absent (h : Within touched phase phase') (t : ℕ) :
    phase' t = .absent ↔ phase t = .absent := by
  rcases h t with he | ⟨hl, hl', -⟩
  · rw [he]
  · exact iff_of_false hl'.1 hl.1

theorem Within.eq_exited (h : Within touched phase phase') (t : ℕ) :
    phase' t = .exited ↔ phase t = .exited := by
  rcases h t with he | ⟨hl, hl', -⟩
  · rw [he]
  · exact iff_of_false hl'.2 hl.2

theorem within_ready (hl : Live (phase t)) (h : ∀ place, asleepAt (phase t) = some place ∨
    wokenAt (phase t) = some place → touched place) :
    Within touched phase (Function.update phase t .ready) := by
  intro u
  by_cases hu : u = t
  · subst hu
    rw [Function.update_self]
    refine Or.inr ⟨hl, by simp [Live], fun place hn => ⟨fun hp => ?_, fun hp => ?_, ?_, ?_⟩⟩
    · exact hn (h place (Or.inl hp))
    · exact hn (h place (Or.inr hp))
    · simp
    · simp
  · exact Or.inl (Function.update_of_ne hu _ _)

theorem within_asleep {b : Block} (ht : phase t = .ready) (hb : touched b.place) :
    Within touched phase (Function.update phase t (.asleep b)) := by
  intro u
  by_cases hu : u = t
  · subst hu
    rw [Function.update_self, ht]
    refine Or.inr ⟨by simp [Live], by simp [Live], fun place hn => ⟨?_, ?_, fun hp => ?_, ?_⟩⟩
    · simp
    · simp
    · obtain rfl : b.place = place := Option.some.inj hp
      exact hn hb
    · simp
  · exact Or.inl (Function.update_of_ne hu _ _)

theorem within_awake {ts : List ℕ} (ht : touched place)
    (h : ∀ u ∈ ts, asleepAt (phase u) = some place) : Within touched phase (awake phase ts) := by
  intro u
  by_cases hu : u ∈ ts
  · obtain ⟨b, hb, rfl⟩ := asleepAt_eq_some.mp (h u hu)
    have hw : awake phase ts u = .woken b := by rw [awake, if_pos hu, hb, Phase.awake]
    rw [hw, hb]
    refine Or.inr ⟨by simp [Live], by simp [Live], fun place hn => ⟨fun hp => ?_, ?_, ?_, fun hp => ?_⟩⟩
    · obtain rfl : b.place = place := Option.some.inj hp
      exact hn ht
    · simp
    · simp
    · obtain rfl : b.place = place := Option.some.inj hp
      exact hn ht
  · exact Or.inl (if_neg hu)

end Within

structure Run (queue : List ℕ) (current : ℕ) (phase : ℕ → Phase) : Prop where
  nodup : queue.Nodup
  idle : phase 0 = .ready
  head : queue.head? = some current
  mem : ∀ t, t ∈ queue ↔ phase t = .ready ∨ ∃ b, phase t = .woken b

section Run

variable {queue : List ℕ} {current t : ℕ} {phase : ℕ → Phase}

theorem Run.zero_mem (h : Run queue current phase) : 0 ∈ queue := (h.mem 0).mpr (Or.inl h.idle)

theorem Run.ready (h : Run queue current phase) : Run queue current (Function.update phase current .ready) where
  nodup := h.nodup
  idle := by
    by_cases h0 : 0 = current
    · rw [← h0, Function.update_self]
    · rw [Function.update_of_ne h0, h.idle]
  head := h.head
  mem := fun t => by
    by_cases ht : t = current
    · subst ht
      simpa using List.mem_of_mem_head? h.head
    · rw [Function.update_of_ne ht, h.mem]

/-- The current task leaves the queue; it is not the last one there. -/
theorem Run.leave (h : Run queue current phase) (h0 : current ≠ 0) {ph : Phase}
    (hph : ph ≠ .ready ∧ ∀ b, ph ≠ .woken b) : ∃ next rest, queue = current :: next :: rest ∧
      Run (next :: rest) next (Function.update phase current ph) := by
  have hzero := h.zero_mem
  have hhead := h.head
  match queue, h with
  | [], h => simp at hhead
  | [a], h =>
    obtain rfl : a = current := by simpa using hhead
    obtain rfl : 0 = a := by simpa using hzero
    exact absurd rfl h0
  | a :: next :: rest, h =>
    obtain rfl : a = current := by simpa using hhead
    have hn := List.nodup_cons.mp h.nodup
    refine ⟨next, rest, rfl, hn.2, ?_, rfl, fun t => ?_⟩
    · rw [Function.update_of_ne h0.symm, h.idle]
    · by_cases ht : t = a
      · subst ht
        rw [Function.update_self]
        exact iff_of_false hn.1 (not_or.mpr ⟨hph.1, not_exists.mpr hph.2⟩)
      · rw [Function.update_of_ne ht, ← h.mem]
        exact (List.mem_cons.trans (or_iff_right ht)).symm

theorem Run.awake (h : Run queue current phase) {ts : List ℕ} {place : Place} (hn : ts.Nodup)
    (ht : ∀ t ∈ ts, asleepAt (phase t) = some place) :
    Run (queue ++ ts) current (awake phase ts) where
  nodup := by
    refine List.nodup_append.mpr ⟨h.nodup, hn, ?_⟩
    rintro t hq u hu rfl
    obtain ⟨b, hb, -⟩ := asleepAt_eq_some.mp (ht t hu)
    have := (h.mem t).mp hq
    simp [hb] at this
  idle := by
    have h0 : 0 ∉ ts := by
      intro hm
      obtain ⟨b, hb, -⟩ := asleepAt_eq_some.mp (ht 0 hm)
      rw [h.idle] at hb
      cases hb
    rw [RunQueue.awake, if_neg h0, h.idle]
  head := by rw [List.head?_append, h.head]; rfl
  mem := fun t => by
    rw [List.mem_append, h.mem]
    by_cases hm : t ∈ ts
    · obtain ⟨b, hb, -⟩ := asleepAt_eq_some.mp (ht t hm)
      simp [RunQueue.awake, hm, hb, Phase.awake]
    · simp [RunQueue.awake, hm]

theorem taskSleep_eq {s : State} (h : Run s.rrQueue s.currentTask s.phase) (h0 : s.currentTask ≠ 0)
    (b : Block) : ∃ next, Run s.rrQueue.tail next (Function.update s.phase s.currentTask (.asleep b)) ∧
      taskSleep s b = { s with
        rrQueue := s.rrQueue.tail
        currentTask := next
        phase := Function.update s.phase s.currentTask (.asleep b) } := by
  have hb : Phase.asleep b ≠ .ready ∧ ∀ other, Phase.asleep b ≠ .woken other := by simp
  obtain ⟨next, rest, hq, hrun⟩ := h.leave h0 hb
  refine ⟨next, by rw [hq]; exact hrun, ?_⟩
  simp [taskSleep, taskSwitch, setPhase, hq]

theorem timer_eq {s : State} (h : Run s.rrQueue s.currentTask s.phase) : ∃ rr next,
    Run rr next s.phase ∧ taskSwitch s false = { s with rrQueue := rr, currentTask := next } := by
  unfold taskSwitch
  match hq : s.rrQueue with
  | [] => exact ⟨s.rrQueue, s.currentTask, h, rfl⟩
  | [a] => exact ⟨s.rrQueue, s.currentTask, h, rfl⟩
  | a :: next :: rest =>
    rw [hq] at h
    have hp : (next :: rest ++ [a]).Perm (a :: next :: rest) := List.perm_append_singleton a (next :: rest)
    exact ⟨next :: rest ++ [a], next,
      ⟨hp.nodup_iff.mpr h.nodup, h.idle, rfl, fun t => (hp.mem_iff).trans (h.mem t)⟩, rfl⟩

end Run

def Inside (queue sleep : Place) (phase : ℕ → Phase) (t : ℕ) : Prop :=
  wokenAt (phase t) = some queue ∨ asleepAt (phase t) = some sleep ∨ wokenAt (phase t) = some sleep

/-- A semaphore that starts at 1 and a global in which the task that is let in waits for an interrupt. -/
structure Guarded (sem : Ksemaphore ℕ) (slot : Option ℕ) (queue sleep : Place) (phase : ℕ → Phase) :
    Prop where
  locked : ∃ holder,
    Exclusive sem (fun t => asleepAt (phase t) = some queue) (Inside queue sleep phase) holder
  slot : ∀ t, slot = some t ↔ asleepAt (phase t) = some sleep

section Guarded

variable {sem : Ksemaphore ℕ} {slot : Option ℕ} {queue sleep : Place} {phase phase' : ℕ → Phase}
  {touched : Place → Prop} {t : ℕ}

theorem Guarded.within (h : Guarded sem slot queue sleep phase) (hw : Within touched phase phase')
    (hq : ¬ touched queue) (hs : ¬ touched sleep) : Guarded sem slot queue sleep phase' := by
  obtain ⟨holder, hx⟩ := h.locked
  refine ⟨⟨holder, hx.congr (fun t => hw.asleepAt hq t) fun t => ?_⟩, fun t => ?_⟩
  · rw [Inside, Inside, hw.wokenAt hq, hw.asleepAt hs, hw.wokenAt hs]
  · rw [h.slot, hw.asleepAt hs]

theorem Guarded.congr (h : Guarded sem slot queue sleep phase)
    (ha : ∀ u, asleepAt (phase' u) = asleepAt (phase u))
    (hw : ∀ u, wokenAt (phase' u) = wokenAt (phase u)) : Guarded sem slot queue sleep phase' := by
  obtain ⟨holder, hx⟩ := h.locked
  refine ⟨⟨holder, hx.congr (fun u => ?_) fun u => ?_⟩, fun u => ?_⟩
  · rw [ha]
  · rw [Inside, Inside, ha, hw]
  · rw [ha, h.slot]

theorem Guarded.alone (h : Guarded sem slot queue sleep phase) {u : ℕ}
    (ht : Inside queue sleep phase t) (hu : Inside queue sleep phase u) : t = u := by
  obtain ⟨holder, hx⟩ := h.locked
  exact hx.unique ht hu

theorem guarded_queue (h : Guarded sem slot queue sleep phase) (hne : queue ≠ sleep)
    (hm : mustSleep sem = true) (ht : phase t = .ready) {b : Block} (hb : b.place = queue) :
    Guarded (ksemaphoreWait sem t) slot queue sleep (Function.update phase t (.asleep b)) := by
  obtain ⟨holder, hx⟩ := h.locked
  have hqueue := exclusive_queue hx (by simp [ht] : ¬ asleepAt (phase t) = some queue) hm
  refine ⟨⟨holder, hqueue.congr (fun u => ?_) fun u => ?_⟩, fun u => ?_⟩
  · by_cases hu : u = t
    · subst hu
      simp [hb]
    · simp [hu]
  · by_cases hu : u = t
    · subst hu
      simp [Inside, ht, hb, hne]
    · simp [Inside, hu]
  · rw [h.slot]
    by_cases hu : u = t
    · subst hu
      simp [ht, hb, hne]
    · simp [hu]

/-- A task that has been woken inside, seen as ready. -/
theorem Guarded.entered (h : Guarded sem slot queue sleep phase) {b : Block} (ht : phase t = .woken b)
    (hb : b.place = queue ∨ b.place = sleep) :
    (∃ holder, Exclusive sem (fun u => asleepAt (Function.update phase t .ready u) = some queue)
      (fun u => u = t) holder) ∧
    (∀ u, ¬ Inside queue sleep (Function.update phase t .ready) u) ∧ slot = none := by
  obtain ⟨holder, hx⟩ := h.locked
  have hin : Inside queue sleep phase t := by
    rcases hb with hb | hb
    · exact Or.inl (by simp [ht, hb])
    · exact Or.inr (Or.inr (by simp [ht, hb]))
  refine ⟨⟨holder, hx.congr (fun u => ?_) fun u => ?_⟩, fun u hu => ?_, ?_⟩
  · by_cases hu : u = t
    · subst hu
      simp [ht]
    · rw [Function.update_of_ne hu]
  · constructor
    · rintro rfl
      exact hin
    · exact fun hu => h.alone hu hin
  · by_cases hut : u = t
    · subst hut
      simp [Inside] at hu
    · simp only [Inside, Function.update_of_ne hut] at hu
      exact hut (h.alone hu hin)
  · cases hs : slot with
    | none => rfl
    | some v =>
      have hv := (h.slot v).mp hs
      obtain rfl : v = t := h.alone (Or.inr (Or.inl hv)) hin
      simp [ht] at hv

/-- A caller that does not have to sleep is alone inside. -/
theorem Guarded.enter (h : Guarded sem slot queue sleep phase) (t : ℕ)
    (hm : ¬ mustSleep sem = true) :
    (∃ holder, Exclusive (ksemaphoreWait sem t) (fun u => asleepAt (phase u) = some queue)
      (fun u => u = t) holder) ∧ (∀ u, ¬ Inside queue sleep phase u) ∧ slot = none := by
  obtain ⟨holder, hx⟩ := h.locked
  obtain ⟨hnone, -, he⟩ := exclusive_enter hx t (by simpa using hm)
  have hout : ∀ u, ¬ Inside queue sleep phase u := by
    intro u hu
    have := (hx.inside u).mp hu
    rw [hnone] at this
    cases this
  refine ⟨⟨_, he⟩, hout, ?_⟩
  cases hs : slot with
  | none => rfl
  | some v => exact absurd (Or.inr (Or.inl ((h.slot v).mp hs))) (hout v)

/-- A task that is alone inside goes to sleep until the interrupt. -/
theorem guarded_sleep {holder : Option ℕ}
    (hx : Exclusive sem (fun u => asleepAt (phase u) = some queue) (fun u => u = t) holder)
    (hnone : ∀ u, u ≠ t → ¬ Inside queue sleep phase u) (ht : asleepAt (phase t) ≠ some queue)
    (hne : queue ≠ sleep) {b : Block} (hb : b.place = sleep) :
    Guarded sem (some t) queue sleep (Function.update phase t (.asleep b)) := by
  refine ⟨⟨holder, hx.congr (fun u => ?_) fun u => ?_⟩, fun u => ?_⟩
  · by_cases hu : u = t
    · subst hu
      simp [hb, hne.symm, ht]
    · simp [hu]
  · by_cases hu : u = t
    · subst hu
      simp [Inside, hb]
    · have := hnone u hu
      simp only [Inside, Function.update_of_ne hu] at this ⊢
      exact iff_of_false this hu
  · by_cases hu : u = t
    · subst hu
      simp [hb]
    · have := hnone u hu
      simp only [Inside, not_or] at this
      rw [Function.update_of_ne hu, Option.some.injEq]
      exact iff_of_false (fun h => hu h.symm) this.2.1

/-- The task that is alone inside leaves, and the head of the queue is let in. -/
theorem guarded_signal {holder : Option ℕ}
    (hx : Exclusive sem (fun u => asleepAt (phase u) = some queue) (fun u => u = t) holder)
    (hnone : ∀ u, ¬ Inside queue sleep phase u) (hslot : slot = none) :
    Guarded (ksemaphoreSignal sem).1 slot queue sleep (awake phase sem.sq.head?.toList) := by
  have hout := exclusive_signal hx rfl
  have hhead : ∀ u, sem.sq.head? = some u → ∃ b, phase u = .asleep b ∧ b.place = queue := by
    intro u hu
    exact asleepAt_eq_some.mp ((hx.queued u).mp (List.mem_of_mem_head? hu))
  have hphase : ∀ u, sem.sq.head? ≠ some u → awake phase sem.sq.head?.toList u = phase u := by
    intro u hu
    refine if_neg ?_
    rwa [Option.mem_toList]
  have hwoken : ∀ u b, sem.sq.head? = some u → phase u = .asleep b →
      awake phase sem.sq.head?.toList u = .woken b := by
    intro u b hu hb
    rw [awake, if_pos (Option.mem_toList.mpr hu), hb, Phase.awake]
  generalize awake phase sem.sq.head?.toList = phase' at hphase hwoken ⊢
  refine ⟨⟨_, hout.congr (fun u => ?_) fun u => ?_⟩, fun u => ?_⟩
  · by_cases hu : sem.sq.head? = some u
    · obtain ⟨b, hb, -⟩ := hhead u hu
      simp [hwoken u b hu hb, hu]
    · simp [hphase u hu, hu]
  · by_cases hu : sem.sq.head? = some u
    · obtain ⟨b, hb, hp⟩ := hhead u hu
      simp [Inside, hwoken u b hu hb, hu, hp]
    · have := hnone u
      simp only [Inside, hphase u hu] at this ⊢
      exact iff_of_false this hu
  · rw [hslot]
    refine iff_of_false (by simp) ?_
    by_cases hu : sem.sq.head? = some u
    · obtain ⟨b, hb, -⟩ := hhead u hu
      simp [hwoken u b hu hb]
    · have := hnone u
      simp only [Inside, not_or] at this
      rw [hphase u hu]
      exact this.2.1

/-- The interrupt wakes the task in the global. -/
theorem guarded_interrupt (h : Guarded sem (some t) queue sleep phase) (hne : queue ≠ sleep) :
    Guarded sem none queue sleep (awake phase [t]) := by
  obtain ⟨holder, hx⟩ := h.locked
  obtain ⟨b, hb, hp⟩ := asleepAt_eq_some.mp ((h.slot t).mp rfl)
  have ht : Inside queue sleep phase t := Or.inr (Or.inl ((h.slot t).mp rfl))
  have hself : awake phase [t] t = .woken b := by
    rw [awake, if_pos (List.mem_singleton_self t), hb, Phase.awake]
  have hother : ∀ u, u ≠ t → awake phase [t] u = phase u := fun u hu => if_neg (by simpa using hu)
  refine ⟨⟨holder, hx.congr (fun u => ?_) fun u => ?_⟩, fun u => ?_⟩
  · by_cases hu : u = t
    · subst hu
      simp [hself, hb, hp, hne.symm]
    · rw [hother u hu]
  · by_cases hu : u = t
    · subst hu
      refine iff_of_true (Or.inr (Or.inr ?_)) ht
      simp [hself, hp]
    · simp only [Inside, hother u hu]
  · refine iff_of_false (by simp) ?_
    by_cases hu : u = t
    · subst hu
      simp [hself]
    · rw [hother u hu]
      exact fun ha => hu (h.alone (Or.inr (Or.inl ha)) ht)

end Guarded

structure Listed (queue : List ℕ) (place : Place) (phase : ℕ → Phase) : Prop where
  nodup : queue.Nodup
  mem : ∀ t, t ∈ queue ↔ asleepAt (phase t) = some place

section Listed

variable {queue : List ℕ} {place : Place} {phase phase' : ℕ → Phase} {touched : Place → Prop} {t : ℕ}

theorem Listed.within (h : Listed queue place phase) (hw : Within touched phase phase')
    (hp : ¬ touched place) : Listed queue place phase' :=
  ⟨h.nodup, fun t => (h.mem t).trans (hw.asleepAt hp t).symm⟩

theorem Listed.congr (h : Listed queue place phase)
    (ha : ∀ u, asleepAt (phase' u) = asleepAt (phase u)) : Listed queue place phase' :=
  ⟨h.nodup, fun t => by rw [ha, h.mem]⟩

theorem listed_sleep (h : Listed queue place phase) (ht : phase t = .ready) {b : Block}
    (hb : b.place = place) :
    Listed (queue ++ [t]) place (Function.update phase t (.asleep b)) where
  nodup := by
    refine List.nodup_append.mpr ⟨h.nodup, List.nodup_singleton t, ?_⟩
    rintro u hu v hv rfl
    obtain rfl : u = t := by simpa using hv
    simp [h.mem, ht] at hu
  mem := fun u => by
    rw [List.mem_append, List.mem_singleton, h.mem]
    by_cases hu : u = t
    · subst hu
      simp [hb]
    · simp [hu]

/-- A part of the queue is woken. -/
theorem listed_awake {ts rest : List ℕ} (h : Listed (ts ++ rest) place phase) :
    Listed rest place (awake phase ts) where
  nodup := (List.nodup_append.mp h.nodup).2.1
  mem := fun u => by
    have hdisj := (List.nodup_append.mp h.nodup).2.2
    by_cases hu : u ∈ ts
    · obtain ⟨b, hb, -⟩ := asleepAt_eq_some.mp ((h.mem u).mp (List.mem_append_left rest hu))
      have hw : awake phase ts u = .woken b := by rw [awake, if_pos hu, hb, Phase.awake]
      rw [hw]
      exact iff_of_false (fun hr => hdisj u hu u hr rfl) (by simp)
    · have hw : awake phase ts u = phase u := if_neg hu
      rw [hw, ← h.mem, List.mem_append]
      exact (or_iff_right hu).symm

end Listed

structure Table (k : Tasks) (phase : ℕ → Phase) : Prop where
  absent : ∀ t, phase t = .absent ↔ k.taskCount ≤ t
  waiting : ∀ t, (k.memory (some t)).wait = .all ↔ asleepAt (phase t) = some .wait
  noPid : ∀ t, (k.memory (some t)).wait ≠ .pid
  noWaitpid : ∀ t child, phase t ≠ .asleep (.waitpid child) ∧ phase t ≠ .woken (.waitpid child)
  handed : ∀ t child, (k.memory (some t)).chwait = some child → phase child = .exited
  two : 2 ≤ k.taskCount
  length : k.tasklist.length = k.taskCount
  entry : ∀ i p : ℕ, k.tasklist[i]? = some (some p) → p = i
  first : (k.memory (some 1)).parent = some 0
  noSelf : ∀ t, (k.memory (some t)).parent ≠ some t

section Table

variable {k : Tasks} {phase phase' : ℕ → Phase} {touched : Place → Prop} {t : ℕ}

theorem Table.congr (h : Table k phase) (ha : ∀ t, phase' t = .absent ↔ phase t = .absent)
    (hx : ∀ t, phase' t = .exited ↔ phase t = .exited)
    (hs : ∀ t, asleepAt (phase' t) = some .wait ↔ asleepAt (phase t) = some .wait)
    (hn : ∀ t child, phase' t ≠ .asleep (.waitpid child) ∧ phase' t ≠ .woken (.waitpid child)) :
    Table k phase' where
  absent := fun t => (ha t).trans (h.absent t)
  waiting := fun t => (h.waiting t).trans (hs t).symm
  noPid := h.noPid
  noWaitpid := hn
  handed := fun t child hc => (hx child).mpr (h.handed t child hc)
  two := h.two
  length := h.length
  entry := h.entry
  first := h.first
  noSelf := h.noSelf

theorem Table.within (h : Table k phase) (hw : Within touched phase phase') (hp : ¬ touched .wait) :
    Table k phase' := by
  refine h.congr hw.eq_absent hw.eq_exited (hw.asleepAt hp) fun t child => ?_
  rcases hw t with he | ⟨-, -, hn⟩
  · rw [he]
    exact h.noWaitpid t child
  · obtain ⟨-, -, ha, hb⟩ := hn .wait hp
    exact ⟨fun ht => ha (by rw [ht]; rfl), fun ht => hb (by rw [ht]; rfl)⟩

theorem Table.lt (h : Table k phase) (ht : phase t ≠ .absent) : t < k.taskCount :=
  not_le.mp fun hle => ht ((h.absent t).mpr hle)

theorem table_fork (h : Table k phase) (ht : phase t = .ready) :
    Table (taskFork k t).1 (Function.update phase k.taskCount .ready) := by
  have hnew : phase k.taskCount = .absent := (h.absent _).mpr le_rfl
  have htn : t < k.taskCount := h.lt (by simp [ht])
  have hmem : ∀ u, u ≠ k.taskCount → (taskFork k t).1.memory (some u) = k.memory (some u) := by
    intro u hu
    simp [taskFork, hu]
  have hself : (taskFork k t).1.memory (some k.taskCount) =
      ⟨k.taskCount, some t, -1, none, .none⟩ := by
    simp [taskFork]
  refine ⟨fun u => ?_, fun u => ?_, fun u => ?_, fun u child => ?_, fun u child hc => ?_, ?_, ?_,
    fun i p hi => ?_, ?_, fun u => ?_⟩
  · change Function.update phase k.taskCount .ready u = .absent ↔ k.taskCount + 1 ≤ u
    by_cases hu : u = k.taskCount
    · subst hu
      simp
    · rw [Function.update_of_ne hu, h.absent]
      omega
  · by_cases hu : u = k.taskCount
    · subst hu
      simp [hself]
    · rw [hmem u hu, Function.update_of_ne hu, h.waiting]
  · by_cases hu : u = k.taskCount
    · subst hu
      simp [hself]
    · rw [hmem u hu]
      exact h.noPid u
  · by_cases hu : u = k.taskCount
    · subst hu
      simp
    · rw [Function.update_of_ne hu]
      exact h.noWaitpid u child
  · by_cases hu : u = k.taskCount
    · subst hu
      simp [hself] at hc
    · rw [hmem u hu] at hc
      have hexit := h.handed u child hc
      rwa [Function.update_of_ne (by rintro rfl; simp [hnew] at hexit)]
  · exact h.two.trans (Nat.le_succ _)
  · simp [taskFork, h.length]
  · simp only [taskFork] at hi
    rw [List.getElem?_append] at hi
    split_ifs at hi with hlt
    · exact h.entry i p hi
    · obtain ⟨hz, he⟩ : i - k.tasklist.length = 0 ∧ k.taskCount = p := by
        cases hd : i - k.tasklist.length with
        | zero => simpa [hd] using hi
        | succ n => simp [hd] at hi
      have hlen := h.length
      omega
  · have htwo := h.two
    rw [hmem 1 (by omega), h.first]
  · by_cases hu : u = k.taskCount
    · subst hu
      rw [hself]
      simp [htn.ne]
    · rw [hmem u hu]
      exact h.noSelf u

/-- One task is edited, and stands somewhere else then. -/
theorem table_edit (h : Table k phase) {f : TaskT → TaskT} {ph : Phase} (ht : Live (phase t))
    (hph : ph ≠ .absent) (hparent : (f (k.memory (some t))).parent = (k.memory (some t)).parent)
    (hwait : (f (k.memory (some t))).wait = .all ↔ asleepAt ph = some .wait)
    (hpid : (f (k.memory (some t))).wait ≠ .pid)
    (hwaitpid : ∀ child, ph ≠ .asleep (.waitpid child) ∧ ph ≠ .woken (.waitpid child))
    (hchwait : ∀ child, (f (k.memory (some t))).chwait = some child → phase child = .exited ) :
    Table (setTask k (some t) f) (Function.update phase t ph) := by
  have hmem : ∀ u, u ≠ t → (setTask k (some t) f).memory (some u) = k.memory (some u) := by
    intro u hu
    simp [setTask, hu]
  have hself : (setTask k (some t) f).memory (some t) = f (k.memory (some t)) := by
    simp [setTask]
  have hkeep : ∀ child, phase child = .exited → Function.update phase t ph child = .exited := by
    intro child hc
    rwa [Function.update_of_ne]
    rintro rfl
    exact ht.2 hc
  refine ⟨fun u => ?_, fun u => ?_, fun u => ?_, fun u child => ?_, fun u child hc => hkeep child ?_, h.two,
    h.length, h.entry, ?_, fun u => ?_⟩
  · by_cases hu : u = t
    · subst hu
      rw [Function.update_self]
      exact iff_of_false hph (not_le.mpr (h.lt ht.1))
    · rw [Function.update_of_ne hu, h.absent]
      exact Iff.rfl
  · by_cases hu : u = t
    · subst hu
      rw [hself, Function.update_self, hwait]
    · rw [hmem u hu, Function.update_of_ne hu, h.waiting]
  · by_cases hu : u = t
    · subst hu
      rwa [hself]
    · rw [hmem u hu]
      exact h.noPid u
  · by_cases hu : u = t
    · subst hu
      rw [Function.update_self]
      exact hwaitpid child
    · rw [Function.update_of_ne hu]
      exact h.noWaitpid u child
  · by_cases hu : u = t
    · subst hu
      rw [hself] at hc
      exact hchwait child hc
    · rw [hmem u hu] at hc
      exact h.handed u child hc
  · by_cases h1 : 1 = t
    · rw [h1, hself, hparent, ← h1, h.first]
    · rw [hmem 1 h1, h.first]
  · by_cases hu : u = t
    · subst hu
      rw [hself, hparent]
      exact h.noSelf u
    · rw [hmem u hu]
      exact h.noSelf u

theorem table_sleep (h : Table k phase) (ht : phase t = .ready) :
    Table (setTask k (some t) fun task => { task with wait := .all })
      (Function.update phase t (.asleep .wait)) := by
  apply table_edit h (by simp [ht, Live]) (by simp) rfl (by simp [Block.place]) (by simp) (by simp)
  exact h.handed t

theorem table_exit (h : Table k phase) (ht : phase t = .ready) (status : Int16) :
    Table (setTask k (some t) fun task => { task with exitStatus := status })
      (Function.update phase t .exited) := by
  apply table_edit h (by simp [ht, Live]) (by simp) rfl ?_ (h.noPid t) (by simp) (h.handed t)
  rw [h.waiting, ht]
  rfl

theorem Table.asleep_wait (h : Table k phase) (ht : asleepAt (phase t) = some .wait) :
    phase t = .asleep .wait := by
  obtain ⟨b, hb, hp⟩ := asleepAt_eq_some.mp ht
  cases b with
  | wait => exact hb
  | waitpid child => exact absurd hb (h.noWaitpid t child).1
  | _ => cases hp

theorem table_handOver (h : Table k phase) {parent : ℕ} (hp : asleepAt (phase parent) = some .wait)
    (ht : phase t = .exited) :
    Table (setTask k (some parent) fun task => { task with chwait := some t, wait := .none })
      (awake phase [parent]) := by
  have hasleep := h.asleep_wait hp
  have hawake : awake phase [parent] = Function.update phase parent (.woken .wait) := by
    funext u
    by_cases hu : u = parent
    · subst hu
      simp [awake, hasleep, Phase.awake]
    · simp [awake, hu]
  rw [hawake]
  apply table_edit h (by simp [hasleep, Live]) (by simp) rfl (by simp) (by simp) (by simp)
  intro child hc
  obtain rfl : t = child := Option.some.inj hc
  exact ht

theorem table_kill (h : Table k phase) (h0 : phase 0 = .ready) {child : ℕ}
    (hc : phase child = .exited) : Table (taskKilltask k (some child)) phase := by
  have hfields := fun u => taskKilltask_fields k (some child) (some u)
  have hinit : ∀ p, k.tasklist[initPid]?.join = some p → p = 1 := by
    intro p hp
    exact h.entry 1 p (Option.join_eq_some_iff.mp hp)
  have hfirst : ((taskKilltask k (some child)).memory (some 1)).parent = some 0 := by
    rw [taskKilltask_other, h.first]
    rw [h.first, ne_eq, Option.some.injEq]
    rintro rfl
    rw [h0] at hc
    cases hc
  refine ⟨h.absent, fun u => ?_, fun u => ?_, h.noWaitpid, fun u c hu => ?_, h.two, ?_, fun i p hi => ?_,
    hfirst, fun u => ?_⟩
  · rw [(hfields u).2.2.2, h.waiting]
  · rw [(hfields u).2.2.2]
    exact h.noPid u
  · rw [(hfields u).2.2.1] at hu
    exact h.handed u c hu
  · rw [taskKilltask, List.length_set]
    exact h.length
  · change (k.tasklist.set _ none)[i]? = some (some p) at hi
    rw [List.getElem?_set] at hi
    split_ifs at hi
    · cases hi
    · exact h.entry i p hi
  · by_cases hu : u = 1
    · subst hu
      rw [hfirst]
      decide
    · rcases taskOrphanAll_fields k (some child) (some u) with he | ⟨-, he⟩
      · change ((taskOrphanAll k (some child)).memory (some u)).parent ≠ some u
        rw [he]
        exact h.noSelf u
      · change ((taskOrphanAll k (some child)).memory (some u)).parent ≠ some u
        rw [he]
        exact fun hself => hu (hinit u hself)

end Table

def onPipe : Phase → EndOfFile.Phase
  | .asleep (.pipe ptr len) => .asleep ptr len
  | .woken (.pipe ptr len) => .woken ptr len
  | .exited => .exited
  | _ => .out

/-- The kernel as the calls on pipes see it. -/
def pipeState (k : Kernel) (phase : ℕ → Phase) : EndOfFile.State := ⟨k, onPipe ∘ phase⟩

section PipeState

variable {k : Kernel} {phase phase' : ℕ → Phase} {touched : Place → Prop} {t : ℕ}

theorem onPipe_eq_out {ph : Phase} (hl : Live ph) (h : ∀ ptr, asleepAt ph ≠ some (.pipe ptr) ∧
    wokenAt ph ≠ some (.pipe ptr)) : onPipe ph = .out := by
  cases ph with
  | absent => rfl
  | ready => rfl
  | exited => exact absurd rfl hl.2
  | asleep b =>
    cases b with
    | pipe ptr len => exact absurd rfl (h ptr).1
    | _ => rfl
  | woken b =>
    cases b with
    | pipe ptr len => exact absurd rfl (h ptr).2
    | _ => rfl

theorem Within.pipeState (hw : Within touched phase phase') (hp : ∀ ptr, ¬ touched (.pipe ptr)) :
    pipeState k phase' = RunQueue.pipeState k phase := by
  have hphase : onPipe ∘ phase' = onPipe ∘ phase := by
    funext u
    rcases hw u with he | ⟨hl, hl', hn⟩
    · exact congrArg onPipe he
    · have h := onPipe_eq_out hl fun ptr => ⟨(hn _ (hp ptr)).1, (hn _ (hp ptr)).2.1⟩
      have h' := onPipe_eq_out hl' fun ptr => ⟨(hn _ (hp ptr)).2.2.1, (hn _ (hp ptr)).2.2.2⟩
      exact h'.trans h.symm
  rw [RunQueue.pipeState, hphase, RunQueue.pipeState]

theorem onPipe_awake (ph : Phase) : onPipe ph.awake = (onPipe ph).awake := by
  cases ph with
  | asleep b => cases b <;> rfl
  | woken b => cases b <;> rfl
  | _ => rfl

theorem onPipe_wake (phase : ℕ → Phase) (o : Option ℕ) :
    onPipe ∘ awake phase o.toList = EndOfFile.wake (onPipe ∘ phase) o := by
  cases o with
  | none => rfl
  | some u =>
    funext v
    by_cases hv : v = u
    · subst hv
      simp [awake, EndOfFile.wake, onPipe_awake]
    · simp [awake, EndOfFile.wake, hv]

theorem onPipe_eq_asleep {ph : Phase} {ptr len : ℕ} :
    onPipe ph = .asleep ptr len ↔ ph = .asleep (.pipe ptr len) := by
  cases ph with
  | asleep b => cases b <;> simp [onPipe]
  | woken b => cases b <;> simp [onPipe]
  | _ => simp [onPipe]

/-- The sleepers of a pipe in use. -/
theorem listed_pipe (h : EndOfFile.Inv (pipeState k phase)) {ptr : ℕ} (hlt : ptr < k.objects.nextPipe)
    (hd : (k.objects.pipes ptr).dead = false) :
    Listed (k.objects.pipes ptr).lock.sq (.pipe ptr) phase := by
  have hs := h.served ptr hlt hd
  refine ⟨hs.nodup, fun t => (hs.sleepers t).trans ?_⟩
  constructor
  · rintro ⟨len, ht⟩
    rw [onPipe_eq_asleep.mp ht]
    rfl
  · intro ht
    obtain ⟨b, hb, hp⟩ := asleepAt_eq_some.mp ht
    cases b with
    | pipe q len =>
      obtain rfl : q = ptr := by simpa [Block.place] using hp
      exact ⟨len, onPipe_eq_asleep.mpr hb⟩
    | _ => cases hp

end PipeState

structure Inv (s : State) : Prop where
  run : Run s.rrQueue s.currentTask s.phase
  disk : Guarded s.diskSem s.ataTask .diskSem .ataTask s.phase
  stdin : Guarded s.stdinLock s.readerTask .stdinLock .readerTask s.phase
  locks : ∀ lock, Listed (s.locks lock).procq (.rwlock lock) s.phase
  pipes : EndOfFile.Inv (pipeState s.k s.phase)
  table : Table s.tasks s.phase

section Frames

variable {s : State} {rr : List ℕ} {cur : ℕ} {phase : ℕ → Phase}

theorem Inv.atDisk (h : Inv s) {sem : Ksemaphore ℕ} {slot : Option ℕ} {op : Op}
    (hw : Within (fun p => p = .diskSem ∨ p = .ataTask) s.phase phase) (hr : Run rr cur phase)
    (hg : Guarded sem slot .diskSem .ataTask phase) :
    Inv { s with rrQueue := rr, currentTask := cur, diskSem := sem, ataTask := slot, ataCurrentOp := op,
                 phase := phase } where
  run := hr
  disk := hg
  stdin := h.stdin.within hw (by simp) (by simp)
  locks := fun lock => (h.locks lock).within hw (by simp)
  pipes := by
    have hp : pipeState s.k phase = pipeState s.k s.phase := hw.pipeState (by simp)
    exact hp ▸ h.pipes
  table := h.table.within hw (by simp)

theorem Inv.atStdin (h : Inv s) {sem : Ksemaphore ℕ} {slot : Option ℕ} {input : List (List UInt8)}
    (hw : Within (fun p => p = .stdinLock ∨ p = .readerTask) s.phase phase) (hr : Run rr cur phase)
    (hg : Guarded sem slot .stdinLock .readerTask phase) :
    Inv { s with rrQueue := rr, currentTask := cur, stdinLock := sem, readerTask := slot,
                 inputList := input, phase := phase } where
  run := hr
  disk := h.disk.within hw (by simp) (by simp)
  stdin := hg
  locks := fun lock => (h.locks lock).within hw (by simp)
  pipes := by
    have hp : pipeState s.k phase = pipeState s.k s.phase := hw.pipeState (by simp)
    exact hp ▸ h.pipes
  table := h.table.within hw (by simp)

theorem Inv.atLock (h : Inv s) {lock : ℕ} {l : Krwlock ℕ}
    (hw : Within (fun p => p = .rwlock lock) s.phase phase) (hr : Run rr cur phase)
    (hl : Listed l.procq (.rwlock lock) phase) :
    Inv { s with rrQueue := rr, currentTask := cur, locks := Function.update s.locks lock l,
                 phase := phase } where
  run := hr
  disk := h.disk.within hw (by simp) (by simp)
  stdin := h.stdin.within hw (by simp) (by simp)
  locks := fun other => by
    by_cases ho : other = lock
    · subst ho
      simpa using hl
    · simp only [ne_eq, ho, not_false_eq_true, Function.update_of_ne]
      exact (h.locks other).within hw (by simpa using ho)
  pipes := by
    have hp : pipeState s.k phase = pipeState s.k s.phase := hw.pipeState (by simp)
    exact hp ▸ h.pipes
  table := h.table.within hw (by simp)

theorem Inv.atPipe (h : Inv s) {ptr : ℕ} {k : Kernel}
    (hw : Within (fun p => p = .pipe ptr) s.phase phase) (hr : Run rr cur phase)
    (hp : EndOfFile.Inv (pipeState k phase)) :
    Inv { s with k := k, rrQueue := rr, currentTask := cur, phase := phase } where
  run := hr
  disk := h.disk.within hw (by simp) (by simp)
  stdin := h.stdin.within hw (by simp) (by simp)
  locks := fun lock => (h.locks lock).within hw (by simp)
  pipes := hp
  table := h.table.within hw (by simp)

theorem Inv.atWait (h : Inv s) {tasks : Tasks} (hw : Within (fun p => p = .wait) s.phase phase)
    (hr : Run rr cur phase) (ht : Table tasks phase) :
    Inv { s with tasks := tasks, rrQueue := rr, currentTask := cur, phase := phase } where
  run := hr
  disk := h.disk.within hw (by simp) (by simp)
  stdin := h.stdin.within hw (by simp) (by simp)
  locks := fun lock => (h.locks lock).within hw (by simp)
  pipes := by
    have hp : pipeState s.k phase = pipeState s.k s.phase := hw.pipeState (by simp)
    exact hp ▸ h.pipes
  table := ht

end Frames

section Disk

variable {s : State}

theorem inv_ataIssue (h : Inv s) (h0 : s.currentTask ≠ 0) {sem : Ksemaphore ℕ} {phase : ℕ → Phase}
    {holder : Option ℕ} (hw : Within (fun p => p = .diskSem ∨ p = .ataTask) s.phase phase)
    (hr : Run s.rrQueue s.currentTask phase) (hc : phase s.currentTask = .ready)
    (hx : Exclusive sem (fun u => asleepAt (phase u) = some .diskSem) (fun u => u = s.currentTask) holder)
    (hnone : ∀ u, ¬ Inside .diskSem .ataTask phase u) (op : Op) :
    Inv (ataIssue { s with diskSem := sem, phase := phase } op) := by
  obtain ⟨next, hrun, he⟩ := @taskSleep_eq
    { s with diskSem := sem, phase := phase, ataCurrentOp := op, ataTask := some s.currentTask } hr h0 .ata
  rw [ataIssue, he]
  refine h.atDisk (hw.trans (within_asleep hc (Or.inr rfl))) hrun ?_
  exact guarded_sleep hx (fun u _ => hnone u) (by simp [hc]) (by simp) rfl

theorem inv_ataAccess (h : Inv s) (h0 : s.currentTask ≠ 0) (hc : s.phase s.currentTask = .ready)
    (op : Op) : Inv (ataAccess s op) := by
  unfold ataAccess
  by_cases hm : mustSleep s.diskSem = true
  · obtain ⟨next, hrun, he⟩ := @taskSleep_eq
      { s with diskSem := ksemaphoreWait s.diskSem s.currentTask } h.run h0 (.diskSem op)
    rw [if_pos hm, he]
    exact h.atDisk (within_asleep hc (Or.inl rfl)) hrun (guarded_queue h.disk (by simp) hm hc rfl)
  · obtain ⟨⟨holder, hx⟩, hnone, -⟩ := h.disk.enter s.currentTask hm
    rw [if_neg hm]
    exact inv_ataIssue h h0 (Within.refl _) h.run hc hx hnone op

theorem inv_ataEnd (h : Inv s) {b : Block} (ht : s.phase s.currentTask = .woken b)
    (hb : b.place = .ataTask) : Inv (ataEnd (setPhase s s.currentTask .ready)) := by
  obtain ⟨⟨holder, hx⟩, hnone, hslot⟩ := h.disk.entered ht (Or.inr hb)
  have hhead : ∀ u ∈ s.diskSem.sq.head?.toList,
      asleepAt (Function.update s.phase s.currentTask .ready u) = some .diskSem := by
    intro u hu
    exact (hx.queued u).mp (List.mem_of_mem_head? (Option.mem_toList.mp hu))
  rw [ataEnd, awakeAll_eq]
  refine h.atDisk ?_ (h.run.ready.awake (Option.toList_nodup _) hhead) (guarded_signal hx hnone hslot)
  refine (within_ready (by simp [ht, Live]) ?_).trans (within_awake (Or.inl rfl) hhead)
  intro place hp
  right
  simpa [ht, hb, eq_comm] using hp

theorem inv_ataIhandler (h : Inv s) : Inv (ataIhandler s) := by
  obtain ⟨op, hop⟩ : ∃ op, (if s.ataCurrentOp = .write then { s with ataCurrentOp := .flush } else s) =
      { s with ataCurrentOp := op } := by
    split_ifs
    · exact ⟨.flush, rfl⟩
    · exact ⟨s.ataCurrentOp, rfl⟩
  rw [ataIhandler, hop]
  have hslot := h.disk.slot
  cases hs : s.ataTask with
  | none =>
    simp only
    rw [← hs]
    exact h.atDisk (Within.refl _) h.run h.disk
  | some t =>
    have hg := h.disk
    rw [hs] at hg
    have ht : ∀ u ∈ [t], asleepAt (s.phase u) = some .ataTask := by
      intro u hu
      rw [List.mem_singleton.mp hu, ← hslot, hs]
    simp only [taskAwake_eq]
    exact h.atDisk (within_awake (Or.inr rfl) ht) (h.run.awake (List.nodup_singleton t) ht)
      (guarded_interrupt hg (by simp))

end Disk

section Stdin

variable {s s' : State} {sem : Ksemaphore ℕ} {phase : ℕ → Phase} {holder : Option ℕ} {len : ℕ}

theorem inv_readInput (h : Inv s)
    (hw : Within (fun p => p = .stdinLock ∨ p = .readerTask) s.phase phase)
    (hr : Run s.rrQueue s.currentTask phase)
    (hx : Exclusive sem (fun u => asleepAt (phase u) = some .stdinLock) (fun u => u = s.currentTask)
      holder)
    (hnone : ∀ u, ¬ Inside .stdinLock .readerTask phase u) (hslot : s.readerTask = none)
    (hs : readInput { s with stdinLock := sem, phase := phase } len = some s') : Inv s' := by
  have hhead : ∀ u ∈ sem.sq.head?.toList, asleepAt (phase u) = some .stdinLock := by
    intro u hu
    exact (hx.queued u).mp (List.mem_of_mem_head? (Option.mem_toList.mp hu))
  unfold readInput at hs
  cases hl : s.inputList with
  | nil =>
    simp only [hl] at hs
    cases hs
  | cons input rest =>
    simp only [hl] at hs
    rw [awakeAll_eq] at hs
    obtain rfl := Option.some.inj hs
    exact h.atStdin (hw.trans (within_awake (Or.inl rfl) hhead)) (hr.awake (Option.toList_nodup _) hhead)
      (guarded_signal hx hnone hslot)

theorem inv_readLocked (h : Inv s) (h0 : s.currentTask ≠ 0)
    (hw : Within (fun p => p = .stdinLock ∨ p = .readerTask) s.phase phase)
    (hr : Run s.rrQueue s.currentTask phase) (hc : phase s.currentTask = .ready)
    (hx : Exclusive sem (fun u => asleepAt (phase u) = some .stdinLock) (fun u => u = s.currentTask)
      holder)
    (hnone : ∀ u, ¬ Inside .stdinLock .readerTask phase u) (hslot : s.readerTask = none)
    (hs : readLocked { s with stdinLock := sem, phase := phase } len = some s') : Inv s' := by
  unfold readLocked at hs
  split_ifs at hs
  · obtain ⟨next, hrun, he⟩ := @taskSleep_eq
      { s with stdinLock := sem, phase := phase, readerTask := some s.currentTask } hr h0 (.reader len)
    rw [he] at hs
    obtain rfl := Option.some.inj hs
    refine h.atStdin (hw.trans (within_asleep hc (Or.inr rfl))) hrun ?_
    exact guarded_sleep hx (fun u _ => hnone u) (by simp [hc]) (by simp) rfl
  · exact inv_readInput h hw hr hx hnone hslot hs

theorem inv_syscallReadStdin (h : Inv s) (h0 : s.currentTask ≠ 0)
    (hc : s.phase s.currentTask = .ready) (hs : syscallReadStdin s len = some s') : Inv s' := by
  unfold syscallReadStdin at hs
  by_cases hm : mustSleep s.stdinLock = true
  · obtain ⟨next, hrun, he⟩ := @taskSleep_eq
      { s with stdinLock := ksemaphoreWait s.stdinLock s.currentTask } h.run h0 (.stdinLock len)
    rw [if_pos hm, he] at hs
    obtain rfl := Option.some.inj hs
    exact h.atStdin (within_asleep hc (Or.inl rfl)) hrun (guarded_queue h.stdin (by simp) hm hc rfl)
  · obtain ⟨⟨holder, hx⟩, hnone, hslot⟩ := h.stdin.enter s.currentTask hm
    rw [if_neg hm] at hs
    exact inv_readLocked h h0 (Within.refl _) h.run hc hx hnone hslot hs

theorem within_woken {touched : Place → Prop} {b : Block} {t : ℕ} (ht : phase t = .woken b)
    (hb : touched b.place) : Within touched phase (Function.update phase t .ready) := by
  refine within_ready (by simp [ht, Live]) ?_
  rintro place (hp | hp)
  · simp [ht] at hp
  · obtain rfl : b.place = place := by simpa [ht] using hp
    exact hb

theorem inv_keyboardEof (h : Inv s) (line : Str) : Inv (keyboardEof s line) := by
  unfold keyboardEof
  have hslot := h.stdin.slot
  cases hs : s.readerTask with
  | none =>
    simp only
    rw [← hs]
    exact h.atStdin (Within.refl _) h.run h.stdin
  | some t =>
    have hg := h.stdin
    rw [hs] at hg
    have ht : ∀ u ∈ [t], asleepAt (s.phase u) = some .readerTask := by
      intro u hu
      rw [List.mem_singleton.mp hu, ← hslot, hs]
    simp only [taskAwake_eq]
    exact h.atStdin (within_awake (Or.inr rfl) ht) (h.run.awake (List.nodup_singleton t) ht)
      (guarded_interrupt hg (by simp))

end Stdin

section Locks

variable {s : State}

theorem wakeReaders_append (ps : List ℕ) (os : List Operation) :
    (wakeReaders ps os).2.2 ++ (wakeReaders ps os).1 = ps := by
  fun_induction wakeReaders ps os with
  | case1 p ps os rest ih => rw [List.cons_append, ih]
  | case2 => rfl

/-- The front of the queue of a lock is woken. -/
theorem inv_lockAwake (h : Inv s) {lock : ℕ} {l : Krwlock ℕ} {ts : List ℕ}
    (hl : ts ++ l.procq = (s.locks lock).procq) : Inv (awakeAll (setLock s lock l) ts) := by
  have hlist := h.locks lock
  rw [← hl] at hlist
  have ht : ∀ u ∈ ts, asleepAt (s.phase u) = some (.rwlock lock) :=
    fun u hu => (hlist.mem u).mp (List.mem_append_left _ hu)
  rw [awakeAll_eq]
  exact h.atLock (within_awake rfl ht) (h.run.awake (List.nodup_append.mp hlist.nodup).1 ht)
    (listed_awake hlist)

theorem inv_lockSleep (h : Inv s) (h0 : s.currentTask ≠ 0) (hc : s.phase s.currentTask = .ready)
    (lock : ℕ) (op : Operation) :
    Inv (taskSleep (setLock s lock (enqueue (s.locks lock) s.currentTask op)) (.rwlock lock op)) := by
  obtain ⟨next, hrun, he⟩ := @taskSleep_eq
    (setLock s lock (enqueue (s.locks lock) s.currentTask op)) h.run h0 (.rwlock lock op)
  rw [he]
  exact h.atLock (within_asleep hc rfl) hrun (listed_sleep (h.locks lock) hc rfl)

theorem inv_readAcquire (h : Inv s) (lock : ℕ) : Inv (readAcquire s lock) :=
  inv_lockAwake h (wakeReaders_append _ _)

theorem inv_krwlockRead (h : Inv s) (h0 : s.currentTask ≠ 0) (hc : s.phase s.currentTask = .ready)
    (lock : ℕ) : Inv (krwlockRead s lock) := by
  unfold krwlockRead
  split_ifs
  · exact inv_lockSleep h h0 hc lock .read
  · exact inv_readAcquire h lock

theorem inv_writeAcquire (h : Inv s) (lock : ℕ) : Inv (writeAcquire s lock) :=
  h.atLock (Within.refl _) h.run (h.locks lock)

theorem inv_krwlockWrite (h : Inv s) (h0 : s.currentTask ≠ 0) (hc : s.phase s.currentTask = .ready)
    (lock : ℕ) : Inv (krwlockWrite s lock) := by
  unfold krwlockWrite
  split_ifs
  · exact inv_lockSleep h h0 hc lock .write
  · exact inv_writeAcquire h lock

theorem free_append (l : Krwlock ℕ) :
    (ReaderWriterLock.free l).2 ++ (ReaderWriterLock.free l).1.procq = l.procq := by
  change l.procq.take 1 ++ l.procq.tail = l.procq
  rw [← List.drop_one, List.take_append_drop]

theorem krwlockRelease_append (l : Krwlock ℕ) :
    (krwlockRelease l).2 ++ (krwlockRelease l).1.procq = l.procq := by
  unfold krwlockRelease
  split_ifs
  · exact free_append l
  · exact free_append { l with readers := 0 }
  · rfl

theorem inv_releaseLock (h : Inv s) (lock : ℕ) : Inv (releaseLock s lock) :=
  inv_lockAwake h (krwlockRelease_append _)

end Locks

section Tables

variable {s s' : State}

/-- A sleep that only the run queue knows to be over. -/
theorem inv_ready (h : Inv s) {b : Block} (ht : s.phase s.currentTask = .woken b)
    (hb : b.place = .wait ∨ ∃ lock, b.place = .rwlock lock) :
    Inv (setPhase s s.currentTask .ready) := by
  have hw : Within (fun p => p = .wait ∨ ∃ lock, p = .rwlock lock) s.phase
      (Function.update s.phase s.currentTask .ready) := within_woken ht hb
  have ha : ∀ u, asleepAt (Function.update s.phase s.currentTask .ready u) = asleepAt (s.phase u) := by
    intro u
    by_cases hu : u = s.currentTask
    · subst hu
      simp [ht]
    · rw [Function.update_of_ne hu]
  have hp : pipeState s.k (Function.update s.phase s.currentTask .ready) = pipeState s.k s.phase :=
    hw.pipeState (by simp)
  refine ⟨h.run.ready, h.disk.within hw (by simp) (by simp), h.stdin.within hw (by simp) (by simp),
    fun lock => (h.locks lock).congr ha, hp ▸ h.pipes, ?_⟩
  refine h.table.congr hw.eq_absent hw.eq_exited (fun u => by rw [setPhase, ha]) fun u child => ?_
  by_cases hu : u = s.currentTask
  · subst hu
    simp [setPhase]
  · simp only [setPhase, Function.update_of_ne hu]
    exact h.table.noWaitpid u child

theorem pipes_call (h : Inv s) (hc : s.phase s.currentTask = .ready) {c : Call} {k : Kernel}
    (hk : Syscall.step s.k (s.currentTask, c) = some k) : EndOfFile.Inv ⟨k,
      Function.update (onPipe ∘ s.phase) s.currentTask (EndOfFile.leave c .out)⟩ := by
  have hout : (pipeState s.k s.phase).phase s.currentTask = .out := congrArg onPipe hc
  apply @EndOfFile.inv_step _ _ (.call s.currentTask c) h.pipes
  rw [EndOfFile.step, if_pos hout]
  exact congrArg (Option.map _) hk

theorem inv_call (h : Inv s) (hc : s.phase s.currentTask = .ready) {c : Call} {k : Kernel}
    (hx : c ≠ .exit) (hk : Syscall.step s.k (s.currentTask, c) = some k) : Inv { s with k := k } := by
  have hp := pipes_call h hc hk
  have hleave : EndOfFile.leave c .out = (onPipe ∘ s.phase) s.currentTask := by
    rw [Function.comp_apply, hc]
    cases c with
    | exit => exact absurd rfl hx
    | _ => rfl
  rw [hleave, Function.update_eq_self] at hp
  exact ⟨h.run, h.disk, h.stdin, h.locks, hp, h.table⟩

theorem Run.fork {queue : List ℕ} {current new : ℕ} {phase : ℕ → Phase} (h : Run queue current phase)
    (hnew : phase new = .absent) : Run (queue ++ [new]) current (Function.update phase new .ready) where
  nodup := by
    refine List.nodup_append.mpr ⟨h.nodup, List.nodup_singleton new, ?_⟩
    rintro t ht u hu rfl
    obtain rfl : t = new := by simpa using hu
    simp [h.mem, hnew] at ht
  idle := by
    rw [Function.update_of_ne, h.idle]
    rintro rfl
    rw [h.idle] at hnew
    cases hnew
  head := by rw [List.head?_append, h.head]; rfl
  mem := fun t => by
    rw [List.mem_append, List.mem_singleton, h.mem]
    by_cases ht : t = new
    · subst ht
      simp
    · simp [ht]

theorem inv_syscallFork (h : Inv s) (hc : s.phase s.currentTask = .ready)
    (hs : syscallFork s = some s') : Inv s' := by
  obtain ⟨k, hk, rfl⟩ := Option.map_eq_some_iff.mp hs
  have hcall := inv_call h hc (by simp) hk
  have hnew : s.phase s.tasks.taskCount = .absent := (h.table.absent _).mpr le_rfl
  have hsame : ∀ {α : Type} (f : Phase → α), f .ready = f .absent → ∀ u,
      f (Function.update s.phase s.tasks.taskCount .ready u) = f (s.phase u) := by
    intro α f hf u
    by_cases hu : u = s.tasks.taskCount
    · subst hu
      rw [Function.update_self, hnew, hf]
    · rw [Function.update_of_ne hu]
  refine ⟨h.run.fork hnew, h.disk.congr (hsame _ rfl) (hsame _ rfl), h.stdin.congr (hsame _ rfl) (hsame _ rfl),
    fun lock => (h.locks lock).congr (hsame _ rfl), ?_, table_fork h.table hc⟩
  have hphase : onPipe ∘ Function.update s.phase s.tasks.taskCount .ready = onPipe ∘ s.phase :=
    funext (hsame _ rfl)
  have hp := hcall.pipes
  rw [pipeState, ← hphase] at hp
  exact hp

theorem inv_syscallExit (h : Inv s) (h0 : s.currentTask ≠ 0) (hc : s.phase s.currentTask = .ready)
    {status : Int16} (hs : syscallExit s status = some s') : Inv s' := by
  obtain ⟨k, hk, hs⟩ := Option.bind_eq_some_iff.mp hs
  obtain ⟨parent, -, rfl⟩ := Option.map_eq_some_iff.mp hs
  obtain ⟨next, rest, hq, hrun⟩ := h.run.leave h0 (show Phase.exited ≠ .ready ∧ ∀ b, Phase.exited ≠ .woken b
    by simp)
  have hsame : ∀ {α : Type} (f : Phase → α), f .exited = f .ready → ∀ u,
      f (Function.update s.phase s.currentTask .exited u) = f (s.phase u) := by
    intro α f hf u
    by_cases hu : u = s.currentTask
    · rw [hu, Function.update_self, hc, hf]
    · rw [Function.update_of_ne hu]
  have hp : EndOfFile.Inv (pipeState k (Function.update s.phase s.currentTask .exited)) := by
    rw [pipeState, Function.comp_update]
    exact pipes_call h hc hk
  have hleft : Inv { s with
      k := k
      tasks := setTask s.tasks (some s.currentTask) fun t => { t with exitStatus := status }
      rrQueue := next :: rest
      currentTask := next
      phase := Function.update s.phase s.currentTask .exited } :=
    ⟨hrun, h.disk.congr (hsame _ rfl) (hsame _ rfl), h.stdin.congr (hsame _ rfl) (hsame _ rfl),
      fun lock => (h.locks lock).congr (hsame _ rfl), hp, table_exit h.table hc status⟩
  simp only
  split_ifs with hwait
  · have hall := hwait.resolve_left fun hpid => hleft.table.noPid parent hpid.1
    have hasleep := (hleft.table.waiting parent).mp hall
    have ht : ∀ u ∈ [parent], asleepAt (Function.update s.phase s.currentTask .exited u) = some .wait := by
      intro u hu
      rw [List.mem_singleton.mp hu]
      exact hasleep
    rw [taskAwake_eq]
    simp only [taskSwitch, setPhase, hq, List.cons_append]
    exact hleft.atWait (within_awake rfl ht) (hrun.awake (List.nodup_singleton parent) ht)
      (table_handOver hleft.table hasleep (Function.update_self ..))
  · simp only [taskSwitch, setPhase, hq]
    exact hleft

theorem inv_killChild (h : Inv s) {child : ℕ} (hc : s.phase child = .exited)
    (hs : killChild s child = some s') : Inv s' := by
  unfold killChild at hs
  split_ifs at hs
  obtain rfl := Option.some.inj hs
  exact h.atWait (Within.refl _) h.run (table_kill h.table h.run.idle hc)

theorem inv_reap (h : Inv s) (hs : reap s = some s') : Inv s' := by
  obtain ⟨child, hc, hk⟩ := Option.bind_eq_some_iff.mp hs
  exact inv_killChild h (h.table.handed _ child hc) hk

theorem inv_syscallWait (h : Inv s) (h0 : s.currentTask ≠ 0) (hc : s.phase s.currentTask = .ready)
    (hs : syscallWait s = some s') : Inv s' := by
  simp only [syscallWait] at hs
  split_ifs at hs
  split at hs
  · obtain ⟨next, hrun, he⟩ := @taskSleep_eq { s with
      tasks := setTask s.tasks (some s.currentTask) fun t => { t with wait := .all } } h.run h0 .wait
    rw [he] at hs
    obtain rfl := Option.some.inj hs
    exact h.atWait (within_asleep hc rfl) hrun (table_sleep h.table hc)
  · exact inv_reap h hs

theorem inv_syscallWaitpid (h : Inv s) {childPid : ℕ} (hs : syscallWaitpid s childPid = some s') :
    Inv s' := by
  simp only [syscallWaitpid] at hs
  split at hs
  · obtain rfl := Option.some.inj hs
    exact h
  · rw [if_pos (h.table.noSelf _)] at hs
    obtain rfl := Option.some.inj hs
    exact h

end Tables

section Pipes

variable {s s' : State} {ptr len fdId : ℕ} {fd : Fd}

theorem pipeReadEnd_woken {pipe : PipeT ℕ} {next : PipeT ℕ × Option ℕ × List UInt8}
    (h : pipeReadEnd pipe len = some next) : ∀ u ∈ next.2.1, u ∈ pipe.lock.sq := by
  intro u hu
  unfold pipeReadEnd at h
  split at h
  · cases h
  · simp only at h
    split_ifs at h
    · obtain rfl := Option.some.inj h
      exact List.mem_of_mem_head? hu
    · obtain rfl := Option.some.inj h
      cases hu

theorem inv_pipeAwake (h : Inv s) {phase : ℕ → Phase}
    (hw : Within (fun p => p = .pipe ptr) s.phase phase) (hr : Run s.rrQueue s.currentTask phase)
    {pipe : PipeT ℕ} {o : Option ℕ} (ho : ∀ u ∈ o, asleepAt (phase u) = some (.pipe ptr))
    (hp : EndOfFile.Inv ⟨withPipe s.k ptr pipe, EndOfFile.wake (onPipe ∘ phase) o⟩) :
    Inv (awakeAll (setPipe { s with phase := phase } ptr pipe) o.toList) := by
  have ho' : ∀ u ∈ o.toList, asleepAt (phase u) = some (.pipe ptr) :=
    fun u hu => ho u (Option.mem_toList.mp hu)
  rw [← onPipe_wake] at hp
  rw [awakeAll_eq]
  exact h.atPipe (hw.trans (within_awake rfl ho')) (hr.awake (Option.toList_nodup _) ho') hp

theorem alive_of_fdOf (h : Inv s) (hfd : fdOf s.k s.currentTask fdId = some fd)
    (hp : Endpoints.pipeOf fd = some ptr) :
    Listed (s.k.objects.pipes ptr).lock.sq (.pipe ptr) s.phase := by
  obtain ⟨task, ht, hmem⟩ := EndOfFile.fdOf_some hfd
  obtain ⟨hlt, hd⟩ := EndOfFile.alive_of_fd h.pipes.sound ht hmem hp
  exact listed_pipe h.pipes hlt hd

theorem inv_pipeRead (h : Inv s) (h0 : s.currentTask ≠ 0) (hc : s.phase s.currentTask = .ready)
    (hfd : fdOf s.k s.currentTask fdId = some fd) (herr : ¬ (fd.access ||| fdAccessRead = 0 ∨ len = 0))
    (hp : Endpoints.pipeOf fd = some ptr) (hs : pipeRead s ptr len = some s') : Inv s' := by
  have hout : (pipeState s.k s.phase).phase s.currentTask = .out := congrArg onPipe hc
  have hself : Function.update (onPipe ∘ s.phase) s.currentTask .out = onPipe ∘ s.phase := by
    rw [← hout]
    exact Function.update_eq_self _ _
  -- the same read on the pipes alone
  have hread : ∀ e, EndOfFile.pipeRead ⟨s.k, onPipe ∘ s.phase⟩ s.currentTask ptr len = some e →
      EndOfFile.Inv e := by
    intro e he
    apply @EndOfFile.inv_step _ _ (.read s.currentTask fdId len) h.pipes
    rw [EndOfFile.step, if_pos hout, EndOfFile.syscallRead]
    have hfd' : fdOf (pipeState s.k s.phase).k s.currentTask fdId = some fd := hfd
    rw [hfd']
    simp only
    rw [if_neg herr, hp]
    exact he
  have hlist := alive_of_fdOf h hfd hp
  simp only [pipeRead] at hs
  by_cases hend : atEnd (s.k.objects.pipes ptr) = true
  · rw [if_pos hend] at hs
    obtain rfl := Option.some.inj hs
    exact h
  rw [if_neg hend] at hs
  by_cases hm : mustSleep (s.k.objects.pipes ptr).lock = true
  · obtain ⟨next, hrun, he⟩ := @taskSleep_eq (setPipe s ptr { s.k.objects.pipes ptr with
      lock := ksemaphoreWait (s.k.objects.pipes ptr).lock s.currentTask }) h.run h0 (.pipe ptr len)
    rw [if_pos hm, he] at hs
    obtain rfl := Option.some.inj hs
    refine h.atPipe (within_asleep hc rfl) hrun ?_
    rw [pipeState, Function.comp_update]
    apply hread
    rw [EndOfFile.pipeRead, if_neg hend, if_pos hm]
    rfl
  · rw [if_neg hm] at hs
    have hsq : (ksemaphoreWait (s.k.objects.pipes ptr).lock s.currentTask).sq =
        (s.k.objects.pipes ptr).lock.sq := by
      rw [ksemaphoreWait, if_neg hm]
    obtain ⟨next, hn, rfl⟩ := Option.map_eq_some_iff.mp hs
    have hn' : pipeReadEnd { s.k.objects.pipes ptr with
        lock := ksemaphoreWait (s.k.objects.pipes ptr).lock s.currentTask } len = some next := by
      simpa [Scheduler.setPipe, withPipe, Descriptor.setPipe] using hn
    have hset : setPipe (setPipe s ptr { s.k.objects.pipes ptr with
        lock := ksemaphoreWait (s.k.objects.pipes ptr).lock s.currentTask }) ptr next.1 =
        setPipe s ptr next.1 := by
      simp [Scheduler.setPipe, withPipe, Descriptor.setPipe]
    rw [hset]
    refine inv_pipeAwake h (Within.refl _) h.run (fun u hu => ?_) ?_
    · rw [← hlist.mem, ← hsq]
      exact pipeReadEnd_woken hn' u hu
    · apply hread
      rw [EndOfFile.pipeRead, if_neg hend, if_neg hm, EndOfFile.finish_withPipe, hself, hn', Option.map_some]

theorem inv_pipeFinish (h : Inv s) (hc : s.phase s.currentTask = .woken (.pipe ptr len))
    (hs : pipeFinish (setPhase s s.currentTask .ready) ptr len = some s') : Inv s' := by
  have hwoken : (pipeState s.k s.phase).phase s.currentTask = .woken ptr len := congrArg onPipe hc
  obtain ⟨hlt, hd⟩ := h.pipes.alive (show ((pipeState s.k s.phase).phase s.currentTask).ptr = some ptr by
    rw [hwoken]; rfl)
  have hlist := listed_pipe h.pipes hlt hd
  obtain ⟨next, hn, rfl⟩ := Option.map_eq_some_iff.mp hs
  refine inv_pipeAwake h (within_woken hc rfl) h.run.ready (fun u hu => ?_) ?_
  · have hmem := (hlist.mem u).mp (pipeReadEnd_woken hn u hu)
    rw [Function.update_of_ne, hmem]
    rintro rfl
    simp [hc] at hmem
  · apply @EndOfFile.inv_step _ _ (.resume s.currentTask) h.pipes
    rw [EndOfFile.step, hwoken, Function.comp_update]
    change (pipeReadEnd (s.k.objects.pipes ptr) len).map _ = _
    have hn' : pipeReadEnd (s.k.objects.pipes ptr) len = some next := hn
    rw [hn']
    rfl

theorem pipeWrite_woken (pipe : PipeT ℕ) (buffer : List UInt8) :
    ∀ u ∈ (pipeWrite pipe buffer).2, u ∈ pipe.lock.sq := by
  intro u hu
  unfold pipeWrite at hu
  split_ifs at hu
  · cases hu
  · exact List.mem_of_mem_head? hu

theorem inv_pipeSend (h : Inv s) (hc : s.phase s.currentTask = .ready) {buffer : List UInt8}
    (hfd : fdOf s.k s.currentTask fdId = some fd)
    (herr : ¬ (fd.access &&& fdAccessWrite = 0 ∨ buffer = []))
    (hp : Endpoints.pipeOf fd = some ptr) : Inv (pipeSend s ptr buffer) := by
  have hout : (pipeState s.k s.phase).phase s.currentTask = .out := congrArg onPipe hc
  have hlist := alive_of_fdOf h hfd hp
  refine inv_pipeAwake h (Within.refl _) h.run
    (fun u hu => (hlist.mem u).mp (pipeWrite_woken _ buffer u hu)) ?_
  apply @EndOfFile.inv_step _ _ (.write s.currentTask fdId buffer) h.pipes
  have hfd' : fdOf (pipeState s.k s.phase).k s.currentTask fdId = some fd := hfd
  rw [EndOfFile.step, if_pos hout, EndOfFile.syscallWrite, hfd']
  simp only
  rw [if_neg herr, hp]
  rfl

theorem inv_syscallRead (h : Inv s) (h0 : s.currentTask ≠ 0) (hc : s.phase s.currentTask = .ready)
    (hs : syscallRead s fdId len = some s') : Inv s' := by
  unfold syscallRead at hs
  cases hfd : fdOf s.k s.currentTask fdId with
  | none =>
    rw [hfd] at hs
    obtain rfl := Option.some.inj hs
    exact h
  | some fd =>
    rw [hfd] at hs
    simp only at hs
    by_cases herr : fd.access ||| fdAccessRead = 0 ∨ len = 0
    · rw [if_pos herr] at hs
      obtain rfl := Option.some.inj hs
      exact h
    rw [if_neg herr] at hs
    have hpipe : ∀ ptr, Endpoints.pipeOf fd = some ptr → pipeRead s ptr len = some s' → Inv s' :=
      fun ptr hp => inv_pipeRead h h0 hc hfd herr hp
    cases ht : fd.target with
    | stdin =>
      rw [ht] at hs
      exact inv_syscallReadStdin h h0 hc hs
    | pipe ptr =>
      rw [ht] at hs
      exact hpipe ptr (by rw [Endpoints.pipeOf, ht]) hs
    | mq ptr =>
      rw [ht] at hs
      exact hpipe ptr (by rw [Endpoints.pipeOf, ht]) hs
    | disk node =>
      rw [ht] at hs
      obtain rfl := Option.some.inj hs
      exact h
    | dir node =>
      rw [ht] at hs
      obtain rfl := Option.some.inj hs
      exact h
    | stdout =>
      rw [ht] at hs
      cases hs

theorem inv_syscallWrite (h : Inv s) (hc : s.phase s.currentTask = .ready) {buffer : List UInt8}
    (hs : syscallWrite s fdId buffer = some s') : Inv s' := by
  unfold syscallWrite at hs
  cases hfd : fdOf s.k s.currentTask fdId with
  | none =>
    rw [hfd] at hs
    obtain rfl := Option.some.inj hs
    exact h
  | some fd =>
    rw [hfd] at hs
    simp only at hs
    by_cases herr : fd.access &&& fdAccessWrite = 0 ∨ buffer = []
    · rw [if_pos herr] at hs
      obtain rfl := Option.some.inj hs
      exact h
    rw [if_neg herr] at hs
    have hpipe : ∀ ptr, Endpoints.pipeOf fd = some ptr → Inv (pipeSend s ptr buffer) :=
      fun ptr hp => inv_pipeSend h hc hfd herr hp
    cases ht : fd.target with
    | stdin =>
      rw [ht] at hs
      cases hs
    | pipe ptr =>
      rw [ht] at hs
      obtain rfl := Option.some.inj hs
      exact hpipe ptr (by rw [Endpoints.pipeOf, ht])
    | mq ptr =>
      rw [ht] at hs
      obtain rfl := Option.some.inj hs
      exact hpipe ptr (by rw [Endpoints.pipeOf, ht])
    | disk node =>
      rw [ht] at hs
      obtain rfl := Option.some.inj hs
      exact h
    | dir node =>
      rw [ht] at hs
      obtain rfl := Option.some.inj hs
      exact h
    | stdout =>
      rw [ht] at hs
      obtain rfl := Option.some.inj hs
      exact h

end Pipes

section Run

variable {s s' : State}

theorem inv_serve (h : Inv s) (h0 : s.currentTask ≠ 0) (hc : s.phase s.currentTask = .ready)
    {r : Request} (hs : serve s r = some s') : Inv s' := by
  cases r with
  | call c =>
    by_cases hfork : c = .fork
    · subst hfork
      exact inv_syscallFork h hc hs
    by_cases hexit : c = .exit
    · subst hexit
      cases hs
    have he : serve s (.call c) = (Syscall.step s.k (s.currentTask, c)).map fun k => { s with k := k } := by
      cases c <;> first | rfl | contradiction
    obtain ⟨k, hk, rfl⟩ := Option.map_eq_some_iff.mp (he.symm.trans hs)
    exact inv_call h hc hexit hk
  | exit status => exact inv_syscallExit h h0 hc hs
  | wait => exact inv_syscallWait h h0 hc hs
  | waitpid childPid => exact inv_syscallWaitpid h hs
  | read fdId len => exact inv_syscallRead h h0 hc hs
  | write fdId buffer => exact inv_syscallWrite h hc hs
  | krwlockRead lock =>
    obtain rfl := Option.some.inj hs
    exact inv_krwlockRead h h0 hc lock
  | krwlockWrite lock =>
    obtain rfl := Option.some.inj hs
    exact inv_krwlockWrite h h0 hc lock
  | krwlockRelease lock =>
    obtain rfl := Option.some.inj hs
    exact inv_releaseLock h lock
  | ataRead =>
    obtain rfl := Option.some.inj hs
    exact inv_ataAccess h h0 hc .read
  | ataWrite =>
    obtain rfl := Option.some.inj hs
    exact inv_ataAccess h h0 hc .write

theorem inv_goOn (h : Inv s) {b : Block} (hc : s.phase s.currentTask = .woken b)
    (hs : goOn (setPhase s s.currentTask .ready) b = some s') : Inv s' := by
  have h0 : s.currentTask ≠ 0 := by
    intro h0
    rw [h0, h.run.idle] at hc
    cases hc
  have hready : (Function.update s.phase s.currentTask .ready) s.currentTask = .ready :=
    Function.update_self ..
  cases b with
  | diskSem op =>
    obtain ⟨⟨holder, hx⟩, hnone, -⟩ := h.disk.entered hc (Or.inl rfl)
    obtain rfl := Option.some.inj hs
    exact inv_ataIssue h h0 (within_woken hc (Or.inl rfl)) h.run.ready hready hx hnone op
  | ata =>
    obtain rfl := Option.some.inj hs
    exact inv_ataEnd h hc rfl
  | stdinLock len =>
    obtain ⟨⟨holder, hx⟩, hnone, hslot⟩ := h.stdin.entered hc (Or.inl rfl)
    exact inv_readLocked h h0 (within_woken hc (Or.inl rfl)) h.run.ready hready hx hnone hslot hs
  | reader len =>
    obtain ⟨⟨holder, hx⟩, hnone, hslot⟩ := h.stdin.entered hc (Or.inr rfl)
    exact inv_readInput h (within_woken hc (Or.inr rfl)) h.run.ready hx hnone hslot hs
  | pipe ptr len => exact inv_pipeFinish h hc hs
  | rwlock lock op =>
    have hr := inv_ready h hc (Or.inr ⟨lock, rfl⟩)
    cases op with
    | read =>
      obtain rfl := Option.some.inj hs
      exact inv_readAcquire hr lock
    | write =>
      obtain rfl := Option.some.inj hs
      exact inv_writeAcquire hr lock
    | none =>
      obtain rfl := Option.some.inj hs
      exact inv_writeAcquire hr lock
  | wait => exact inv_reap (inv_ready h hc (Or.inl rfl)) hs
  | waitpid child => exact absurd hc (h.table.noWaitpid _ child).2

theorem inv_handle (h : Inv s) (i : Interrupt) : Inv (handle s i) := by
  cases i with
  | timer =>
    obtain ⟨rr, next, hrun, he⟩ := timer_eq h.run
    rw [handle, he]
    exact ⟨hrun, h.disk, h.stdin, h.locks, h.pipes, h.table⟩
  | keyboard line => exact inv_keyboardEof h line
  | ata => exact inv_ataIhandler h

theorem inv_step (h : Inv s) {a : Action} (hs : step s a = some s') : Inv s' := by
  cases a with
  | task r =>
    obtain ⟨⟨h0, hc⟩, hs⟩ := Option.ite_none_right_eq_some.mp hs
    exact inv_serve h h0 hc hs
  | resume =>
    simp only [step] at hs
    split at hs
    · rename_i b hc
      exact inv_goOn h hc hs
    · cases hs
  | interrupt i =>
    obtain ⟨-, hs⟩ := Option.ite_none_right_eq_some.mp hs
    obtain rfl := Option.some.inj hs
    exact inv_handle h i

theorem inv_exec {as : List Action} (h : Inv s) (hs : exec step s as = some s') : Inv s' := by
  apply @exec_invariant _ _ step (fun _ _ => True) Inv _ _ _ _ h (meets_true s as) hs
  exact fun s a t hi _ ha => inv_step hi ha

theorem init_phase (objects : Objects) (unset : Fd) (low : TaskT) (t : ℕ) :
    (init objects unset low).phase t = if t < 2 then .ready else .absent := rfl

theorem init_silent (objects : Objects) (unset : Fd) (low : TaskT) (t : ℕ) :
    asleepAt ((init objects unset low).phase t) = none ∧
      wokenAt ((init objects unset low).phase t) = none ∧
      onPipe ((init objects unset low).phase t) = .out := by
  rw [init_phase]
  split_ifs <;> exact ⟨rfl, rfl, rfl⟩

theorem table_init (objects : Objects) (unset : Fd) (low : TaskT) :
    Table (init objects unset low).tasks (init objects unset low).phase := by
  have hmem : ∀ t, (init objects unset low).tasks.memory (some t) =
      if t = 1 then ⟨1, some 0, -1, none, .none⟩ else ⟨0, none, -1, none, .none⟩ := by
    intro t
    by_cases ht : t = 1 <;> simp [init, taskFork, multitaskingInit, ht]
  refine ⟨fun t => ?_, fun t => ?_, fun t => ?_, fun t child => ?_, fun t child hc => ?_, le_rfl, rfl,
    fun i p hi => ?_, ?_, fun t => ?_⟩
  · rw [init_phase]
    change _ ↔ 2 ≤ t
    split_ifs with ht
    · exact iff_of_false (by simp) (by omega)
    · exact iff_of_true rfl (by omega)
  · rw [(init_silent objects unset low t).1, hmem]
    split_ifs <;> simp
  · rw [hmem]
    split_ifs <;> simp
  · rw [init_phase]
    split_ifs <;> simp
  · rw [hmem] at hc
    split_ifs at hc
  · rcases i with _ | _ | i
    · exact (Option.some.inj (Option.some.inj hi)).symm
    · exact (Option.some.inj (Option.some.inj hi)).symm
    · cases hi
  · rw [hmem, if_pos rfl]
  · rw [hmem]
    split_ifs with ht
    · subst ht
      decide
    · simp

theorem inv_init (objects : Objects) (unset : Fd) (low : TaskT) : Inv (init objects unset low) := by
  have hsilent := init_silent objects unset low
  have hguard : ∀ queue sleep, Guarded (ksemaphoreInit 1) none queue sleep (init objects unset low).phase := by
    intro queue sleep
    refine ⟨⟨none, exclusive_init (fun t => ?_) fun t => ?_⟩, fun t => ?_⟩
    · simp [(hsilent t).1]
    · simp [Inside, (hsilent t).1, (hsilent t).2.1]
    · simp [(hsilent t).1]
  have hpipes : onPipe ∘ (init objects unset low).phase =
      Function.update (fun _ => .out) 0 (EndOfFile.leave .fork .out) := by
    funext t
    rw [Function.comp_apply, (hsilent t).2.2]
    by_cases ht : t = 0
    · subst ht
      rfl
    · rw [Function.update_of_ne ht]
  refine ⟨⟨show [0, 1].Nodup by decide, rfl, rfl, fun t => ?_⟩, hguard _ _, hguard _ _,
    fun lock => ⟨List.nodup_nil, fun t => ?_⟩, ?_, ?_⟩
  · rw [init_phase]
    change t ∈ [0, 1] ↔ _
    split_ifs with ht
    · exact iff_of_true (by simp; omega) (Or.inl rfl)
    · exact iff_of_false (by simp; omega) (by simp)
  · rw [(hsilent t).1]
    exact iff_of_false List.not_mem_nil (by simp)
  · rw [pipeState, hpipes]
    exact EndOfFile.inv_perform (EndOfFile.inv_init objects unset) rfl rfl rfl
  · exact table_init objects unset low

theorem Listed.count {queue : List ℕ} {place : Place} {phase : ℕ → Phase} (h : Listed queue place phase)
    (t : ℕ) : queue.count t = if asleepAt (phase t) = some place then 1 else 0 := by
  split_ifs with ht
  · exact List.count_eq_one_of_mem h.nodup ((h.mem t).mpr ht)
  · exact List.count_eq_zero_of_not_mem fun hm => ht ((h.mem t).mp hm)

theorem Guarded.listed {sem : Ksemaphore ℕ} {slot : Option ℕ} {queue sleep : Place} {phase : ℕ → Phase}
    (h : Guarded sem slot queue sleep phase) :
    Listed sem.sq queue phase ∧ Listed slot.toList sleep phase := by
  obtain ⟨holder, hx⟩ := h.locked
  refine ⟨⟨hx.nodup, hx.queued⟩, Option.toList_nodup slot, fun t => ?_⟩
  rw [Option.mem_toList]
  exact h.slot t

theorem alive_of_asleep (h : Inv s) {t ptr : ℕ} (ht : asleepAt (s.phase t) = some (.pipe ptr)) :
    ptr < s.k.objects.nextPipe ∧ (s.k.objects.pipes ptr).dead = false := by
  obtain ⟨b, hb, hp⟩ := asleepAt_eq_some.mp ht
  cases b with
  | pipe q len =>
    obtain rfl : q = ptr := by simpa [Block.place] using hp
    have hasleep : (pipeState s.k s.phase).phase t = .asleep q len := onPipe_eq_asleep.mpr hb
    apply h.pipes.alive (t := t)
    rw [hasleep]
    rfl
  | _ => cases hp

theorem registrations_eq (h : Inv s) (t : ℕ) (place : Place) :
    registrations s t place = if asleepAt (s.phase t) = some place then 1 else 0 := by
  cases place with
  | diskSem => exact h.disk.listed.1.count t
  | ataTask => exact h.disk.listed.2.count t
  | stdinLock => exact h.stdin.listed.1.count t
  | readerTask => exact h.stdin.listed.2.count t
  | rwlock lock => exact (h.locks lock).count t
  | pipe ptr =>
    rw [registrations]
    split_ifs with hlive ht ht
    · rw [(listed_pipe h.pipes hlive.1 hlive.2).count, if_pos ht]
    · rw [(listed_pipe h.pipes hlive.1 hlive.2).count, if_neg ht]
    · exact absurd (alive_of_asleep h ht) hlive
    · rfl
  | wait =>
    have hw := h.table.waiting t
    rw [registrations]
    cases hwait : (s.tasks.memory (some t)).wait with
    | none =>
      have hno : asleepAt (s.phase t) ≠ some .wait := by simp [← hw, hwait]
      rw [if_pos rfl, if_neg hno]
    | pid => exact absurd hwait (h.table.noPid t)
    | all => rw [if_neg (by simp), if_pos (hw.mp hwait)]

/-- In every run, a live task that is not in the run queue is where exactly one thing can wake it. -/
theorem scheduled_exec (objects : Objects) (unset : Fd) (low : TaskT) (as : List Action) (s : State)
    (hs : exec step (init objects unset low) as = some s) : Scheduled s := by
  have h := inv_exec (inv_init objects unset low) hs
  refine ⟨h.run.zero_mem, h.run.nodup, h.run.head, fun t ht hlive hnot => ?_⟩
  obtain ⟨b, hb⟩ : ∃ b, s.phase t = .asleep b := by
    rw [h.run.mem, not_or, not_exists] at hnot
    have habs : s.phase t ≠ .absent := fun he => absurd ht (not_lt.mpr ((h.table.absent t).mp he))
    cases hp : s.phase t with
    | absent => exact absurd hp habs
    | ready => exact absurd hp hnot.1
    | asleep b => exact ⟨b, rfl⟩
    | woken b => exact absurd hp (hnot.2 b)
    | exited => exact absurd hp hlive
  refine ⟨b.place, ?_, fun other ho => ?_⟩
  · rw [registrations_eq h, hb, asleepAt_asleep, if_pos rfl]
  · rw [registrations_eq h, hb, asleepAt_asleep, if_neg]
    exact fun he => ho (Option.some.inj he).symm

/-- Task 1 forks task 2 and waits for it; task 2 reads from the keyboard, is woken by a line and exits,
which wakes task 1 again. -/
def forkAndWait : List Action :=
  [.interrupt .timer, .task (.call .fork), .task .wait, .interrupt .timer, .task (.read 0 4),
    .interrupt (.keyboard ⟨[65], by decide⟩), .interrupt .timer, .resume, .task (.exit 3),
    .interrupt .timer, .resume]

theorem scheduled_wait : ∃ s, exec step (init Syscall.blankObjects Syscall.blankFd
    ⟨0, none, 0, none, .none⟩) forkAndWait = some s ∧ Scheduled s :=
  ⟨_, rfl, scheduled_exec Syscall.blankObjects Syscall.blankFd ⟨0, none, 0, none, .none⟩ forkAndWait _ rfl⟩

end Run

end Eedox.RunQueue
