import Eedox.TaskWait

namespace Eedox.WaitWakeup

open Library.Runs TaskTable TaskWait

def Zombie (s : State) (p : Ptr) (c : ℕ) : Prop :=
  (s.k.memory (some c)).parent = p ∧ s.phase c = .exited ∧ s.k.tasklist[c]? = some (some c)

/-- A task sleeps in `wait` while a child of it has exited and has not been reaped. -/
def LostWakeup (s : State) : Prop := ∃ t c, s.phase t = .asleep ∧ Zombie s (some t) c

/-- A cleared entry of the table reads the memory at address 0; there it finds an exited child. -/
def NullChild (s : State) (t : ℕ) : Prop :=
  none ∈ s.k.tasklist ∧ (s.k.memory none).parent = some t ∧ (s.k.memory none).exitStatus ≠ -1

/-- No child of `t` has hidden itself behind the status -1, and none stands behind a cleared entry
that the search takes for a child. -/
def SafeSleep (s : State) (t : ℕ) : Prop :=
  (∀ c, Zombie s (some t) c → (s.k.memory (some c)).exitStatus ≠ -1) ∧
    (NullChild s t → ∀ c, ¬ Zombie s (some t) c)

/-- The task that is reaped leaves no exited child to an init that sleeps in `wait`. -/
def SafeReap (s : State) (t : ℕ) : Prop :=
  ∀ i, s.k.tasklist[initPid]?.join = some i → s.phase i = .asleep →
    ∀ c, Zombie s (s.k.memory (some t)).chwait c →
      c = (s.k.memory (s.k.memory (some t)).chwait).pid

def Safe (s : State) : Action → Prop
  | .wait t => if taskFindZombie s.k (some t) = none then SafeSleep s t else SafeReap s t
  | .resume t => SafeReap s t
  | _ => True

structure Inv (s : State) : Prop where
  noPid : ∀ n, (s.k.memory (some n)).wait ≠ .pid
  waiting : ∀ n, (s.k.memory (some n)).wait = .all ↔ s.phase n = .asleep

theorem inv_init (low : TaskT) : Inv (init low) :=
  ⟨(TaskWait.inv_init low).noPid, (TaskWait.inv_init low).waiting⟩

theorem inv_fork {s : State} (h : Inv s) (t : ℕ) :
    Inv { s with k := (taskFork s.k t).1, phase := Function.update s.phase s.k.taskCount .ready } := by
  constructor <;> intro n <;> by_cases hn : n = s.k.taskCount
  · simp [taskFork, hn]
  · simpa [taskFork, hn] using h.noPid n
  · simp [taskFork, hn]
  · simpa [taskFork, hn] using h.waiting n

theorem inv_sleep {s : State} (h : Inv s) (t : ℕ) :
    Inv { s with k := setTask s.k (some t) fun task => { task with wait := .all },
                 phase := Function.update s.phase t .asleep } := by
  constructor <;> intro n <;> by_cases hn : n = t
  · simp [setTask, hn]
  · simpa [setTask, hn] using h.noPid n
  · simp [setTask, hn]
  · simpa [setTask, hn] using h.waiting n

theorem inv_leave {s : State} (h : Inv s) {t : ℕ} (ht : s.phase t = .ready) (st : Int16) :
    Inv (leave s t st) := by
  constructor <;> intro n
  · rw [(leave_fields s t st _).2.2.1]
    exact h.noPid n
  · rw [(leave_fields s t st _).2.2.1, h.waiting]
    by_cases hn : n = t
    · subst hn
      simp [leave, ht]
    · simp [leave, hn]

theorem inv_handOver {s : State} (h : Inv s) (p : Ptr) (t : ℕ) : Inv (handOver s p t) := by
  cases p with
  | none =>
    have hmem : ∀ n, (handOver s none t).k.memory (some n) = s.k.memory (some n) := by
      intro n
      simp [handOver, setTask]
    exact ⟨fun n => (hmem n).symm ▸ h.noPid n, fun n => (hmem n).symm ▸ h.waiting n⟩
  | some p =>
    constructor <;> intro n <;> by_cases hn : n = p
    · simp [handOver, setTask, hn]
    · simpa [handOver, setTask, hn] using h.noPid n
    · simp [handOver, setTask, hn]
    · simpa [handOver, setTask, hn] using h.waiting n

theorem inv_exit {s : State} (h : Inv s) {t : ℕ} (ht : s.phase t = .ready) (st : Int16) :
    Inv (syscallExit s t st) := by
  simp only [syscallExit]
  split_ifs
  · exact inv_handOver (inv_leave h ht st) _ t
  · exact inv_leave h ht st

theorem inv_reap {s : State} (h : Inv s) {t : ℕ} (ht : s.phase t ≠ .asleep) :
    Inv (reap s t).1 := by
  have hwait : ∀ n, ((reap s t).1.k.memory (some n)).wait = (s.k.memory (some n)).wait := by
    intro n
    exact (taskKilltask_fields s.k _ (some n)).2.2.2
  constructor <;> intro n <;> rw [hwait]
  · exact h.noPid n
  · rw [h.waiting]
    by_cases hn : n = t
    · subst hn
      simp [reap, ht]
    · simp [reap, hn]

theorem inv_step {s s' : State} {a : Action} (h : Inv s) (hs : step s a = some s') : Inv s' := by
  obtain ⟨⟨u, out⟩, ha, rfl⟩ := Option.map_eq_some_iff.mp hs
  cases a with
  | fork t =>
    simp only [act, Option.ite_none_right_eq_some, Option.some.injEq, Prod.mk.injEq] at ha
    obtain ⟨_, rfl, _⟩ := ha
    exact inv_fork h t
  | exit t st =>
    simp only [act, Option.ite_none_right_eq_some, Option.some.injEq, Prod.mk.injEq] at ha
    obtain ⟨ht, rfl, _⟩ := ha
    exact inv_exit h ht.2 st
  | wait t =>
    simp only [act, Option.ite_none_right_eq_some, Option.some.injEq, syscallWait] at ha
    obtain ⟨ht, ha⟩ := ha
    cases hz : taskFindZombie s.k (some t) with
    | none =>
      rw [hz] at ha
      obtain ⟨rfl, _⟩ := Prod.mk.inj ha
      exact inv_sleep h t
    | some z =>
      rw [hz] at ha
      obtain rfl : (reap s t).1 = u := congrArg Prod.fst ha
      exact inv_reap h (by simp [ht.2])
  | resume t =>
    simp only [act, Option.ite_none_right_eq_some, Option.some.injEq] at ha
    obtain ⟨ht, ha⟩ := ha
    obtain rfl : (reap s t).1 = u := congrArg Prod.fst ha
    exact inv_reap h (by simp [ht])

theorem not_lost_fork {s : State} (h : ¬ LostWakeup s) (t : ℕ) :
    ¬ LostWakeup { s with k := (taskFork s.k t).1,
                          phase := Function.update s.phase s.k.taskCount .ready } := by
  rintro ⟨p, c, hp, hpar, hex, hl⟩
  have hpn : p ≠ s.k.taskCount := by
    rintro rfl
    simp at hp
  have hcn : c ≠ s.k.taskCount := by
    rintro rfl
    simp at hex
  simp only [ne_eq, hpn, hcn, not_false_eq_true, Function.update_of_ne] at hp hex
  refine h ⟨p, c, hp, by simpa [taskFork, hcn] using hpar, hex, ?_⟩
  simp only [taskFork] at hl
  by_cases hlt : c < s.k.tasklist.length
  · rwa [List.getElem?_append_left hlt] at hl
  · rw [List.getElem?_append_right (not_lt.mp hlt)] at hl
    have hmem := List.mem_of_getElem? hl
    simp only [List.mem_singleton, Option.some.injEq] at hmem
    exact absurd hmem hcn

theorem zombie_handOver {s : State} {p : Ptr} {t x c : ℕ} (hx : (handOver s p t).phase x = .asleep)
    (hz : Zombie (handOver s p t) (some x) c) :
    p ≠ some x ∧ s.phase x = .asleep ∧ Zombie s (some x) c := by
  obtain ⟨hpar, hex, hl⟩ := hz
  have hpar' : ((handOver s p t).k.memory (some c)).parent = (s.k.memory (some c)).parent := by
    by_cases hc : some c = p
    · subst hc
      simp [handOver, setTask]
    · simp [handOver, setTask, hc]
  rw [hpar'] at hpar
  cases p with
  | none => exact ⟨by simp, hx, hpar, hex, hl⟩
  | some q =>
    have hxq : x ≠ q := by
      rintro rfl
      simp [handOver] at hx
    have hcq : c ≠ q := by
      rintro rfl
      simp [handOver] at hex
    simp only [handOver, ne_eq, hxq, hcq, not_false_eq_true, Function.update_of_ne] at hx hex
    exact ⟨by simpa using Ne.symm hxq, hx, hpar, hex, hl⟩

theorem not_lost_exit {s : State} (hinv : Inv s) (h : ¬ LostWakeup s) {t : ℕ}
    (ht : s.phase t = .ready) (st : Int16) : ¬ LostWakeup (syscallExit s t st) := by
  have hleave : ∀ x c, (leave s t st).phase x = .asleep → Zombie (leave s t st) (some x) c →
      (s.k.memory (some t)).parent = some x := by
    rintro x c hx ⟨hpar, hex, hl⟩
    rw [(leave_fields s t st _).2.1] at hpar
    by_cases hc : c = t
    · rwa [← hc]
    · have hxt : x ≠ t := by
        rintro rfl
        simp [leave] at hx
      exact absurd ⟨x, c, by simpa [leave, hxt] using hx, hpar, by simpa [leave, hc] using hex, hl⟩ h
  rintro ⟨x, c, hx, hz⟩
  simp only [syscallExit] at hx hz
  split_ifs at hx hz with hw
  · obtain ⟨hne, hx, hz⟩ := zombie_handOver hx hz
    exact hne (hleave x c hx hz)
  · rw [hleave x c hx hz] at hw
    exact hw (Or.inr (((inv_leave hinv ht st).waiting x).mpr hx))

theorem zombie_unseen {s : State} {t c : ℕ} (hf : taskFindZombie s.k (some t) = none)
    (hz : Zombie s (some t) c) : (s.k.memory (some c)).exitStatus = -1 ∨ NullChild s t := by
  by_contra hno
  obtain ⟨hst, hnull⟩ := not_or.mp hno
  have hmem : some c ∈ s.k.tasklist := List.mem_of_getElem? hz.2.2
  simp only [taskFindZombie] at hf
  cases hfind : s.k.tasklist.find? fun child =>
      (s.k.memory child).parent = some t ∧ (s.k.memory child).exitStatus ≠ -1 with
  | none =>
    have := List.find?_eq_none.mp hfind (some c) hmem
    simp [hz.1, hst] at this
  | some child =>
    rw [hfind] at hf
    obtain rfl : child = none := hf
    have hprop := List.find?_some hfind
    simp only [decide_eq_true_eq] at hprop
    exact hnull ⟨List.mem_of_find?_eq_some hfind, hprop⟩

theorem not_lost_sleep {s : State} (h : ¬ LostWakeup s) {t : ℕ} (ht : s.phase t = .ready)
    (hf : taskFindZombie s.k (some t) = none) :
    ¬ LostWakeup { s with k := setTask s.k (some t) fun task => { task with wait := .all },
                          phase := Function.update s.phase t .asleep } ↔ SafeSleep s t := by
  let u : State := { s with k := setTask s.k (some t) fun task => { task with wait := .all },
                            phase := Function.update s.phase t .asleep }
  have hzombie : ∀ p c, Zombie u p c ↔ Zombie s p c := by
    intro p c
    have hpar : (u.k.memory (some c)).parent = (s.k.memory (some c)).parent := by
      by_cases hc : c = t <;> simp [u, setTask, hc]
    have hex : u.phase c = .exited ↔ s.phase c = .exited := by
      by_cases hc : c = t
      · subst hc
        simp [u, ht]
      · simp [u, hc]
    simp only [Zombie, hpar, hex]
    rfl
  have hnone : ¬ LostWakeup u ↔ ∀ c, ¬ Zombie s (some t) c := by
    constructor
    · intro hu c hz
      exact hu ⟨t, c, by simp [u], (hzombie _ _).mpr hz⟩
    · rintro hno ⟨x, c, hx, hz⟩
      rw [hzombie] at hz
      by_cases hxt : x = t
      · exact hno c (hxt ▸ hz)
      · exact h ⟨x, c, by simpa [u, hxt] using hx, hz⟩
  change ¬ LostWakeup u ↔ _
  rw [hnone]
  constructor
  · exact fun hno => ⟨fun c hz => absurd hz (hno c), fun _ => hno⟩
  · intro hsafe c hz
    rcases zombie_unseen hf hz with hst | hnull
    · exact hsafe.1 c hz hst
    · exact hsafe.2 hnull c hz

theorem not_lost_reap {s : State} (h : ¬ LostWakeup s) {t : ℕ} (ht : s.phase t ≠ .asleep)
    (hx : s.phase t ≠ .exited) : ¬ LostWakeup (reap s t).1 ↔ SafeReap s t := by
  let child := (s.k.memory (some t)).chwait
  let i := s.k.tasklist[initPid]?.join
  have hphase : ∀ n, n ≠ t → (reap s t).1.phase n = s.phase n := by
    intro n hn
    simp [reap, hn]
  have hpt : (reap s t).1.phase t = .ready := by simp [reap]
  have hlist : (reap s t).1.k.tasklist = s.k.tasklist.set (s.k.memory child).pid none := rfl
  have hmem : ∀ p, (reap s t).1.k.memory p = (taskOrphanAll s.k child).memory p := fun _ => rfl
  constructor
  · -- an exited child that init inherits while it sleeps is lost
    intro hno n hn hsleep c hz
    by_contra hc
    have hnt : n ≠ t := by
      rintro rfl
      exact ht hsleep
    have hct : c ≠ t := by
      rintro rfl
      exact hx hz.2.1
    refine hno ⟨n, c, (hphase n hnt).trans hsleep, ?_, (hphase c hct).trans hz.2.1, ?_⟩
    · rw [hmem, taskOrphanAll_child hz.1 (List.mem_of_getElem? hz.2.2)]
      exact hn
    · rw [hlist, List.getElem?_set_ne (Ne.symm hc)]
      exact hz.2.2
  · rintro hsafe ⟨x, c, hsleep, hpar, hex, hl⟩
    have hxt : x ≠ t := by
      rintro rfl
      simp [hpt] at hsleep
    have hct : c ≠ t := by
      rintro rfl
      simp [hpt] at hex
    rw [hphase x hxt] at hsleep
    rw [hphase c hct] at hex
    have hcp : (s.k.memory child).pid ≠ c := by
      rintro hcp
      rw [hlist, hcp] at hl
      have hlt := (List.getElem?_eq_some_iff.mp hl).1
      rw [List.length_set] at hlt
      simp [hlt] at hl
    rw [hlist, List.getElem?_set_ne hcp] at hl
    rw [hmem] at hpar
    rcases taskOrphanAll_fields s.k child (some c) with hf | ⟨hp, hf⟩
    · rw [hf] at hpar
      exact h ⟨x, c, hsleep, hpar, hex, hl⟩
    · rw [hf] at hpar
      exact hcp (hsafe x hpar hsleep c ⟨hp, hex, hl⟩).symm

theorem not_lost_step {s s' : State} {a : Action} (hinv : Inv s) (h : ¬ LostWakeup s)
    (hs : step s a = some s') : ¬ LostWakeup s' ↔ Safe s a := by
  obtain ⟨⟨u, out⟩, ha, rfl⟩ := Option.map_eq_some_iff.mp hs
  cases a with
  | fork t =>
    simp only [act, Option.ite_none_right_eq_some, Option.some.injEq, Prod.mk.injEq] at ha
    obtain ⟨_, rfl, _⟩ := ha
    exact iff_of_true (not_lost_fork h t) trivial
  | exit t st =>
    simp only [act, Option.ite_none_right_eq_some, Option.some.injEq, Prod.mk.injEq] at ha
    obtain ⟨ht, rfl, _⟩ := ha
    exact iff_of_true (not_lost_exit hinv h ht.2 st) trivial
  | wait t =>
    simp only [act, Option.ite_none_right_eq_some, Option.some.injEq, syscallWait] at ha
    obtain ⟨ht, ha⟩ := ha
    simp only [Safe]
    cases hz : taskFindZombie s.k (some t) with
    | none =>
      rw [hz] at ha
      obtain ⟨rfl, _⟩ := Prod.mk.inj ha
      rw [if_pos rfl]
      exact not_lost_sleep h ht.2 hz
    | some z =>
      rw [hz] at ha
      obtain rfl : (reap s t).1 = u := congrArg Prod.fst ha
      rw [if_neg (by simp)]
      exact not_lost_reap h (by simp [ht.2]) (by simp [ht.2])
  | resume t =>
    simp only [act, Option.ite_none_right_eq_some, Option.some.injEq] at ha
    obtain ⟨ht, ha⟩ := ha
    obtain rfl : (reap s t).1 = u := congrArg Prod.fst ha
    exact not_lost_reap h (by simp [ht]) (by simp [ht])

/-- A run never leaves a task asleep in `wait` with an exited child to reap exactly when no task goes
to sleep over a hidden child and no reaping leaves an exited child to a sleeping init. -/
theorem noneLost_iff (low : TaskT) (as : List Action) (u : State)
    (hu : exec step (init low) as = some u) : Meets step Safe (init low) as ↔
      ∀ bs s, bs <+: as → exec step (init low) bs = some s → ¬ LostWakeup s := by
  have hinit : ¬ LostWakeup (init low) := by
    rintro ⟨t, c, ht, _⟩
    rcases init_phase low t with hp | hp <;> simp [hp] at ht
  exact meets_iff_prefixes (fun s a t h _ hs => inv_step h hs)
    (fun s a t h hl hs => not_lost_step h hl hs) (inv_init low) hinit hu

theorem noneLost_waiting : ∃ u,
    exec step (init zeros) [.fork 1, .wait 1, .exit 2 7, .resume 1] = some u ∧
    ∀ bs s, bs <+: [.fork 1, .wait 1, .exit 2 7, .resume 1] →
      exec step (init zeros) bs = some s → ¬ LostWakeup s := by
  refine ⟨_, rfl, (noneLost_iff zeros _ _ rfl).mp ?_⟩
  refine meets_cons trivial rfl (meets_cons ?_ rfl (meets_cons trivial rfl (meets_cons ?_ rfl trivial)))
  · rw [Safe, if_pos (by rfl)]
    have hno : ∀ c, Function.update (init zeros).phase 2 .ready c ≠ .exited := by
      intro c
      by_cases hc : c = 2
      · simp [hc]
      · rcases init_phase zeros c with hp | hp <;> simp [hc, hp]
    exact ⟨fun c hz => absurd hz.2.1 (hno c), fun _ c hz => hno c hz.2.1⟩
  · intro i hi hsleep
    obtain rfl : 1 = i := Option.some.inj hi
    exact absurd hsleep (by decide)

/-- The status -1 hides task 2: task 1 goes to sleep although its child has exited. -/
theorem hidden_status : ¬ ∀ (low : TaskT) (as : List Action) (s : State),
    exec step (init low) as = some s → ¬ LostWakeup s := by
  intro h
  refine h zeros [.fork 1, .exit 2 (-1), .wait 1] _ rfl ⟨1, 2, by decide, ?_, by decide, by decide⟩
  rfl

/-- Task 1 sleeps in `wait` when task 2 reaps task 3, whose child 4 has exited. -/
example : ∃ s, exec step (init zeros) [.fork 1, .fork 2, .fork 3, .wait 1, .wait 2, .exit 4 5,
    .exit 3 0, .resume 2] = some s ∧ LostWakeup s :=
  ⟨_, rfl, 1, 4, by decide, by rfl, by decide, by decide⟩

end Eedox.WaitWakeup
