import Eedox.TaskWait

namespace Eedox.WaitPid

open Library.Runs TaskTable

/-- `beyond` is what lies behind the elements of the vector `tasklist`; `held` are the `child` and the
`child_pid` that a task asleep in `waitpid` goes on with. -/
structure State where
  tasks : TaskWait.State
  beyond : ℕ → Ptr
  held : ℕ → Option (Ptr × ℕ)

inductive Action
  | call (a : TaskWait.Action)
  | waitpid (t childPid : ℕ)

/-- A failure is `SYSCALL_ERR_INVAL_CHILDPID`. -/
inductive Outcome
  | sleeps
  | fails
  | reaps (childPid : ℕ) (status : Int16)

def init (low : TaskT) (beyond : ℕ → Ptr) : State := ⟨TaskWait.init low, beyond, fun _ => none⟩

def taskGettask (s : State) (pid : ℕ) : Ptr := s.tasks.k.tasklist[pid]?.getD (s.beyond pid)

/-- The end of `waitpid`. -/
def reapPid (s : State) (t : ℕ) (child : Ptr) (childPid : ℕ) : State × Outcome :=
  ({ s with
      tasks := { s.tasks with
        k := taskKilltask s.tasks.k child
        phase := Function.update s.tasks.phase t .ready }
      held := Function.update s.held t none },
    .reaps childPid (s.tasks.k.memory child).exitStatus)

def syscallWaitpid (s : State) (t childPid : ℕ) : State × Outcome :=
  let child := taskGettask s childPid
  if child = none ∨ (s.tasks.k.memory (some t)).parent ≠ some t then (s, .fails)
  else if (s.tasks.k.memory child).exitStatus = -1 then
    ({ s with
        tasks := { s.tasks with
          k := setTask s.tasks.k (some t) fun task => { task with wait := .pid, chwait := child }
          phase := Function.update s.tasks.phase t .asleep }
        held := Function.update s.held t (some (child, childPid)) },
      .sleeps)
  else reapPid s t child childPid

/-- One action, with what a call of `waitpid` comes to. -/
def act (s : State) : Action → Option (State × Option Outcome)
  | .waitpid t childPid =>
    if t ≠ 0 ∧ s.tasks.phase t = .ready then
      let (s, outcome) := syscallWaitpid s t childPid
      some (s, some outcome)
    else none
  | .call (.resume t) =>
    match s.held t with
    | some (child, childPid) =>
      if s.tasks.phase t = .woken then
        let (s, outcome) := reapPid s t child childPid
        some (s, some outcome)
      else none
    | none => (TaskWait.step s.tasks (.resume t)).map fun tasks => ({ s with tasks := tasks }, none)
  | .call a => (TaskWait.step s.tasks a).map fun tasks => ({ s with tasks := tasks }, none)

def step (s : State) (a : Action) : Option State := (act s a).map Prod.fst

/-- A child of the task that is still in the table. -/
def Child (s : State) (t pid : ℕ) : Prop :=
  s.tasks.k.tasklist[pid]? = some (some pid) ∧ (s.tasks.k.memory (some pid)).parent = some t

/-- What `waitpid` is for: it reaps the child, now or when the child exits, and refuses any other pid. -/
def Right (s : State) (t pid : ℕ) (s' : State) (outcome : Outcome) : Prop :=
  (Child s t pid →
    (∃ status, s.tasks.passed pid = some status ∧ outcome = .reaps pid status ∧
      s'.tasks.k.tasklist = s.tasks.k.tasklist.set pid none) ∨
    s.tasks.passed pid = none ∧ outcome = .sleeps) ∧
  (¬ Child s t pid → outcome = .fails ∧ s' = s)

/-- No task is its own parent. -/
structure Inv (s : State) : Prop where
  held : ∀ t, s.held t = none
  length : s.tasks.k.tasklist.length = s.tasks.k.taskCount
  entry : ∀ i p : ℕ, s.tasks.k.tasklist[i]? = some (some p) → p = i
  two : 1 < s.tasks.k.taskCount
  bound : ∀ n, s.tasks.phase n ≠ .absent → n < s.tasks.k.taskCount
  parents : ∀ n p, (s.tasks.k.memory (some n)).parent = some p → p < s.tasks.k.taskCount ∧ p ≠ n
  first : (s.tasks.k.memory (some 1)).parent = some 0
  chwait : ∀ n, (s.tasks.k.memory (some n)).chwait ≠ some 0

theorem inv_init (low : TaskT) (beyond : ℕ → Ptr) : Inv (init low beyond) := by
  refine ⟨fun _ => rfl, rfl, fun i p h => ?_, Nat.lt_add_one 1, fun n h => ?_, fun n p h => ?_, ?_, fun n => ?_⟩
  · rcases i with _ | _ | i <;> simp_all [init, TaskWait.init, taskFork, multitaskingInit]
  · by_contra hn
    exact h (TaskWait.init_absent low hn)
  · by_cases hn : n = 1
    · subst hn
      simp only [init, TaskWait.init, taskFork, multitaskingInit, Function.update_self, Option.some.injEq] at h
      subst h
      exact ⟨Nat.zero_lt_two, Nat.zero_ne_one⟩
    · simp [init, TaskWait.init, taskFork, multitaskingInit, hn] at h
  · simp [init, TaskWait.init, taskFork, multitaskingInit]
  · by_cases hn : n = 1 <;> simp [init, TaskWait.init, taskFork, multitaskingInit, hn]

section Step

variable {s s' : State} {t : ℕ}

/-- Changes that leave the table and the parents alone. -/
theorem Inv.congr (h : Inv s) {tasks : TaskWait.State} (hlist : tasks.k.tasklist = s.tasks.k.tasklist)
    (hcount : tasks.k.taskCount = s.tasks.k.taskCount)
    (hbound : ∀ n, tasks.phase n ≠ .absent → n < s.tasks.k.taskCount)
    (hparent : ∀ n, (tasks.k.memory (some n)).parent = (s.tasks.k.memory (some n)).parent)
    (hchwait : ∀ n, (tasks.k.memory (some n)).chwait ≠ some 0) : Inv { s with tasks := tasks } := by
  refine ⟨h.held, ?_, ?_, ?_, ?_, ?_, ?_, hchwait⟩
  · rw [hlist, hcount]
    exact h.length
  · rw [hlist]
    exact h.entry
  · rw [hcount]
    exact h.two
  · rw [hcount]
    exact hbound
  · intro n p hp
    rw [hparent] at hp
    rw [hcount]
    exact h.parents n p hp
  · rw [hparent]
    exact h.first

theorem inv_fork (h : Inv s) (ht : s.tasks.phase t = .ready) :
    Inv { s with tasks := { s.tasks with
      k := (taskFork s.tasks.k t).1
      phase := Function.update s.tasks.phase s.tasks.k.taskCount .ready } } := by
  have hlt : t < s.tasks.k.taskCount := h.bound t (by rw [ht]; exact TaskWait.Phase.noConfusion)
  have htwo := h.two
  refine ⟨h.held, ?_, fun i p hi => ?_, ?_, fun n hn => ?_, fun n p hp => ?_, ?_, fun n => ?_⟩
  · simp only [taskFork, List.length_append, List.length_singleton, h.length]
  · simp only [taskFork] at hi
    by_cases hi' : i < s.tasks.k.tasklist.length
    · rw [List.getElem?_append_left hi'] at hi
      exact h.entry i p hi
    · rw [List.getElem?_append_right (not_lt.mp hi')] at hi
      obtain ⟨hi0, hp⟩ := List.getElem?_eq_some_iff.mp hi
      simp only [List.length_singleton] at hi0
      simp only [List.getElem_singleton, Option.some.injEq] at hp
      have := h.length
      omega
  · simp only [taskFork]
    omega
  · simp only [taskFork]
    by_cases hne : n = s.tasks.k.taskCount
    · omega
    · have := h.bound n (by simpa [hne] using hn)
      omega
  · simp only [taskFork] at hp ⊢
    by_cases hne : n = s.tasks.k.taskCount
    · subst hne
      simp only [Function.update_self, Option.some.injEq] at hp
      omega
    · simp only [ne_eq, Option.some.injEq, hne, not_false_eq_true, Function.update_of_ne] at hp
      have := h.parents n p hp
      omega
  · have hne : 1 ≠ s.tasks.k.taskCount := by omega
    simp only [taskFork, ne_eq, Option.some.injEq, hne, not_false_eq_true, Function.update_of_ne, h.first]
  · by_cases hne : n = s.tasks.k.taskCount
    · subst hne
      simp [taskFork]
    · simp only [taskFork, ne_eq, Option.some.injEq, hne, not_false_eq_true, Function.update_of_ne]
      exact h.chwait n

/-- Reaping gives the children of the child to task 1, or to none. -/
theorem inv_kill (h : Inv s) {child : Ptr} (hchild : child ≠ some 0) (ht : s.tasks.phase t ≠ .absent) :
    Inv { s with tasks := { s.tasks with
      k := taskKilltask s.tasks.k child
      phase := Function.update s.tasks.phase t .ready } } := by
  have htwo := h.two
  have hfirst (p : ℕ) (hp : s.tasks.k.tasklist[initPid]?.join = some p) : p = 1 :=
    h.entry initPid p (Option.join_eq_some_iff.mp hp)
  have hkeep (p : Ptr) := taskOrphanAll_fields s.tasks.k child p
  refine ⟨h.held, ?_, fun i p hi => ?_, htwo, fun n hn => ?_, fun n p hp => ?_, ?_, fun n => ?_⟩
  · simp only [taskKilltask, List.length_set, taskOrphanAll_tasklist, taskOrphanAll_taskCount, h.length]
  · simp only [taskKilltask, taskOrphanAll_tasklist, List.getElem?_set] at hi
    split_ifs at hi with hpid hlt
    · cases hi
    · exact h.entry i p hi
  · by_cases hne : n = t
    · subst hne
      exact h.bound n ht
    · exact h.bound n (by simpa [hne] using hn)
  · rcases hkeep (some n) with hsame | ⟨hparent, hnew⟩
    · exact h.parents n p (by simpa only [taskKilltask, hsame] using hp)
    · have hp' : s.tasks.k.tasklist[initPid]?.join = some p := by simpa only [taskKilltask, hnew] using hp
      obtain rfl := hfirst p hp'
      refine ⟨htwo, fun heq => hchild ?_⟩
      rw [← hparent, ← heq, h.first]
  · rcases hkeep (some 1) with hsame | ⟨hparent, -⟩
    · simpa only [taskKilltask, hsame] using h.first
    · rw [h.first] at hparent
      exact absurd hparent.symm hchild
  · rw [(taskKilltask_fields s.tasks.k child (some n)).2.2.1]
    exact h.chwait n

theorem inv_exit (h : Inv s) (ht0 : t ≠ 0) (ht : s.tasks.phase t = .ready) (status : Int16) :
    Inv { s with tasks := TaskWait.syscallExit s.tasks t status } := by
  have hlt : t < s.tasks.k.taskCount := h.bound t (by rw [ht]; exact TaskWait.Phase.noConfusion)
  have hfields := TaskWait.leave_fields s.tasks t status
  have hleft : Inv { s with tasks := TaskWait.leave s.tasks t status } := by
    refine h.congr rfl rfl (fun n hn => ?_) (fun n => (hfields _).2.1) fun n => ?_
    · by_cases hne : n = t
      · rwa [hne]
      · exact h.bound n (by simpa [TaskWait.leave, hne] using hn)
    · rw [(hfields _).2.2.2]
      exact h.chwait n
  rw [TaskWait.syscallExit]
  split_ifs
  · refine hleft.congr rfl rfl (fun n hn => ?_) (fun n => ?_) fun n => ?_
    · cases hparent : (s.tasks.k.memory (some t)).parent with
      | none =>
        rw [hparent] at hn
        exact hleft.bound n hn
      | some p =>
        rw [hparent] at hn
        by_cases hne : n = p
        · subst hne
          exact (h.parents t n hparent).1
        · exact hleft.bound n (by simpa [TaskWait.handOver, hne] using hn)
    · by_cases hne : some n = (s.tasks.k.memory (some t)).parent
      · simp [TaskWait.handOver, setTask, ← hne]
      · simp [TaskWait.handOver, setTask, hne]
    · by_cases hne : some n = (s.tasks.k.memory (some t)).parent
      · simp [TaskWait.handOver, setTask, ← hne, ht0]
      · simpa [TaskWait.handOver, setTask, hne] using hleft.chwait n
  · exact hleft

theorem inv_wait (h : Inv s) (ht : s.tasks.phase t = .ready) :
    Inv { s with tasks := (TaskWait.syscallWait s.tasks t).1 } := by
  have hpresent : s.tasks.phase t ≠ .absent := by
    rw [ht]
    exact TaskWait.Phase.noConfusion
  unfold TaskWait.syscallWait
  cases taskFindZombie s.tasks.k (some t) with
  | some child => exact inv_kill h (h.chwait t) hpresent
  | none =>
    refine h.congr rfl rfl (fun n hn => ?_) (fun n => ?_) fun n => ?_
    · by_cases hne : n = t
      · subst hne
        exact h.bound n hpresent
      · exact h.bound n (by simpa [hne] using hn)
    · by_cases hne : n = t <;> simp [setTask, hne]
    · have := h.chwait n
      by_cases hne : n = t
      · subst hne
        simpa [setTask] using this
      · simpa [setTask, hne] using this

/-- The test `task->parent != task` is never false. -/
theorem waitpid_fails (h : Inv s) (t pid : ℕ) : syscallWaitpid s t pid = (s, .fails) := by
  have hparent : (s.tasks.k.memory (some t)).parent ≠ some t := fun heq => (h.parents t t heq).2 rfl
  rw [syscallWaitpid, if_pos (Or.inr hparent)]

/-- What an action does: a call of `waitpid` changes nothing. -/
theorem act_cases {a : Action} {out : Option Outcome} (h : Inv s) (ha : act s a = some (s', out)) :
    (∃ t pid, a = .waitpid t pid ∧ s' = s) ∨
    (∃ t, a = .call (.fork t) ∧ s.tasks.phase t = .ready ∧ s' = { s with tasks := { s.tasks with
      k := (taskFork s.tasks.k t).1
      phase := Function.update s.tasks.phase s.tasks.k.taskCount .ready } }) ∨
    (∃ t status, a = .call (.exit t status) ∧ t ≠ 0 ∧ s.tasks.phase t = .ready ∧
      s' = { s with tasks := TaskWait.syscallExit s.tasks t status }) ∨
    (∃ t, a = .call (.wait t) ∧ t ≠ 0 ∧ s.tasks.phase t = .ready ∧
      s' = { s with tasks := (TaskWait.syscallWait s.tasks t).1 }) ∨
    ∃ t, a = .call (.resume t) ∧ s.tasks.phase t = .woken ∧
      s' = { s with tasks := (TaskWait.reap s.tasks t).1 } := by
  cases a with
  | waitpid t pid =>
    simp only [act, waitpid_fails h, Option.ite_none_right_eq_some, Option.some.injEq, Prod.mk.injEq] at ha
    obtain ⟨-, rfl, -⟩ := ha
    exact Or.inl ⟨t, pid, rfl, rfl⟩
  | call a =>
    cases a with
    | fork t =>
      simp only [act, TaskWait.step, TaskWait.act, Option.map_eq_some_iff, Option.ite_none_right_eq_some] at ha
      obtain ⟨tasks, ⟨⟨u, o⟩, ⟨ht, hu⟩, rfl⟩, hs⟩ := ha
      obtain ⟨rfl, -⟩ := Prod.mk.inj (Option.some.inj hu)
      obtain ⟨rfl, -⟩ := Prod.mk.inj hs
      exact Or.inr (Or.inl ⟨t, rfl, ht.2, rfl⟩)
    | exit t status =>
      simp only [act, TaskWait.step, TaskWait.act, Option.map_eq_some_iff, Option.ite_none_right_eq_some] at ha
      obtain ⟨tasks, ⟨⟨u, o⟩, ⟨ht, hu⟩, rfl⟩, hs⟩ := ha
      obtain ⟨rfl, -⟩ := Prod.mk.inj (Option.some.inj hu)
      obtain ⟨rfl, -⟩ := Prod.mk.inj hs
      exact Or.inr (Or.inr (Or.inl ⟨t, status, rfl, ht.1, ht.2, rfl⟩))
    | wait t =>
      simp only [act, TaskWait.step, TaskWait.act, Option.map_eq_some_iff, Option.ite_none_right_eq_some] at ha
      obtain ⟨tasks, ⟨u, ⟨ht, hu⟩, rfl⟩, hs⟩ := ha
      obtain rfl := Option.some.inj hu
      obtain ⟨rfl, -⟩ := Prod.mk.inj hs
      exact Or.inr (Or.inr (Or.inr (Or.inl ⟨t, rfl, ht.1, ht.2, rfl⟩)))
    | resume t =>
      simp only [act, h.held, TaskWait.step, TaskWait.act, Option.map_eq_some_iff,
        Option.ite_none_right_eq_some] at ha
      obtain ⟨tasks, ⟨u, ⟨ht, hu⟩, rfl⟩, hs⟩ := ha
      obtain rfl := Option.some.inj hu
      obtain ⟨rfl, -⟩ := Prod.mk.inj hs
      exact Or.inr (Or.inr (Or.inr (Or.inr ⟨t, rfl, ht, rfl⟩)))

theorem inv_act {a : Action} {out : Option Outcome} (h : Inv s) (ha : act s a = some (s', out)) : Inv s' := by
  obtain ⟨t, pid, -, rfl⟩ | ⟨t, -, ht, rfl⟩ | ⟨t, status, -, ht0, ht, rfl⟩ | ⟨t, -, -, ht, rfl⟩ | ⟨t, -, ht, rfl⟩ :=
    act_cases h ha
  · exact h
  · exact inv_fork h ht
  · exact inv_exit h ht0 ht status
  · exact inv_wait h ht
  · refine inv_kill h (h.chwait t) ?_
    rw [ht]
    exact TaskWait.Phase.noConfusion

end Step

/-- In every run, `waitpid` does what it is for exactly when the pid is not that of a child. -/
theorem waitpid_right_iff (low : TaskT) (beyond : ℕ → Ptr) (as : List Action) (s s' : State) (t pid : ℕ)
    (outcome : Outcome) (hs : exec step (init low beyond) as = some s)
    (ha : act s (.waitpid t pid) = some (s', some outcome)) :
    Right s t pid s' outcome ↔ ¬ Child s t pid := by
  have hinv : Inv s := by
    refine exec_invariant (fun s a s' h _ hstep => ?_) (inv_init low beyond) (meets_true _ _) hs
    obtain ⟨⟨u, out⟩, hact, rfl⟩ := Option.map_eq_some_iff.mp hstep
    exact inv_act h hact
  simp only [act, waitpid_fails hinv, Option.ite_none_right_eq_some, Option.some.injEq, Prod.mk.injEq] at ha
  obtain ⟨-, rfl, rfl⟩ := ha
  constructor
  · intro h hchild
    rcases h.1 hchild with ⟨status, -, hout, -⟩ | ⟨-, hout⟩
    · cases hout
    · cases hout
  · intro hchild
    exact ⟨fun h => absurd h hchild, fun _ => ⟨rfl, rfl⟩⟩

def zeros : TaskT := ⟨0, none, 0, none, .none⟩

/-- Task 1 asks for task 7, which does not exist. -/
theorem waitpid_right_absent : ∃ s, exec step (init zeros fun _ => none) [.call (.fork 1)] = some s ∧
    act s (.waitpid 1 7) = some (s, some .fails) ∧ Right s 1 7 s .fails :=
  ⟨_, rfl, rfl, (waitpid_right_iff zeros (fun _ => none) [.call (.fork 1)] _ _ 1 7 .fails rfl rfl).mpr
    fun h => absurd h.1 (by decide)⟩

/-- Task 1 asks for its child, task 2, which has exited. -/
theorem waitpid_refuses_child : ∃ s,
    exec step (init zeros fun _ => none) [.call (.fork 1), .call (.exit 2 7)] = some s ∧ Child s 1 2 ∧
      act s (.waitpid 1 2) = some (s, some .fails) ∧ ¬ Right s 1 2 s .fails := by
  refine ⟨_, rfl, ⟨rfl, rfl⟩, rfl, fun h => ?_⟩
  rcases h.1 ⟨rfl, rfl⟩ with ⟨status, -, hout, -⟩ | ⟨-, hout⟩
  · cases hout
  · cases hout

end Eedox.WaitPid
