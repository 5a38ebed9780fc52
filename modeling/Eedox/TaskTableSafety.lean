import Eedox.WaitPid

namespace Eedox.TaskTableSafety

open Library.Runs TaskTable
open TaskWait (BeforeExit reap leave handOver syscallExit)
open WaitPid (State Action init act step)

/-- The entries that `task_find_zombie` looks through, up to the one it returns. -/
def lookedThrough (k : Tasks) (task : Ptr) : List Ptr → List Ptr
  | [] => []
  | child :: rest =>
    if (k.memory child).parent = task ∧ (k.memory child).exitStatus ≠ -1 then [child]
    else child :: lookedThrough k task rest

/-- No null pointer in the table is followed, and no entry is read that is not in the table. -/
def Follows (s : State) : Action → Prop
  | .call (.wait t) => none ∉ lookedThrough s.tasks.k (some t) s.tasks.k.tasklist ∧
    (taskFindZombie s.tasks.k (some t) ≠ none → none ∉ s.tasks.k.tasklist ∧ initPid < s.tasks.k.tasklist.length)
  | .call (.resume _) => none ∉ s.tasks.k.tasklist ∧ initPid < s.tasks.k.tasklist.length
  | .waitpid _ pid => pid < s.tasks.k.tasklist.length
  | _ => True

/-- A live task, or one that has exited and has not been reaped, at each entry that is not 0, and the
parents of these tasks in the table, too. -/
structure TableSafe (s : State) : Prop where
  entries : ∀ i p, s.tasks.k.tasklist[i]? = some (some p) → p = i ∧ s.tasks.phase p ≠ .absent
  parents : ∀ n, s.tasks.k.tasklist[n]? = some (some n) →
    n = 0 ∧ (s.tasks.k.memory (some n)).parent = none ∨
      ∃ p, (s.tasks.k.memory (some n)).parent = some p ∧ s.tasks.k.tasklist[p]? = some (some p)

/-- `wait` is called, and reaps, while nothing has been reaped yet and no exited child is seen;
`waitpid` is given the pid of some task. -/
def Careful (s : State) : Action → Prop
  | .call (.wait t) => none ∉ s.tasks.k.tasklist ∧ BeforeExit s.tasks (.wait t)
  | .call (.resume _) => none ∉ s.tasks.k.tasklist
  | .waitpid _ pid => pid < s.tasks.k.tasklist.length
  | _ => True

structure Inv (s : State) : Prop where
  pids : WaitPid.Inv s
  waits : TaskWait.Inv s.tasks
  present : ∀ n < s.tasks.k.taskCount, s.tasks.phase n ≠ .absent
  idle : s.tasks.phase 0 = .ready
  zero : (s.tasks.k.memory (some 0)).parent = none
  one : s.tasks.k.tasklist[1]? = some (some 1)
  parents : ∀ n, n ≠ 0 → s.tasks.k.tasklist[n]? = some (some n) →
    ∃ p, (s.tasks.k.memory (some n)).parent = some p ∧ s.tasks.k.tasklist[p]? = some (some p)

variable {s s' : State} {t : ℕ}

theorem Inv.tableSafe (h : Inv s) : TableSafe s := by
  refine ⟨fun i p hi => ?_, fun n hn => ?_⟩
  · obtain rfl := h.waits.entry i p hi
    refine ⟨rfl, h.present p ?_⟩
    rw [← h.waits.length]
    exact (List.getElem?_eq_some_iff.mp hi).1
  · by_cases hzero : n = 0
    · subst hzero
      exact Or.inl ⟨rfl, h.zero⟩
    · exact Or.inr (h.parents n hzero hn)

theorem lookedThrough_sub (k : Tasks) (task : Ptr) (l : List Ptr) : lookedThrough k task l ⊆ l := by
  induction l with
  | nil => exact List.Subset.refl _
  | cons child rest ih =>
    rw [lookedThrough]
    split_ifs
    · exact List.cons_subset_cons child (List.nil_subset rest)
    · exact List.cons_subset_cons child ih

theorem Inv.follows (h : Inv s) {a : Action} (hcareful : Careful s a) : Follows s a := by
  have hinit : initPid < s.tasks.k.tasklist.length := (List.getElem?_eq_some_iff.mp h.one).1
  cases a with
  | waitpid t pid => exact hcareful
  | call a =>
    cases a with
    | fork t => trivial
    | exit t status => trivial
    | wait t =>
      exact ⟨fun hnull => hcareful.1 (lookedThrough_sub _ _ _ hnull), fun hfound => absurd hcareful.2 hfound⟩
    | resume t => exact ⟨hcareful, hinit⟩

theorem inv_init (low : TaskT) (beyond : ℕ → Ptr) : Inv (init low beyond) := by
  refine ⟨WaitPid.inv_init low beyond, TaskWait.inv_init low, fun n hn => ?_, rfl, rfl, rfl, fun n hzero hn => ?_⟩
  · have hready : (init low beyond).tasks.phase n = .ready := if_pos hn
    rw [hready]
    exact TaskWait.Phase.noConfusion
  · have hlt : n < 2 := (List.getElem?_eq_some_iff.mp hn).1
    obtain rfl : n = 1 := by omega
    exact ⟨0, rfl, rfl⟩

theorem inv_fork (h : Inv s) (ht : s.tasks.phase t = .ready) :
    Inv { s with tasks := { s.tasks with
      k := (taskFork s.tasks.k t).1
      phase := Function.update s.tasks.phase s.tasks.k.taskCount .ready } } := by
  have htwo := h.pids.two
  have hlength := h.waits.length
  have hlist (i : ℕ) (p : Ptr) (hi : s.tasks.k.tasklist[i]? = some p) :
      (taskFork s.tasks.k t).1.tasklist[i]? = some p := by
    simp only [taskFork]
    rw [List.getElem?_append_left (List.getElem?_eq_some_iff.mp hi).1, hi]
  refine ⟨WaitPid.inv_fork h.pids ht, TaskWait.inv_fork h.waits t, fun n hn => ?_, ?_, ?_, hlist 1 _ h.one,
    fun n hzero hn => ?_⟩
  · simp only [taskFork] at hn
    by_cases hne : n = s.tasks.k.taskCount
    · simp [hne]
    · simpa [hne] using h.present n (by omega)
  · have hne : 0 ≠ s.tasks.k.taskCount := by omega
    simpa [hne] using h.idle
  · have hne : 0 ≠ s.tasks.k.taskCount := by omega
    simpa [taskFork, hne] using h.zero
  · by_cases hne : n = s.tasks.k.taskCount
    · subst hne
      refine ⟨t, by simp [taskFork], hlist t _ (h.waits.live t (Or.inl ht))⟩
    · have hlt : n < s.tasks.k.tasklist.length := by
        have := (List.getElem?_eq_some_iff.mp hn).1
        simp only [taskFork, List.length_append, List.length_singleton] at this
        omega
      have hold : s.tasks.k.tasklist[n]? = some (some n) := by
        simp only [taskFork] at hn
        rwa [List.getElem?_append_left hlt] at hn
      obtain ⟨p, hp, hpl⟩ := h.parents n hzero hold
      exact ⟨p, by simpa [taskFork, hne] using hp, hlist p _ hpl⟩

/-- What leaves the table, the parents and task 0 alone. -/
theorem Inv.congr (h : Inv s) {tasks : TaskWait.State} (hpids : WaitPid.Inv { s with tasks := tasks })
    (hwaits : TaskWait.Inv tasks) (hlist : tasks.k.tasklist = s.tasks.k.tasklist)
    (hcount : tasks.k.taskCount = s.tasks.k.taskCount)
    (hpresent : ∀ n, s.tasks.phase n ≠ .absent → tasks.phase n ≠ .absent) (hidle : tasks.phase 0 = .ready)
    (hparent : ∀ n, (tasks.k.memory (some n)).parent = (s.tasks.k.memory (some n)).parent) :
    Inv { s with tasks := tasks } := by
  refine ⟨hpids, hwaits, fun n hn => ?_, hidle, ?_, ?_, fun n hzero hn => ?_⟩
  · rw [hcount] at hn
    exact hpresent n (h.present n hn)
  · rw [hparent]
    exact h.zero
  · rw [hlist]
    exact h.one
  · rw [hlist] at hn ⊢
    rw [hparent]
    exact h.parents n hzero hn

theorem inv_exit (h : Inv s) (ht0 : t ≠ 0) (ht : s.tasks.phase t = .ready) (status : Int16) :
    Inv { s with tasks := syscallExit s.tasks t status } := by
  have hfields := TaskWait.leave_fields s.tasks t status
  have hleft := TaskWait.inv_leave h.waits ht status
  have hphase (n : ℕ) (hn : s.tasks.phase n ≠ .absent) : (leave s.tasks t status).phase n ≠ .absent := by
    by_cases hne : n = t
    · simp [leave, hne]
    · simpa [leave, hne] using hn
  have hidle : (leave s.tasks t status).phase 0 = .ready := by
    simpa [leave, Ne.symm ht0] using h.idle
  have hpids := WaitPid.inv_exit h.pids ht0 ht status
  have hwaits := TaskWait.inv_exit h.waits ht status
  rw [syscallExit] at hpids hwaits ⊢
  split_ifs at hpids hwaits ⊢ with hwaiting
  · refine h.congr hpids hwaits rfl rfl (fun n hn => ?_) ?_ fun n => ?_
    · cases hparent : (s.tasks.k.memory (some t)).parent with
      | none => exact hphase n hn
      | some p =>
        by_cases hne : n = p
        · simp [handOver, hne]
        · simpa [handOver, hne] using hphase n hn
    · cases hparent : (s.tasks.k.memory (some t)).parent with
      | none => exact hidle
      | some p =>
        -- Task 0 never waits, so it is not handed a child.
        have hp : 0 ≠ p := by
          rintro rfl
          rw [hparent] at hwaiting
          have hall := hwaiting.resolve_left fun hpid => hleft.noPid 0 hpid.1
          rw [hleft.waiting, hidle] at hall
          cases hall
        simpa [handOver, hp] using hidle
    · rw [← (hfields (some n)).2.1]
      by_cases hne : some n = (s.tasks.k.memory (some t)).parent
      · simp [handOver, setTask, ← hne]
      · simp [handOver, setTask, hne]
  · exact h.congr hpids hwaits rfl rfl hphase hidle fun n => (hfields (some n)).2.1

theorem inv_sleep (h : Inv s) (ht0 : t ≠ 0) (ht : s.tasks.phase t = .ready)
    (hnone : taskFindZombie s.tasks.k (some t) = none) :
    Inv { s with tasks := (TaskWait.syscallWait s.tasks t).1 } := by
  have hpids := WaitPid.inv_wait h.pids ht
  have hwaits := TaskWait.inv_sleep h.waits ht
  simp only [TaskWait.syscallWait, hnone] at hpids ⊢
  refine h.congr hpids hwaits rfl rfl (fun n hn => ?_) ?_ fun n => ?_
  · by_cases hne : n = t
    · simp [hne]
    · simpa [hne] using hn
  · simpa [Ne.symm ht0] using h.idle
  · by_cases hne : n = t <;> simp [setTask, hne]

/-- Reaping leaves the parents of all other tasks in the table. -/
theorem inv_reap (h : Inv s) (ht : s.tasks.phase t = .woken) : Inv { s with tasks := (reap s.tasks t).1 } := by
  obtain ⟨c, status, hchild, hparent, -, hcl⟩ := h.waits.handed t ht
  obtain ⟨-, -, -, -, -, -, -, hwaits⟩ := TaskWait.inv_reap h.waits ht
  have hpid : (s.tasks.k.memory (some c)).pid = c := by
    refine h.waits.pid c ?_
    rw [← h.waits.length]
    exact (List.getElem?_eq_some_iff.mp hcl).1
  have hlist : (reap s.tasks t).1.k.tasklist = s.tasks.k.tasklist.set c none := by
    simp [reap, taskKilltask, hchild, hpid]
  have htne : t ≠ 0 := by
    rintro rfl
    rw [h.idle] at ht
    cases ht
  have hpids := WaitPid.inv_kill h.pids (h.pids.chwait t) (show s.tasks.phase t ≠ .absent by
    rw [ht]
    exact TaskWait.Phase.noConfusion)
  have hcone : c ≠ 1 := by
    rintro rfl
    rw [h.pids.first] at hparent
    exact htne (Option.some.inj hparent).symm
  have hkeep (p : Ptr) := taskOrphanAll_fields s.tasks.k (some c) p
  have hone : (s.tasks.k.tasklist.set c none)[1]? = some (some 1) := by
    rw [List.getElem?_set_ne hcone, h.one]
  refine ⟨hpids, hwaits, fun n hn => ?_, ?_, ?_, ?_, fun n hzero hn => ?_⟩
  · by_cases hne : n = t
    · simp [reap, hne]
    · simpa [reap, hne] using h.present n hn
  · simpa [reap, Ne.symm htne] using h.idle
  · simp only [reap, hchild]
    rcases hkeep (some 0) with hsame | ⟨hzero, -⟩
    · simpa only [taskKilltask, hsame] using h.zero
    · rw [h.zero] at hzero
      cases hzero
  · rw [hlist]
    exact hone
  · rw [hlist] at hn ⊢
    simp only [reap, hchild]
    have hcn : c ≠ n := by
      rintro rfl
      rw [List.getElem?_set_self (List.getElem?_eq_some_iff.mp hcl).1] at hn
      cases hn
    rw [List.getElem?_set_ne hcn] at hn
    rcases hkeep (some n) with hsame | ⟨-, hnew⟩
    · obtain ⟨p, hp, hpl⟩ := h.parents n hzero hn
      have hcp : c ≠ p := by
        rintro rfl
        have hnew := taskOrphanAll_child hp (List.mem_of_getElem? hn)
        rw [hsame] at hnew
        have hinit : (s.tasks.k.memory (some n)).parent = s.tasks.k.tasklist[initPid]?.join :=
          congrArg TaskT.parent hnew
        rw [hp, initPid, h.one, Option.join_some] at hinit
        exact hcone (Option.some.inj hinit)
      refine ⟨p, ?_, by rw [List.getElem?_set_ne hcp, hpl]⟩
      simpa only [taskKilltask, hsame] using hp
    · refine ⟨1, ?_, hone⟩
      have : s.tasks.k.tasklist[initPid]?.join = some 1 := by rw [initPid, h.one, Option.join_some]
      simpa only [taskKilltask, hnew] using this

theorem inv_step {a : Action} (h : Inv s) (hcareful : Careful s a) (hstep : step s a = some s') : Inv s' := by
  obtain ⟨⟨u, out⟩, ha, rfl⟩ := Option.map_eq_some_iff.mp hstep
  obtain ⟨t, pid, -, rfl⟩ | ⟨t, -, ht, rfl⟩ | ⟨t, status, -, ht0, ht, rfl⟩ | ⟨t, rfl, ht0, ht, rfl⟩ |
    ⟨t, -, ht, rfl⟩ := WaitPid.act_cases h.pids ha
  · exact h
  · exact inv_fork h ht
  · exact inv_exit h ht0 ht status
  · exact inv_sleep h ht0 ht hcareful.2
  · exact inv_reap h ht

/-- In every run of careful steps the table is as it should be in the state reached, and no step of the
run follows a null pointer in it. -/
theorem tableSafe_run (low : TaskT) (beyond : ℕ → Ptr) (as : List Action) (s : State)
    (hg : Meets step Careful (init low beyond) as) (hs : exec step (init low beyond) as = some s) :
    TableSafe s ∧ Meets step Follows (init low beyond) as := by
  have hinit := inv_init low beyond
  have hstep (s : State) (a : Action) (t : State) (h : Inv s) (hc : Careful s a) (ht : step s a = some t) : Inv t :=
    inv_step h hc ht
  exact ⟨(exec_invariant hstep hinit hg hs).tableSafe, meets_imp hstep (fun _ _ h hc => h.follows hc) hinit hg⟩

/-- Task 1 waits for its child and reaps it. -/
theorem tableSafe_run_wait : ∃ s, exec step (init WaitPid.zeros fun _ => none)
      [.call (.fork 1), .call (.wait 1), .call (.exit 2 7), .call (.resume 1)] = some s ∧ TableSafe s := by
  refine ⟨_, rfl, (tableSafe_run WaitPid.zeros (fun _ => none)
    [.call (.fork 1), .call (.wait 1), .call (.exit 2 7), .call (.resume 1)] _ ?_ rfl).1⟩
  refine meets_cons trivial rfl (meets_cons ⟨by decide, rfl⟩ rfl (meets_cons trivial rfl
    (meets_cons ?_ rfl trivial)))
  exact (by decide : none ∉ [some 0, some 1, some 2])

/-- The second `wait` looks through the hole that the first one has left. -/
theorem hole_followed : ¬ ∀ (low : TaskT) (beyond : ℕ → Ptr) (as : List Action) (s : State),
    exec step (init low beyond) as = some s → TableSafe s ∧ Meets step Follows (init low beyond) as := by
  intro h
  have hall := (h WaitPid.zeros (fun _ => none) [.call (.fork 1), .call (.wait 1), .call (.exit 2 7),
    .call (.resume 1), .call (.wait 1)] _ rfl).2
  have hlast := (((hall.2 _ rfl).2 _ rfl).2 _ rfl).2 _ rfl
  exact hlast.1.1 (by decide)

end Eedox.TaskTableSafety
