import Eedox.TaskTable
import Eedox.Library.Runs

namespace Eedox.TaskWait

open Library.Runs TaskTable

inductive Phase | absent | ready | asleep | woken | exited
  deriving DecidableEq

/-- The task table, with the status that each exited task passed to `exit`. -/
structure State where
  k : Tasks
  phase : ℕ → Phase
  passed : ℕ → Option Int16

inductive Action
  | fork (t : ℕ)
  | exit (t : ℕ) (status : Int16)
  | wait (t : ℕ)
  | resume (t : ℕ)

def Action.task : Action → ℕ
  | .fork t | .exit t _ | .wait t | .resume t => t

def init (low : TaskT) : State where
  k := (taskFork (multitaskingInit low) 0).1
  phase := fun t => if t < 2 then .ready else .absent
  passed := fun _ => none

def reap (s : State) (t : ℕ) : State × Option (ℕ × Int16) :=
  let child := (s.k.memory (some t)).chwait
  let status := (s.k.memory child).exitStatus
  let childPid := (s.k.memory child).pid
  ({ s with k := taskKilltask s.k child, phase := Function.update s.phase t .ready },
    some (childPid, status))

def syscallWait (s : State) (t : ℕ) : State × Option (ℕ × Int16) :=
  match taskFindZombie s.k (some t) with
  | none =>
    ({ s with k := setTask s.k (some t) fun task => { task with wait := .all },
              phase := Function.update s.phase t .asleep }, none)
  | some _ => reap s t

def leave (s : State) (t : ℕ) (statuscode : Int16) : State where
  k := setTask s.k (some t) fun task => { task with exitStatus := statuscode }
  phase := Function.update s.phase t .exited
  passed := Function.update s.passed t (some statuscode)

def handOver (s : State) (parent : Ptr) (t : ℕ) : State :=
  { s with
    k := setTask s.k parent fun task => { task with chwait := some t, wait := .none }
    phase := match parent with
      | none => s.phase
      | some n => Function.update s.phase n .woken }

def syscallExit (s : State) (t : ℕ) (statuscode : Int16) : State :=
  let parent := (s.k.memory (some t)).parent
  let s := leave s t statuscode
  let p := s.k.memory parent
  if (p.wait = .pid ∧ p.chwait = some t) ∨ p.wait = .all then handOver s parent t else s

/-- One action, with what a completed `wait` returns. -/
def act (s : State) : Action → Option (State × Option (ℕ × Int16))
  | .fork t =>
    if t ≠ 0 ∧ s.phase t = .ready then
      let next := taskFork s.k t
      some ({ s with k := next.1, phase := Function.update s.phase next.2 .ready }, none)
    else none
  | .exit t status =>
    if t ≠ 0 ∧ s.phase t = .ready then some (syscallExit s t status, none) else none
  | .wait t => if t ≠ 0 ∧ s.phase t = .ready then some (syscallWait s t) else none
  | .resume t => if s.phase t = .woken then some (reap s t) else none

def step (s : State) (a : Action) : Option State := (act s a).map Prod.fst

/-- What the step `a` of a `wait` from `s` to `s'` gives back: `pid` is that of a child of the caller
that has exited and is still in the table, `status` is what it passed to `exit`, and exactly that
child is taken out of the table. -/
structure ReapsChild (s : State) (a : Action) (s' : State) (pid : ℕ) (status : Int16) : Prop where
  child : (s.k.memory (some pid)).parent = some a.task
  passed : s.passed pid = some status
  unreaped : s.k.tasklist[pid]? = some (some pid)
  removed : s'.k.tasklist = s.k.tasklist.set pid none

/-- A `wait` is only called while no exited child is found in the table. -/
def BeforeExit (s : State) : Action → Prop
  | .wait t => taskFindZombie s.k (some t) = none
  | _ => True

structure Inv (s : State) : Prop where
  length : s.k.tasklist.length = s.k.taskCount
  entry : ∀ i p : ℕ, s.k.tasklist[i]? = some (some p) → p = i
  pid : ∀ n < s.k.taskCount, (s.k.memory (some n)).pid = n
  live : ∀ n, s.phase n = .ready ∨ s.phase n = .asleep ∨ s.phase n = .woken →
    s.k.tasklist[n]? = some (some n)
  absent : ∀ n, s.k.taskCount ≤ n → s.phase n = .absent
  noPid : ∀ n, (s.k.memory (some n)).wait ≠ .pid
  waiting : ∀ n, (s.k.memory (some n)).wait = .all ↔ s.phase n = .asleep
  exited : ∀ n st, s.passed n = some st →
    s.phase n = .exited ∧ (s.k.memory (some n)).exitStatus = st
  handed : ∀ t, s.phase t = .woken → ∃ c st, (s.k.memory (some t)).chwait = some c ∧
    (s.k.memory (some c)).parent = some t ∧ s.passed c = some st ∧
    s.k.tasklist[c]? = some (some c)

theorem init_absent (low : TaskT) {n : ℕ} (h : ¬ n < 2) : (init low).phase n = .absent :=
  if_neg h

theorem init_phase (low : TaskT) (n : ℕ) :
    (init low).phase n = .ready ∨ (init low).phase n = .absent := by
  by_cases h : n < 2
  · exact Or.inl (if_pos h)
  · exact Or.inr (if_neg h)

theorem inv_init (low : TaskT) : Inv (init low) where
  length := rfl
  entry i p h := by
    rcases i with _ | _ | i <;> simp_all [init, taskFork, multitaskingInit]
  pid n hn := by
    have hn' : n < 2 := hn
    have : n = 0 ∨ n = 1 := by omega
    rcases this with rfl | rfl <;> simp [init, taskFork, multitaskingInit]
  live n h := by
    have hn : n = 0 ∨ n = 1 := by
      by_contra hn
      have habs := init_absent low (show ¬ n < 2 by omega)
      simp [habs] at h
    rcases hn with rfl | rfl <;> rfl
  absent n hn := init_absent low (not_lt.mpr hn)
  noPid n := by
    by_cases hn : n = 1 <;> simp [init, taskFork, multitaskingInit, hn]
  waiting n := by
    have hwait : ((init low).k.memory (some n)).wait ≠ .all := by
      by_cases hn : n = 1 <;> simp [init, taskFork, multitaskingInit, hn]
    rcases init_phase low n with hp | hp <;> simp [hp, hwait]
  exited n st h := by simp [init] at h
  handed t h := by
    rcases init_phase low t with hp | hp <;> simp [hp] at h

theorem inv_fork {s : State} (h : Inv s) (t : ℕ) :
    Inv { s with k := (taskFork s.k t).1, phase := Function.update s.phase s.k.taskCount .ready } := by
  have hnew : s.phase s.k.taskCount = .absent := h.absent _ le_rfl
  have hmem : ∀ n, n ≠ s.k.taskCount →
      (taskFork s.k t).1.memory (some n) = s.k.memory (some n) := by
    intro n hn
    simp [taskFork, hn]
  have hlist : ∀ (i : ℕ) p, s.k.tasklist[i]? = some p → (taskFork s.k t).1.tasklist[i]? = some p := by
    intro i p hi
    obtain ⟨hlt, _⟩ := List.getElem?_eq_some_iff.mp hi
    simp only [taskFork]
    rw [List.getElem?_append_left hlt, hi]
  have hlast : (taskFork s.k t).1.tasklist[s.k.taskCount]? = some (some s.k.taskCount) := by
    simp [taskFork, ← h.length]
  refine ⟨?_, ?_, ?_, ?_, ?_, ?_, ?_, ?_, ?_⟩
  · simp [taskFork, h.length]
  · intro i p hi
    simp only [taskFork] at hi
    by_cases hlt : i < s.k.tasklist.length
    · rw [List.getElem?_append_left hlt] at hi
      exact h.entry i p hi
    · rw [List.getElem?_append_right (not_lt.mp hlt)] at hi
      obtain ⟨hi0, hp⟩ := List.getElem?_eq_some_iff.mp hi
      simp only [List.length_singleton] at hi0
      simp only [List.getElem_singleton, Option.some.injEq] at hp
      have := h.length
      omega
  · intro n hn
    by_cases hne : n = s.k.taskCount
    · subst hne
      simp [taskFork]
    · rw [hmem n hne]
      apply h.pid
      simp only [taskFork] at hn
      omega
  · intro n hn
    by_cases hne : n = s.k.taskCount
    · subst hne
      exact hlast
    · simp only [ne_eq, hne, not_false_eq_true, Function.update_of_ne] at hn
      exact hlist n _ (h.live n hn)
  · intro n hn
    simp only [taskFork] at hn
    have hne : n ≠ s.k.taskCount := by omega
    simp only [ne_eq, hne, not_false_eq_true, Function.update_of_ne]
    exact h.absent n (by omega)
  · intro n
    by_cases hne : n = s.k.taskCount
    · subst hne
      simp [taskFork]
    · rw [hmem n hne]
      exact h.noPid n
  · intro n
    by_cases hne : n = s.k.taskCount
    · subst hne
      simp [taskFork]
    · rw [hmem n hne]
      simp only [ne_eq, hne, not_false_eq_true, Function.update_of_ne]
      exact h.waiting n
  · intro n st hn
    have hne : n ≠ s.k.taskCount := by
      rintro rfl
      simp [(h.exited _ st hn).1] at hnew
    rw [hmem n hne]
    simp only [ne_eq, hne, not_false_eq_true, Function.update_of_ne]
    exact h.exited n st hn
  · intro u hu
    have hne : u ≠ s.k.taskCount := by
      rintro rfl
      simp at hu
    simp only [ne_eq, hne, not_false_eq_true, Function.update_of_ne] at hu
    obtain ⟨c, st, hc, hp, hst, hl⟩ := h.handed u hu
    have hcne : c ≠ s.k.taskCount := by
      rintro rfl
      simp [(h.exited _ st hst).1] at hnew
    exact ⟨c, st, by rw [hmem u hne, hc], by rw [hmem c hcne, hp], hst, hlist c _ hl⟩

theorem inv_sleep {s : State} (h : Inv s) {t : ℕ} (ht : s.phase t = .ready) :
    Inv { s with k := setTask s.k (some t) fun task => { task with wait := .all },
                 phase := Function.update s.phase t .asleep } := by
  let k := setTask s.k (some t) fun task => { task with wait := .all }
  have hfields : ∀ p, (k.memory p).pid = (s.k.memory p).pid ∧
      (k.memory p).parent = (s.k.memory p).parent ∧
      (k.memory p).exitStatus = (s.k.memory p).exitStatus ∧
      (k.memory p).chwait = (s.k.memory p).chwait := by
    intro p
    by_cases hp : p = some t
    · subst hp
      simp [k, setTask]
    · simp [k, setTask, hp]
  change Inv { s with k := k, phase := Function.update s.phase t .asleep }
  refine ⟨h.length, h.entry, ?_, ?_, ?_, ?_, ?_, ?_, ?_⟩
  · intro n hn
    rw [(hfields _).1]
    exact h.pid n hn
  · intro n hn
    by_cases hne : n = t
    · subst hne
      exact h.live n (Or.inl ht)
    · simp only [ne_eq, hne, not_false_eq_true, Function.update_of_ne] at hn
      exact h.live n hn
  · intro n hn
    have hne : n ≠ t := by
      rintro rfl
      simp [h.absent n hn] at ht
    simp only [ne_eq, hne, not_false_eq_true, Function.update_of_ne]
    exact h.absent n hn
  · intro n
    by_cases hne : n = t
    · subst hne
      simp [k, setTask]
    · simpa [k, setTask, hne] using h.noPid n
  · intro n
    by_cases hne : n = t
    · subst hne
      simp [k, setTask]
    · simpa [k, setTask, hne] using h.waiting n
  · intro n st hn
    have hne : n ≠ t := by
      rintro rfl
      simp [(h.exited n st hn).1] at ht
    rw [(hfields _).2.2.1]
    simpa [hne] using h.exited n st hn
  · intro u hu
    have hne : u ≠ t := by
      rintro rfl
      simp at hu
    simp only [ne_eq, hne, not_false_eq_true, Function.update_of_ne] at hu
    obtain ⟨c, st, hc, hp, hst, hl⟩ := h.handed u hu
    exact ⟨c, st, by rw [(hfields _).2.2.2, hc], by rw [(hfields _).2.1, hp], hst, hl⟩

theorem leave_fields (s : State) (t : ℕ) (st : Int16) (p : Ptr) :
    ((leave s t st).k.memory p).pid = (s.k.memory p).pid ∧
      ((leave s t st).k.memory p).parent = (s.k.memory p).parent ∧
      ((leave s t st).k.memory p).wait = (s.k.memory p).wait ∧
      ((leave s t st).k.memory p).chwait = (s.k.memory p).chwait := by
  by_cases hp : p = some t
  · subst hp
    simp [leave, setTask]
  · simp [leave, setTask, hp]

theorem Inv.lt {s : State} (h : Inv s) {t : ℕ} (ht : s.phase t = .ready) : t < s.k.taskCount := by
  by_contra hlt
  simp [h.absent t (not_lt.mp hlt)] at ht

theorem inv_leave {s : State} (h : Inv s) {t : ℕ} (ht : s.phase t = .ready) (st : Int16) :
    Inv (leave s t st) := by
  have hph : ∀ n, n ≠ t → (leave s t st).phase n = s.phase n := by
    intro n hn
    simp [leave, hn]
  have hpt : (leave s t st).phase t = .exited := by simp [leave]
  refine ⟨h.length, h.entry, ?_, ?_, ?_, ?_, ?_, ?_, ?_⟩
  · intro n hn
    rw [(leave_fields s t st _).1]
    exact h.pid n hn
  · intro n hn
    by_cases hnt : n = t
    · subst hnt
      simp [hpt] at hn
    · rw [hph n hnt] at hn
      exact h.live n hn
  · intro n hn
    have hnt : n ≠ t := by
      rintro rfl
      exact absurd (h.lt ht) (not_lt.mpr hn)
    rw [hph n hnt]
    exact h.absent n hn
  · intro n
    rw [(leave_fields s t st _).2.2.1]
    exact h.noPid n
  · intro n
    rw [(leave_fields s t st _).2.2.1, h.waiting]
    by_cases hnt : n = t
    · subst hnt
      simp [hpt, ht]
    · rw [hph n hnt]
  · intro n o hn
    by_cases hnt : n = t
    · subst hnt
      simp only [leave, Function.update_self, Option.some.injEq] at hn
      simp [leave, setTask, hn]
    · simp only [leave, ne_eq, hnt, not_false_eq_true, Function.update_of_ne] at hn
      rw [hph n hnt]
      simpa [leave, setTask, hnt] using h.exited n o hn
  · intro u hu
    have hut : u ≠ t := by
      rintro rfl
      simp [hpt] at hu
    rw [hph u hut] at hu
    obtain ⟨c, o, hc, hp, ho, hl⟩ := h.handed u hu
    have hct : c ≠ t := by
      rintro rfl
      simp [(h.exited c o ho).1] at ht
    exact ⟨c, o, by rw [(leave_fields s t st _).2.2.2, hc],
      by rw [(leave_fields s t st _).2.1, hp], by simp [leave, hct, ho], hl⟩

theorem inv_handOver {s : State} (h : Inv s) {p t : ℕ} {st : Int16} (hp : s.phase p = .asleep)
    (hpar : (s.k.memory (some t)).parent = some p) (hst : s.passed t = some st)
    (hl : s.k.tasklist[t]? = some (some t)) : Inv (handOver s (some p) t) := by
  have hmem : ∀ n, n ≠ p → (handOver s (some p) t).k.memory (some n) = s.k.memory (some n) := by
    intro n hn
    simp [handOver, setTask, hn]
  have hmp : (handOver s (some p) t).k.memory (some p) =
      { s.k.memory (some p) with chwait := some t, wait := .none } := by
    simp [handOver, setTask]
  have hph : ∀ n, n ≠ p → (handOver s (some p) t).phase n = s.phase n := by
    intro n hn
    simp [handOver, hn]
  have hpp : (handOver s (some p) t).phase p = .woken := by simp [handOver]
  refine ⟨h.length, h.entry, ?_, ?_, ?_, ?_, ?_, ?_, ?_⟩
  · intro n hn
    by_cases hnp : n = p
    · subst hnp
      rw [hmp]
      exact h.pid n hn
    · rw [hmem n hnp]
      exact h.pid n hn
  · intro n hn
    by_cases hnp : n = p
    · subst hnp
      exact h.live n (Or.inr (Or.inl hp))
    · rw [hph n hnp] at hn
      exact h.live n hn
  · intro n hn
    have hnp : n ≠ p := by
      rintro rfl
      simp [h.absent n hn] at hp
    rw [hph n hnp]
    exact h.absent n hn
  · intro n
    by_cases hnp : n = p
    · subst hnp
      simp [hmp]
    · rw [hmem n hnp]
      exact h.noPid n
  · intro n
    by_cases hnp : n = p
    · subst hnp
      simp [hmp, hpp]
    · rw [hmem n hnp, hph n hnp]
      exact h.waiting n
  · intro n o hn
    have hx := h.exited n o hn
    have hnp : n ≠ p := by
      rintro rfl
      simp [hx.1] at hp
    rw [hmem n hnp, hph n hnp]
    exact hx
  · intro u hu
    have hparent : ∀ c o, s.passed c = some o → (handOver s (some p) t).k.memory (some c) =
        s.k.memory (some c) := by
      intro c o ho
      apply hmem
      rintro rfl
      simp [(h.exited c o ho).1] at hp
    by_cases hup : u = p
    · subst hup
      exact ⟨t, st, by rw [hmp], by rw [hparent t st hst, hpar], hst, hl⟩
    · rw [hph u hup] at hu
      obtain ⟨c, o, hc, hpc, ho, hlc⟩ := h.handed u hu
      exact ⟨c, o, by rw [hmem u hup, hc], by rw [hparent c o ho, hpc], ho, hlc⟩

theorem inv_handOver_null {s : State} (h : Inv s) (t : ℕ) : Inv (handOver s none t) := by
  have hmem : ∀ n, (handOver s none t).k.memory (some n) = s.k.memory (some n) := by
    intro n
    simp [handOver, setTask]
  refine ⟨h.length, h.entry, ?_, h.live, h.absent, ?_, ?_, ?_, ?_⟩
  · intro n hn
    rw [hmem]
    exact h.pid n hn
  · intro n
    rw [hmem]
    exact h.noPid n
  · intro n
    rw [hmem]
    exact h.waiting n
  · intro n o hn
    rw [hmem]
    exact h.exited n o hn
  · intro u hu
    simp only [hmem]
    exact h.handed u hu

theorem inv_exit {s : State} (h : Inv s) {t : ℕ} (ht : s.phase t = .ready) (st : Int16) :
    Inv (syscallExit s t st) := by
  have hleft := inv_leave h ht st
  simp only [syscallExit]
  split_ifs with hw
  · cases hpar : (s.k.memory (some t)).parent with
    | none => exact inv_handOver_null hleft t
    | some p =>
      rw [hpar] at hw
      have hall := hw.resolve_left fun hpid => hleft.noPid p hpid.1
      apply @inv_handOver _ hleft _ _ st ((hleft.waiting p).mp hall)
        (by rw [(leave_fields s t st _).2.1, hpar]) (by simp [leave])
      exact h.live t (Or.inl ht)
  · exact hleft

theorem inv_reap {s : State} (h : Inv s) {t : ℕ} (ht : s.phase t = .woken) :
    ∃ c st, (reap s t).2 = some (c, st) ∧ (s.k.memory (some c)).parent = some t ∧
      s.passed c = some st ∧ s.k.tasklist[c]? = some (some c) ∧
      (reap s t).1.k.tasklist = s.k.tasklist.set c none ∧ Inv (reap s t).1 := by
  obtain ⟨c, st, hc, hp, hst, hl⟩ := h.handed t ht
  have hlt : c < s.k.taskCount := by
    rw [← h.length]
    exact (List.getElem?_eq_some_iff.mp hl).1
  have hpid := h.pid c hlt
  have hxc := h.exited c st hst
  have hlist : (reap s t).1.k.tasklist = s.k.tasklist.set c none := by
    simp [reap, taskKilltask, hc, hpid]
  have hfields := taskKilltask_fields s.k (some c)
  have hmem : (reap s t).1.k.memory = (taskKilltask s.k (some c)).memory := by simp [reap, hc]
  have hph : ∀ n, n ≠ t → (reap s t).1.phase n = s.phase n := by
    intro n hn
    simp [reap, hn]
  have hpt : (reap s t).1.phase t = .ready := by simp [reap]
  have hset : ∀ n, s.phase n ≠ .exited → s.k.tasklist[n]? = some (some n) →
      (reap s t).1.k.tasklist[n]? = some (some n) := by
    intro n hn hln
    have hnc : c ≠ n := by
      rintro rfl
      exact hn hxc.1
    rw [hlist, List.getElem?_set_ne hnc, hln]
  refine ⟨c, st, by simp [reap, hc, hpid, hxc.2], hp, hst, hl, hlist, ?_, ?_, ?_, ?_, ?_, ?_, ?_,
    ?_, ?_⟩
  · rw [hlist, List.length_set, h.length]
    simp [reap, taskKilltask]
  · intro i q hi
    rw [hlist] at hi
    by_cases hic : c = i
    · subst hic
      simp [h.length, hlt] at hi
    · rw [List.getElem?_set_ne hic] at hi
      exact h.entry i q hi
  · intro n hn
    rw [hmem, (hfields _).1]
    exact h.pid n hn
  · intro n hn
    by_cases hnt : n = t
    · subst hnt
      exact hset n (by simp [ht]) (h.live n (by simp [ht]))
    · rw [hph n hnt] at hn
      refine hset n ?_ (h.live n hn)
      rcases hn with hn | hn | hn <;> simp [hn]
  · intro n hn
    have hnt : n ≠ t := by
      rintro rfl
      have := h.absent n hn
      simp [this] at ht
    rw [hph n hnt]
    exact h.absent n hn
  · intro n
    rw [hmem, (hfields _).2.2.2]
    exact h.noPid n
  · intro n
    rw [hmem, (hfields _).2.2.2, h.waiting]
    by_cases hnt : n = t
    · subst hnt
      simp [ht, hpt]
    · rw [hph n hnt]
  · intro n o hn
    have hx := h.exited n o hn
    have hnt : n ≠ t := by
      rintro rfl
      simp [ht] at hx
    rw [hmem, (hfields _).2.1, hph n hnt]
    exact hx
  · intro u hu
    have hut : u ≠ t := by
      rintro rfl
      simp [hpt] at hu
    rw [hph u hut] at hu
    obtain ⟨d, o, hd, hpd, ho, hld⟩ := h.handed u hu
    have hdc : c ≠ d := by
      rintro rfl
      rw [hp] at hpd
      exact hut (Option.some.inj hpd).symm
    have huc : u ≠ c := by
      rintro rfl
      simp [hxc.1] at hu
    refine ⟨d, o, by rw [hmem, (hfields _).2.2.1, hd], ?_, ho, ?_⟩
    · rw [hmem, taskKilltask_other (by simp [hpd, huc]), hpd]
    · rw [hlist, List.getElem?_set_ne hdc, hld]

theorem inv_act {s s' : State} {a : Action} {out : Option (ℕ × Int16)} (h : Inv s)
    (hg : BeforeExit s a) (ha : act s a = some (s', out)) : Inv s' := by
  cases a with
  | fork t =>
    simp only [act, Option.ite_none_right_eq_some, Option.some.injEq, Prod.mk.injEq] at ha
    obtain ⟨_, rfl, _⟩ := ha
    exact inv_fork h t
  | exit t st =>
    simp only [act, Option.ite_none_right_eq_some, Option.some.injEq, Prod.mk.injEq] at ha
    obtain ⟨ht, rfl, _⟩ := ha
    exact inv_exit h ht.2 st
  | wait t =>
    simp only [act, Option.ite_none_right_eq_some, Option.some.injEq, syscallWait] at ha
    obtain ⟨ht, ha⟩ := ha
    have hz : taskFindZombie s.k (some t) = none := hg
    rw [hz] at ha
    obtain ⟨rfl, _⟩ := Prod.mk.inj ha
    exact inv_sleep h ht.2
  | resume t =>
    simp only [act, Option.ite_none_right_eq_some, Option.some.injEq] at ha
    obtain ⟨ht, ha⟩ := ha
    obtain ⟨c, st, _, _, _, _, _, hinv⟩ := inv_reap h ht
    rw [ha] at hinv
    exact hinv

/-- In every run in which no `wait` is called after the exit of a child that is still in the table,
every `wait` that returns has reaped a child. -/
theorem reapsChild_of_beforeExit (low : TaskT) (as : List Action) (a : Action) (s s' : State)
    (pid : ℕ) (status : Int16) (hg : Meets step BeforeExit (init low) (as ++ [a]))
    (hs : exec step (init low) as = some s) (ha : act s a = some (s', some (pid, status))) :
    ReapsChild s a s' pid status := by
  obtain ⟨hgs, hga⟩ := meets_snoc.mp hg
  have hinv : Inv s := by
    refine exec_invariant ?_ (inv_init low) hgs hs
    intro s a t h hga hstep
    obtain ⟨⟨u, out⟩, hact, rfl⟩ := Option.map_eq_some_iff.mp hstep
    exact inv_act h hga hact
  have hga := hga s hs
  cases a with
  | fork t => simp [act] at ha
  | exit t st => simp [act] at ha
  | wait t =>
    simp only [act, Option.ite_none_right_eq_some, Option.some.injEq, syscallWait] at ha
    have hz : taskFindZombie s.k (some t) = none := hga
    rw [hz] at ha
    simp at ha
  | resume t =>
    simp only [act, Option.ite_none_right_eq_some, Option.some.injEq] at ha
    obtain ⟨ht, ha⟩ := ha
    obtain ⟨c, st, hr, hp, hst, hl, hlist, _⟩ := inv_reap hinv ht
    rw [ha] at hr hlist
    obtain ⟨rfl, rfl⟩ := Prod.mk.inj (Option.some.inj hr)
    exact ⟨hp, hst, hl, hlist⟩

def zeros : TaskT := ⟨0, none, 0, none, .none⟩

theorem reapsChild_waiting : ∃ s s', exec step (init zeros) [.fork 1, .wait 1, .exit 2 7] = some s ∧
    act s (.resume 1) = some (s', some (2, 7)) ∧ ReapsChild s (.resume 1) s' 2 7 :=
  ⟨_, _, rfl, rfl, reapsChild_of_beforeExit zeros [.fork 1, .wait 1, .exit 2 7] (.resume 1) _ _ 2 7
    (meets_cons trivial rfl (meets_cons (by rfl) rfl (meets_cons trivial rfl
      (meets_cons trivial rfl trivial)))) rfl rfl⟩

/-- Task 2 exits first: `wait` finds it and then reaps through the null `chwait`. -/
theorem wait_after_exit : ¬ ∀ (low : TaskT) (as : List Action) (a : Action) (s s' : State) (pid : ℕ)
    (status : Int16), exec step (init low) as = some s →
    act s a = some (s', some (pid, status)) → ReapsChild s a s' pid status := by
  intro h
  have hr := h zeros [.fork 1, .exit 2 7] (.wait 1) _ _ 0 0 rfl rfl
  exact absurd hr.child (by simp [leave, setTask, syscallExit, init, taskFork,
    multitaskingInit, Action.task])

end Eedox.TaskWait
