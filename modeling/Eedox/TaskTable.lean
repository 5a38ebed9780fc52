import Mathlib.Data.List.Basic
import Mathlib.Logic.Function.Basic
import Mathlib.Order.Nat

namespace Eedox.TaskTable

/-- A `task_t *`: the object of the task with a given pid, or a null pointer. Page 0 is mapped, so a
null pointer reads the memory at address 0. -/
abbrev Ptr := Option ℕ

inductive Wait | none | pid | all
  deriving DecidableEq

structure TaskT where
  pid : ℕ
  parent : Ptr
  exitStatus : Int16
  chwait : Ptr
  wait : Wait

structure Tasks where
  memory : Ptr → TaskT
  tasklist : List Ptr
  taskCount : ℕ

def initPid : ℕ := 1

/-- Task 0; `low` is what lies at address 0. -/
def multitaskingInit (low : TaskT) : Tasks where
  memory := fun p => if p = .none then low else ⟨0, .none, -1, .none, .none⟩
  tasklist := [some 0]
  taskCount := 1

def setTask (k : Tasks) (p : Ptr) (f : TaskT → TaskT) : Tasks :=
  { k with memory := Function.update k.memory p (f (k.memory p)) }

def taskFork (k : Tasks) (curtask : ℕ) : Tasks × ℕ :=
  let pid := k.taskCount
  ({ memory := Function.update k.memory (some pid) ⟨pid, some curtask, -1, .none, .none⟩,
     tasklist := k.tasklist ++ [some pid], taskCount := k.taskCount + 1 }, pid)

def taskFindZombie (k : Tasks) (task : Ptr) : Ptr :=
  (k.tasklist.find? fun child =>
    (k.memory child).parent = task ∧ (k.memory child).exitStatus ≠ -1).join

def orphan (task init : Ptr) (memory : Ptr → TaskT) (child : Ptr) : Ptr → TaskT :=
  if (memory child).parent = task then
    Function.update memory child { memory child with parent := init }
  else memory

def taskOrphanAll (k : Tasks) (task : Ptr) : Tasks :=
  { k with memory := k.tasklist.foldl (orphan task k.tasklist[initPid]?.join) k.memory }

def taskKilltask (k : Tasks) (task : Ptr) : Tasks :=
  let pid := (k.memory task).pid
  let k := taskOrphanAll k task
  { k with tasklist := k.tasklist.set pid .none }

theorem orphan_fields (task init : Ptr) (memory : Ptr → TaskT) (child p : Ptr) :
    orphan task init memory child p = memory p ∨
      (memory p).parent = task ∧ orphan task init memory child p = { memory p with parent := init } := by
  unfold orphan
  split_ifs with h
  · by_cases hp : p = child
    · subst hp
      exact Or.inr ⟨h, by simp⟩
    · exact Or.inl (by simp [hp])
  · exact Or.inl rfl

theorem foldl_orphan_fields (task init : Ptr) (children : List Ptr) (memory : Ptr → TaskT) (p : Ptr) :
    children.foldl (orphan task init) memory p = memory p ∨ (memory p).parent = task ∧
      children.foldl (orphan task init) memory p = { memory p with parent := init } := by
  induction children generalizing memory with
  | nil => exact Or.inl rfl
  | cons child rest ih =>
    rw [List.foldl_cons]
    rcases orphan_fields task init memory child p with h | ⟨hp, h⟩
    · rcases ih (orphan task init memory child) with h' | ⟨hp', h'⟩
      · exact Or.inl (h'.trans h)
      · rw [h] at hp' h'
        exact Or.inr ⟨hp', h'⟩
    · refine Or.inr ⟨hp, ?_⟩
      rcases ih (orphan task init memory child) with h' | ⟨_, h'⟩
      · exact h'.trans h
      · rw [h', h]

theorem taskOrphanAll_fields (k : Tasks) (task p : Ptr) :
    (taskOrphanAll k task).memory p = k.memory p ∨ (k.memory p).parent = task ∧
      (taskOrphanAll k task).memory p = { k.memory p with parent := k.tasklist[initPid]?.join } := by
  exact foldl_orphan_fields task k.tasklist[initPid]?.join k.tasklist k.memory p

theorem foldl_orphan_child {task init : Ptr} {children : List Ptr} {memory : Ptr → TaskT} {p : Ptr}
    (hp : (memory p).parent = task) (hl : p ∈ children) :
    children.foldl (orphan task init) memory p = { memory p with parent := init } := by
  induction children generalizing memory with
  | nil => simp at hl
  | cons child rest ih =>
    rw [List.foldl_cons]
    by_cases hc : p = child
    · subst hc
      have horphan : orphan task init memory p p = { memory p with parent := init } := by
        simp [orphan, hp]
      rcases foldl_orphan_fields task init rest (orphan task init memory p) p with h | ⟨_, h⟩
      · rw [h, horphan]
      · rw [h, horphan]
    · have hkeep : orphan task init memory child p = memory p := by
        unfold orphan
        split_ifs
        · simp [hc]
        · rfl
      rw [ih (by rw [hkeep, hp]) ((List.mem_cons.mp hl).resolve_left hc), hkeep]

theorem taskOrphanAll_child {k : Tasks} {task p : Ptr} (hp : (k.memory p).parent = task)
    (hl : p ∈ k.tasklist) :
    (taskOrphanAll k task).memory p = { k.memory p with parent := k.tasklist[initPid]?.join } :=
  foldl_orphan_child hp hl

@[simp] theorem taskOrphanAll_tasklist (k : Tasks) (task : Ptr) :
    (taskOrphanAll k task).tasklist = k.tasklist := rfl

@[simp] theorem taskOrphanAll_taskCount (k : Tasks) (task : Ptr) :
    (taskOrphanAll k task).taskCount = k.taskCount := rfl

theorem taskKilltask_other {k : Tasks} {task p : Ptr} (h : (k.memory p).parent ≠ task) :
    (taskKilltask k task).memory p = k.memory p :=
  (taskOrphanAll_fields k task p).resolve_right fun hp => h hp.1

theorem taskKilltask_fields (k : Tasks) (task p : Ptr) :
    ((taskKilltask k task).memory p).pid = (k.memory p).pid ∧
      ((taskKilltask k task).memory p).exitStatus = (k.memory p).exitStatus ∧
      ((taskKilltask k task).memory p).chwait = (k.memory p).chwait ∧
      ((taskKilltask k task).memory p).wait = (k.memory p).wait := by
  rcases taskOrphanAll_fields k task p with h | ⟨_, h⟩ <;> simp [taskKilltask, h]

end Eedox.TaskTable
