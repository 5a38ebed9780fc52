import Eedox.Library.Runs
import Eedox.Mq

namespace Eedox.Syscall

open Util Pathbuf Pipe Fs Descriptor Mq

structure Task where
  table : FdTable
  cwd : PathbufT

structure Kernel where
  objects : Objects
  mqlist : Mqlist
  tasks : List Task
  unset : Fd

def initFdt (unset : Fd) : FdTable :=
  let table := (fdTableAdd (fdTableCreate 2 (by decide)) ⟨.stdin, unset.pos, true, fdAccessRead⟩).1
  (fdTableAdd table ⟨.stdout, unset.pos, true, fdAccessWrite⟩).1

/-- The first task, after `syscalls_init`, `multitasking_init` and `fs_init`. -/
def boot (objects : Objects) (unset : Fd) : Kernel where
  objects := { objects with fs := fsInit objects.fs, nextPipe := 0 }
  mqlist := []
  tasks := [⟨initFdt unset, pathbufRoot⟩]
  unset := unset

def setTable (k : Kernel) (t : ℕ) (task : Task) (objects : Objects) (table : FdTable) : Kernel :=
  { k with objects := objects, tasks := k.tasks.set t { task with table := table } }

def setFs (k : Kernel) (fs : Volume) : Kernel :=
  { k with objects := { k.objects with fs := fs } }

def syscallErrInvalidFd : ℤ := -1

def syscallTranslateFsErr (err : ℤ) : ℤ :=
  if err = fsErrDeleted then -5
  else if err = fsErrDirHasChild then -8
  else if err = fsErrNonexisting then -7
  else if err = fsErrInvalidPath then -6
  else 0

/-- The end of `syscall_open` and `syscall_opendir`: the descriptor for the inode that `fs_open` has
returned with the result 0. -/
def addFd (k : Kernel) (t : ℕ) (task : Task) (fd : Fd) : Kernel × ℤ :=
  let added := fdTableAdd task.table fd
  (setTable k t task k.objects added.1, added.2)

def syscallOpen (k : Kernel) (t : ℕ) (task : Task) (path : Str) (flags : ℕ) : Option (Kernel × ℤ) :=
  let flagCreate := flags % 2 = 1
  let flagTruncate := flags / 2 % 2 = 1
  (fsOpen k.objects.fs (resolvePath task.cwd (pathbufParse path)) flagCreate flagTruncate 0 false).bind
    fun (fs, node, res) =>
      if res ≠ 0 then some (setFs k fs, syscallTranslateFsErr res)
      else node.map fun node =>
        addFd (setFs k fs) t task ⟨.disk node, 0, true, fdAccessWrite + fdAccessRead⟩

def syscallOpendir (k : Kernel) (t : ℕ) (task : Task) (path : Str) : Option (Kernel × ℤ) :=
  (fsOpen k.objects.fs (resolvePath task.cwd (pathbufParse path)) false false 1 false).bind
    fun (fs, node, res) =>
      if res ≠ 0 then some (setFs k fs, syscallTranslateFsErr res)
      else node.map fun node => addFd (setFs k fs) t task ⟨.dir node, 0, true, fdAccessRead⟩

def syscallMkdir (k : Kernel) (task : Task) (path : Str) : Option (Kernel × ℤ) :=
  (fsOpen k.objects.fs (resolvePath task.cwd (pathbufParse path)) true false 1 false).map
    fun (fs, node, res) =>
      (setFs k (fsClose fs node), if res ≠ 0 then syscallTranslateFsErr res else 0)

def syscallSetcwd (k : Kernel) (t : ℕ) (task : Task) (path : Str) : Option (Kernel × ℤ) :=
  let cwd := resolvePath task.cwd (pathbufParse path)
  (fsOpen k.objects.fs cwd false false 1 false).map fun (fs, dir, res) =>
    let k := setFs k (fsClose fs dir)
    if res ≠ 0 then (k, syscallTranslateFsErr res)
    else ({ k with tasks := k.tasks.set t { task with cwd := cwd } }, 0)

structure StatT where
  index : ℕ
  isdir : Bool
  size : ℕ
  blocks : ℕ

def syscallStat (k : Kernel) (task : Task) (path : Str) : Option (Kernel × ℤ × Option StatT) :=
  (fsOpen k.objects.fs (resolvePath task.cwd (pathbufParse path)) false false 2 false).map
    fun (fs, node, res) =>
      if res ≠ 0 then (setFs k fs, syscallTranslateFsErr res, none)
      else (setFs k fs, 0, node.map fun node =>
        let n := fs.inodes node
        ⟨n.index, n.type = inodeTypeDir, n.size, (n.alloc + 1) % 2 ^ 32⟩)

def binDir : PathbufT := pathbufParse ⟨[47, 98, 105, 110, 47], by decide⟩

def execOpen (s : Volume) (cwd path : PathbufT) : Option (Volume × Option ℕ × ℤ) :=
  if !path.isAbsolute then
    (fsOpen s (pathbufJoin cwd path) false false 0 false).bind fun (s, binary, rres) =>
      if rres ≠ 0 then
        (fsOpen s (pathbufJoin binDir path) false false 0 false).map fun (s, binary, rres) =>
          (s, if rres ≠ 0 then none else binary, rres)
      else some (s, binary, rres)
  else
    (fsOpen s path false false 0 false).map fun (s, binary, rres) =>
      (s, if rres ≠ 0 then none else binary, rres)

/-- Up to the loading of the program, which touches neither an inode's references nor a table. -/
def syscallExec (k : Kernel) (task : Task) (path : Str) : Option (Kernel × ℤ) :=
  (execOpen k.objects.fs task.cwd (pathbufParse path)).map fun (fs, _, rres) =>
    (setFs k fs, if rres ≠ 0 then syscallTranslateFsErr rres else 0)

def syscallClose (k : Kernel) (t : ℕ) (task : Task) (fdId : ℕ) : Kernel × ℤ :=
  match task.table.records[fdId]? with
  | none => (k, syscallErrInvalidFd)
  | some fd =>
    if !fd.isopen then (k, syscallErrInvalidFd)
    else
      let closed := fdTableClose k.objects task.table fdId
      (setTable k t task closed.1 closed.2, 0)

def syscallDup (k : Kernel) (t : ℕ) (task : Task) (index : ℕ) : Kernel × ℤ :=
  match task.table.records[index]? with
  | none => (k, syscallErrInvalidFd)
  | some fd =>
    if !fd.isopen then (k, syscallErrInvalidFd)
    else
      let dup := fdTableDup k.objects task.table index
      (setTable k t task dup.1 dup.2.1, dup.2.2)

/-- `task_fork` in the parent; the new task comes last in the list. -/
def taskFork (k : Kernel) (task : Task) : Kernel × ℤ :=
  let cloned := fdTableClone k.unset k.objects task.table
  ({ k with objects := cloned.1, tasks := k.tasks ++ [⟨cloned.2, task.cwd⟩] }, k.tasks.length)

def taskCloseAllFds (o : Objects) (table : FdTable) : Objects × FdTable :=
  (List.range table.records.length).foldl (fun s i => fdTableClose s.1 s.2 i) (o, table)

def syscallExit (k : Kernel) (t : ℕ) (task : Task) : Kernel :=
  let closed := taskCloseAllFds k.objects task.table
  setTable k t task closed.1 closed.2

def addEnds (table : FdTable) (target : Target) : FdTable × ℕ × ℕ :=
  let rd := fdTableAdd table ⟨target, 0, true, fdAccessRead⟩
  let wr := fdTableAdd rd.1 ⟨target, 0, true, fdAccessWrite⟩
  (wr.1, rd.2, wr.2)

def syscallPipe (k : Kernel) (t : ℕ) (task : Task) : Kernel × ℕ × ℕ :=
  let ends := addEnds task.table (.pipe k.objects.nextPipe)
  (setTable k t task (allocPipe k.objects false) ends.1, ends.2)

def syscallMqopen (k : Kernel) (t : ℕ) (task : Task) (name : Str) : Kernel × ℕ × ℕ :=
  let mq := mqlistOpen k.objects k.mqlist name
  let ends := addEnds task.table (.mq mq.2.2)
  ({ setTable k t task mq.1 ends.1 with mqlist := mq.2.1 }, ends.2)

inductive Call
  | «open» (path : Str) (flags : ℕ)
  | opendir (path : Str)
  | mkdir (path : Str)
  | stat (path : Str)
  | setcwd (path : Str)
  | exec (path : Str)
  | close (fdId : ℕ)
  | dup (index : ℕ)
  | fork
  | exit
  | pipe
  | mqopen (name : Str)

def perform (k : Kernel) (t : ℕ) (task : Task) : Call → Option Kernel
  | .open path flags => (syscallOpen k t task path flags).map (·.1)
  | .opendir path => (syscallOpendir k t task path).map (·.1)
  | .mkdir path => (syscallMkdir k task path).map (·.1)
  | .stat path => (syscallStat k task path).map (·.1)
  | .setcwd path => (syscallSetcwd k t task path).map (·.1)
  | .exec path => (syscallExec k task path).map (·.1)
  | .close fdId => some (syscallClose k t task fdId).1
  | .dup index => some (syscallDup k t task index).1
  | .fork => some (taskFork k task).1
  | .exit => some (syscallExit k t task)
  | .pipe => some (syscallPipe k t task).1
  | .mqopen name => some (syscallMqopen k t task name).1

def descriptors (k : Kernel) : List Fd := k.tasks.flatMap fun task => openFds task.table

/-- The descriptors of 16 bytes that the kernel heap has room for. -/
def heapRecords : ℕ := 0x1004000 / 16

/-- One system call; there is no next state after a kernel panic, a read through a null pointer, or when
the heap has no room for the descriptors. -/
def step (k : Kernel) (a : ℕ × Call) : Option Kernel :=
  (k.tasks[a.1]?.bind fun task => perform k a.1 task a.2).filter fun k =>
    (descriptors k).length ≤ heapRecords

theorem step_eq_some {k k' : Kernel} {t : ℕ} {c : Call} : step k (t, c) = some k' ↔
    ∃ task, k.tasks[t]? = some task ∧ perform k t task c = some k' ∧
      (descriptors k').length ≤ heapRecords := by
  simp only [step, Option.filter_eq_some_iff, Option.bind_eq_some_iff, decide_eq_true_eq]
  constructor
  · rintro ⟨⟨task, ht, hp⟩, hr⟩
    exact ⟨task, ht, hp, hr⟩
  · rintro ⟨task, ht, hp, hr⟩
    exact ⟨⟨task, ht, hp⟩, hr⟩

theorem descriptors_split {k : Kernel} {t : ℕ} {task : Task} (ht : k.tasks[t]? = some task) :
    ∃ rest, (descriptors k).Perm (openFds task.table ++ rest) ∧ ∀ objects table,
      (descriptors (setTable k t task objects table)).Perm (openFds table ++ rest) := by
  unfold descriptors setTable
  generalize k.tasks = tasks at *
  induction tasks generalizing t with
  | nil => cases ht
  | cons a tasks ih =>
    cases t with
    | zero =>
      obtain rfl : a = task := by simpa using ht
      exact ⟨tasks.flatMap fun task => openFds task.table, List.Perm.refl _,
        fun _ _ => List.Perm.refl _⟩
    | succ t =>
      obtain ⟨rest, hold, hnew⟩ := ih (t := t) (by simpa using ht)
      refine ⟨openFds a.table ++ rest, ?_, fun objects table => ?_⟩
      · rw [List.flatMap_cons]
        exact (hold.append_left _).trans (List.perm_append_comm_assoc _ _ _)
      · have h := hnew objects table
        simp only [List.set_cons_succ, List.flatMap_cons]
        exact (h.append_left _).trans (List.perm_append_comm_assoc _ _ _)

def blankObjects : Objects where
  fs := ⟨fun _ _ => 0, 0, fun _ => ⟨⟨0, 0, 0, 0, 0, 0⟩, 0, pathbufRoot, none⟩, [], 0, [], fun _ => 0,
    fun _ _ => 0, ⟨[], nul_nil⟩⟩
  pipes := fun _ => pipeNew
  nextPipe := 0
  queue := fun _ => false
  frees := fun _ => 0

def blankFd : Fd := ⟨.stdin, 0, false, 0⟩

end Eedox.Syscall
