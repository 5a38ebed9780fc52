import Eedox.DiskInterrupts
import Eedox.EndOfFile
import Eedox.ReaderWriterLock
import Eedox.TaskTable

namespace Eedox.Scheduler

open Util Semaphore Pipe Descriptor TaskTable
open ReaderWriterLock (Krwlock Operation krwlockInit readBlocked writeBlocked enqueue krwlockReadEnd
  krwlockWriteEnd krwlockRelease)
open DiskInterrupts (Op)
open Syscall (Kernel Call boot initFdt)
open EndOfFile (fdOf withPipe)

/-- What can wake a task. -/
inductive Place
  | diskSem
  | ataTask
  | stdinLock
  | readerTask
  | pipe (ptr : ℕ)
  | rwlock (lock : ℕ)
  | wait
  deriving DecidableEq

/-- A call of `task_sleep`, with what its caller still needs. -/
inductive Block
  | diskSem (op : Op)
  | ata
  | stdinLock (len : ℕ)
  | reader (len : ℕ)
  | pipe (ptr len : ℕ)
  | rwlock (lock : ℕ) (op : Operation)
  | wait
  | waitpid (child : ℕ)
  deriving DecidableEq

def Block.place : Block → Place
  | .diskSem _ => .diskSem
  | .ata => .ataTask
  | .stdinLock _ => .stdinLock
  | .reader _ => .readerTask
  | .pipe ptr _ => .pipe ptr
  | .rwlock lock _ => .rwlock lock
  | .wait | .waitpid _ => .wait

inductive Phase
  | absent
  | ready
  | asleep (b : Block)
  | woken (b : Block)
  | exited
  deriving DecidableEq

def Phase.awake : Phase → Phase
  | .asleep b => .woken b
  | ph => ph

/-- The kernel. `locks` are the locks of the inodes and of the sector allocator, by the order in which
they were initialized; `phase` is a ghost but for the point at which each task goes on. -/
structure State where
  k : Kernel
  tasks : Tasks
  rrQueue : List ℕ
  currentTask : ℕ
  diskSem : Ksemaphore ℕ
  ataCurrentOp : Op
  ataTask : Option ℕ
  stdinLock : Ksemaphore ℕ
  readerTask : Option ℕ
  inputList : List (List UInt8)
  locks : ℕ → Krwlock ℕ
  phase : ℕ → Phase

/-- The state in which `kmain` has forked task 1. -/
def init (objects : Objects) (unset : Fd) (low : TaskT) : State where
  k := (Syscall.taskFork (boot objects unset) ⟨initFdt unset, Pathbuf.pathbufRoot⟩).1
  tasks := (taskFork (multitaskingInit low) 0).1
  rrQueue := [0, 1]
  currentTask := 0
  diskSem := ksemaphoreInit 1
  ataCurrentOp := .read
  ataTask := none
  stdinLock := ksemaphoreInit 1
  readerTask := none
  inputList := []
  locks := fun _ => krwlockInit
  phase := fun t => if t < 2 then .ready else .absent

def setPhase (s : State) (t : ℕ) (ph : Phase) : State :=
  { s with phase := Function.update s.phase t ph }

def taskSwitch (s : State) (sleep : Bool) : State :=
  match s.rrQueue with
  | curtask :: nextask :: rest =>
    let queue := nextask :: rest
    { s with rrQueue := if sleep then queue else queue ++ [curtask], currentTask := nextask }
  | _ => s

/-- A lone task is not switched away from, and goes on at once. -/
def taskSleep (s : State) (b : Block) : State :=
  if s.rrQueue.length = 1 then setPhase s s.currentTask (.woken b)
  else taskSwitch (setPhase s s.currentTask (.asleep b)) true

def taskAwake (s : State) (task : ℕ) : State :=
  { setPhase s task (s.phase task).awake with rrQueue := s.rrQueue ++ [task] }

def awakeAll (s : State) (ts : List ℕ) : State := ts.foldl taskAwake s

section Disk

/-- `ata_read` and `ata_write` up to their `task_sleep`, below their `ksemaphore_wait`. -/
def ataIssue (s : State) (op : Op) : State :=
  taskSleep { s with ataCurrentOp := op, ataTask := some s.currentTask } .ata

def ataAccess (s : State) (op : Op) : State :=
  let waited := { s with diskSem := ksemaphoreWait s.diskSem s.currentTask }
  if mustSleep s.diskSem then taskSleep waited (.diskSem op) else ataIssue waited op

def ataRead (s : State) : State := ataAccess s .read

def ataWrite (s : State) : State := ataAccess s .write

def ataEnd (s : State) : State :=
  let signal := ksemaphoreSignal s.diskSem
  awakeAll { s with diskSem := signal.1 } signal.2.toList

def ataIhandler (s : State) : State :=
  let s := if s.ataCurrentOp = .write then { s with ataCurrentOp := .flush } else s
  match s.ataTask with
  | none => s
  | some task => { taskAwake s task with ataTask := none }

end Disk

section Keyboard

/-- `keyboard_handler` when a line or the end of the input is typed. -/
def keyboardEof (s : State) (line : Str) : State :=
  let s := { s with inputList := s.inputList ++ [line.chars ++ [0]] }
  match s.readerTask with
  | none => s
  | some task => { taskAwake s task with readerTask := none }

def readInput (s : State) (len : ℕ) : Option State :=
  match s.inputList with
  | [] => none
  | input :: rest =>
    let inputLen := strlen input
    let left := if len < inputLen then shift input len (inputLen - len) :: rest else rest
    let signal := ksemaphoreSignal s.stdinLock
    some (awakeAll { s with inputList := left, stdinLock := signal.1 } signal.2.toList)

def readLocked (s : State) (len : ℕ) : Option State :=
  if s.inputList = [] then
    some (taskSleep { s with readerTask := some s.currentTask } (.reader len))
  else readInput s len

def syscallReadStdin (s : State) (len : ℕ) : Option State :=
  let waited := { s with stdinLock := ksemaphoreWait s.stdinLock s.currentTask }
  if mustSleep s.stdinLock then some (taskSleep waited (.stdinLock len)) else readLocked waited len

end Keyboard

section Pipes

def setPipe (s : State) (ptr : ℕ) (pipe : PipeT ℕ) : State := { s with k := withPipe s.k ptr pipe }

def pipeFinish (s : State) (ptr len : ℕ) : Option State :=
  (pipeReadEnd (s.k.objects.pipes ptr) len).map fun next =>
    awakeAll (setPipe s ptr next.1) next.2.1.toList

def pipeRead (s : State) (ptr len : ℕ) : Option State :=
  let pipe := s.k.objects.pipes ptr
  if atEnd pipe then some s
  else
    let waited := setPipe s ptr { pipe with lock := ksemaphoreWait pipe.lock s.currentTask }
    if mustSleep pipe.lock then some (taskSleep waited (.pipe ptr len)) else pipeFinish waited ptr len

def pipeSend (s : State) (ptr : ℕ) (buffer : List UInt8) : State :=
  let next := pipeWrite (s.k.objects.pipes ptr) buffer
  awakeAll (setPipe s ptr next.1) next.2.toList

end Pipes

section Locks

def setLock (s : State) (lock : ℕ) (l : Krwlock ℕ) : State :=
  { s with locks := Function.update s.locks lock l }

def readAcquire (s : State) (lock : ℕ) : State :=
  let next := krwlockReadEnd (s.locks lock)
  awakeAll (setLock s lock next.1) next.2

def krwlockRead (s : State) (lock : ℕ) : State :=
  if readBlocked (s.locks lock) then
    taskSleep (setLock s lock (enqueue (s.locks lock) s.currentTask .read)) (.rwlock lock .read)
  else readAcquire s lock

def writeAcquire (s : State) (lock : ℕ) : State := setLock s lock (krwlockWriteEnd (s.locks lock))

def krwlockWrite (s : State) (lock : ℕ) : State :=
  if writeBlocked (s.locks lock) then
    taskSleep (setLock s lock (enqueue (s.locks lock) s.currentTask .write)) (.rwlock lock .write)
  else writeAcquire s lock

def releaseLock (s : State) (lock : ℕ) : State :=
  let next := krwlockRelease (s.locks lock)
  awakeAll (setLock s lock next.1) next.2

end Locks

section Tasks

def syscallFork (s : State) : Option State :=
  (Syscall.step s.k (s.currentTask, .fork)).map fun k =>
    let forked := taskFork s.tasks s.currentTask
    { setPhase s forked.2 .ready with
      k := k, tasks := forked.1, rrQueue := s.rrQueue ++ [forked.2] }

/-- There is no next state when the parent is a null pointer. -/
def syscallExit (s : State) (statuscode : Int16) : Option State :=
  let task := s.currentTask
  (Syscall.step s.k (task, .exit)).bind fun k =>
    (s.tasks.memory (some task)).parent.map fun parent =>
      let tasks := setTask s.tasks (some task) fun t => { t with exitStatus := statuscode }
      let left := { setPhase s task .exited with k := k, tasks := tasks }
      let p := tasks.memory (some parent)
      let woken := if (p.wait = .pid ∧ p.chwait = some task) ∨ p.wait = .all then
          taskAwake { left with tasks := setTask tasks (some parent) fun t =>
            { t with chwait := some task, wait := .none } } parent
        else left
      taskSwitch woken true

def Zombie (k : Tasks) (task : Ptr) (child : Ptr) : Prop :=
  (k.memory child).parent = task ∧ (k.memory child).exitStatus ≠ -1

instance (k : Tasks) (task child : Ptr) : Decidable (Zombie k task child) :=
  inferInstanceAs (Decidable (_ ∧ _))

/-- The loop of `task_find_zombie` meets a cleared entry. -/
def ScansNull (k : Tasks) (task : Ptr) : Prop :=
  none ∈ k.tasklist.takeWhile fun child => child = none ∨ ¬ Zombie k task child

instance (k : Tasks) (task : Ptr) : Decidable (ScansNull k task) :=
  inferInstanceAs (Decidable (_ ∈ _))

/-- `task_killtask` and the end of the call; `task_orphan_all` reads every entry of the table. -/
def killChild (s : State) (child : ℕ) : Option State :=
  if none ∈ s.tasks.tasklist then none
  else some { s with tasks := taskKilltask s.tasks (some child) }

def reap (s : State) : Option State :=
  (s.tasks.memory (some s.currentTask)).chwait.bind (killChild s)

def syscallWait (s : State) : Option State :=
  let task := s.currentTask
  if ScansNull s.tasks (some task) then none
  else
    match taskFindZombie s.tasks (some task) with
    | none =>
      some (taskSleep { s with tasks := setTask s.tasks (some task) fun t =>
        { t with wait := .all } } .wait)
    | some _ => reap s

def syscallWaitpid (s : State) (childPid : ℕ) : Option State :=
  let task := s.currentTask
  match s.tasks.tasklist[childPid]?.join with
  | none => some s
  | some child =>
    if (s.tasks.memory (some task)).parent ≠ some task then some s
    else if (s.tasks.memory (some child)).exitStatus = -1 then
      some (taskSleep { s with tasks := setTask s.tasks (some task) fun t =>
        { t with wait := .pid, chwait := some child } } (.waitpid child))
    else killChild s child

end Tasks

/-- A read of a file is made of actions on locks and of disk requests. -/
def syscallRead (s : State) (fdId len : ℕ) : Option State :=
  match fdOf s.k s.currentTask fdId with
  | none => some s
  | some fd =>
    if fd.access ||| fdAccessRead = 0 ∨ len = 0 then some s
    else
      match fd.target with
      | .stdin => syscallReadStdin s len
      | .pipe ptr | .mq ptr => pipeRead s ptr len
      | .disk _ | .dir _ => some s
      | .stdout => none

def syscallWrite (s : State) (fdId : ℕ) (buffer : List UInt8) : Option State :=
  match fdOf s.k s.currentTask fdId with
  | none => some s
  | some fd =>
    if fd.access &&& fdAccessWrite = 0 ∨ buffer = [] then some s
    else
      match fd.target with
      | .stdout => some s
      | .pipe ptr | .mq ptr => some (pipeSend s ptr buffer)
      | .disk _ | .dir _ => some s
      | .stdin => none

inductive Request
  | call (c : Call)
  | exit (status : Int16)
  | wait
  | waitpid (childPid : ℕ)
  | read (fdId len : ℕ)
  | write (fdId : ℕ) (buffer : List UInt8)
  | krwlockRead (lock : ℕ)
  | krwlockWrite (lock : ℕ)
  | krwlockRelease (lock : ℕ)
  | ataRead
  | ataWrite

inductive Interrupt
  | timer
  | keyboard (line : Str)
  | ata

/-- What the current task does next, the end of its `task_sleep`, or an interrupt. -/
inductive Action
  | task (r : Request)
  | resume
  | interrupt (i : Interrupt)

def serve (s : State) : Request → Option State
  | .call .fork => syscallFork s
  | .call .exit => none
  | .call c => (Syscall.step s.k (s.currentTask, c)).map fun k => { s with k := k }
  | .exit status => syscallExit s status
  | .wait => syscallWait s
  | .waitpid childPid => syscallWaitpid s childPid
  | .read fdId len => syscallRead s fdId len
  | .write fdId buffer => syscallWrite s fdId buffer
  | .krwlockRead lock => some (krwlockRead s lock)
  | .krwlockWrite lock => some (krwlockWrite s lock)
  | .krwlockRelease lock => some (releaseLock s lock)
  | .ataRead => some (ataRead s)
  | .ataWrite => some (ataWrite s)

def goOn (s : State) : Block → Option State
  | .diskSem op => some (ataIssue s op)
  | .ata => some (ataEnd s)
  | .stdinLock len => readLocked s len
  | .reader len => readInput s len
  | .pipe ptr len => pipeFinish s ptr len
  | .rwlock lock .read => some (readAcquire s lock)
  | .rwlock lock _ => some (writeAcquire s lock)
  | .wait => reap s
  | .waitpid child => killChild s child

def handle (s : State) : Interrupt → State
  | .timer => taskSwitch s false
  | .keyboard line => keyboardEof s line
  | .ata => ataIhandler s

/-- Task 0 makes no requests, and interrupts are off inside the kernel. -/
def step (s : State) : Action → Option State
  | .task r =>
    if s.currentTask ≠ 0 ∧ s.phase s.currentTask = .ready then serve s r else none
  | .resume =>
    match s.phase s.currentTask with
    | .woken b => goOn (setPhase s s.currentTask .ready) b
    | _ => none
  | .interrupt i => if s.phase s.currentTask = .ready then some (handle s i) else none

def registrations (s : State) (t : ℕ) : Place → ℕ
  | .diskSem => s.diskSem.sq.count t
  | .ataTask => s.ataTask.toList.count t
  | .stdinLock => s.stdinLock.sq.count t
  | .readerTask => s.readerTask.toList.count t
  | .pipe ptr =>
    if ptr < s.k.objects.nextPipe ∧ (s.k.objects.pipes ptr).dead = false then
      (s.k.objects.pipes ptr).lock.sq.count t
    else 0
  | .rwlock lock => (s.locks lock).procq.count t
  | .wait => if (s.tasks.memory (some t)).wait = .none then 0 else 1

/-- The queue of a pipe that is gone can wake nobody. -/
structure Scheduled (s : State) : Prop where
  idle : 0 ∈ s.rrQueue
  once : s.rrQueue.Nodup
  head : s.rrQueue.head? = some s.currentTask
  placed : ∀ t < s.tasks.taskCount, s.phase t ≠ .exited → t ∉ s.rrQueue →
    ∃ place, registrations s t place = 1 ∧
      ∀ other, other ≠ place → registrations s t other = 0

end Eedox.Scheduler
