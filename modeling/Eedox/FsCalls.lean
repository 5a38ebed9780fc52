import Eedox.Library.Runs
import Eedox.ReaderWriterLock
import Eedox.Fs.Bookkept

namespace Eedox.FsCalls

open Library.Runs Ata Pathbuf Fs
open ReaderWriterLock (Krwlock krwlockInit readBlocked writeBlocked enqueue krwlockReadEnd
  krwlockWriteEnd krwlockRelease)

/-- What `fs_open`, `fs_write` and `fs_read` or `fs_readdir` do under the locks. -/
inductive Work
  | opened (o : Opened)
  | write (node : ℕ) (parent : Option ℕ)
  | read (node : ℕ)

/-- The inodes that are locked, in the order of locking. -/
def Work.nodes : Work → List ℕ
  | .opened o => o.gparent.toList ++ (o.parent.toList ++ [o.node])
  | .write node parent => parent.toList ++ [node]
  | .read node => [node]

def Work.operation : Work → ReaderWriterLock.Operation
  | .read _ => .read
  | _ => .write

/-- Where a task is in its call: at the head of the loop of `fs_node_open`, at its lock, at the first
lock of `fs_node_child`, at the fetch of a new child, at the locks of the call itself, with those taken
and those still to be taken, or under them. -/
inductive Point
  | idle
  | compare (pathbuf : PathbufT) (ptr : ℕ) (loaded : List ℕ)
  | walkLock (pathbuf : PathbufT) (ptr : ℕ) (loaded : List ℕ)
  | childLock (pathbuf : PathbufT) (node : ℕ) (path : PathbufT) (loaded : List ℕ)
  | childFetch (pathbuf : PathbufT) (node child : ℕ) (loaded : List ℕ)
  | lock (held todo : List ℕ) (w : Work)
  | work (w : Work)

inductive Sleep
  | awake
  | asleep
  | woken
  deriving DecidableEq

def Sleep.awaken : Sleep → Sleep
  | .asleep => .woken
  | z => z

/-- The calls are not interrupted: one task runs until it sleeps or returns. `taken` and `given` are the
locks that a task's last call has acquired and released so far. -/
structure State (T : Type) where
  volume : Volume
  locks : ℕ → Krwlock T
  point : T → Point
  sleep : T → Sleep
  running : Option T
  taken : T → List ℕ
  given : T → List ℕ

inductive Call
  | opened (pathbuf : PathbufT)
  | close (node : Option ℕ)
  | write (node : ℕ)
  | read (node : ℕ)
  | readdir (node : ℕ)

/-- What an operation has left on the disk and in the headers of the inodes. -/
structure Effect where
  disk : Disk
  ballocPtr : ℕ
  header : ℕ → Header

def Effect.apply (e : Effect) (v : Volume) : Volume :=
  { v with
    disk := e.disk
    ballocPtr := e.ballocPtr
    inodes := fun p => { v.inodes p with toHeader := e.header p } }

/-- A call, a switch to a task, its next piece of code, a sleep at a disk access, and the code after the
last disk access. `address` is where `kmalloc` places a new inode. -/
inductive Action (T : Type)
  | call (t : T) (c : Call)
  | dispatch (t : T)
  | go (t : T) (address : ℕ)
  | disk (t : T) (e : Effect)
  | finish (t : T) (e : Effect)

section Step

variable {T : Type} [DecidableEq T]

def awaken (sleep : T → Sleep) (ts : List T) : T → Sleep :=
  fun u => if u ∈ ts then (sleep u).awaken else sleep u

def goto (s : State T) (t : T) (point : Point) : State T :=
  { s with point := Function.update s.point t point }

def leave (s : State T) (t : T) : State T := { goto s t .idle with running := none }

def blocked (l : Krwlock T) : ReaderWriterLock.Operation → Bool
  | .read => readBlocked l
  | _ => writeBlocked l

def mustWait (s : State T) (t : T) (op : ReaderWriterLock.Operation) (node : ℕ) : Bool :=
  s.sleep t ≠ .woken && blocked (s.locks node) op

def suspend (s : State T) (t : T) (op : ReaderWriterLock.Operation) (node : ℕ) : State T :=
  { s with
    locks := Function.update s.locks node (enqueue (s.locks node) t op)
    sleep := Function.update s.sleep t .asleep
    running := none }

def grant (s : State T) (t : T) (op : ReaderWriterLock.Operation) (node : ℕ) : State T :=
  let next := match op with
    | .read => krwlockReadEnd (s.locks node)
    | _ => (krwlockWriteEnd (s.locks node), [])
  { s with
    locks := Function.update s.locks node next.1
    sleep := awaken (Function.update s.sleep t .awake) next.2
    taken := Function.update s.taken t (s.taken t ++ [node]) }

def release (s : State T) (t : T) (node : ℕ) : State T :=
  let next := krwlockRelease (s.locks node)
  { s with
    locks := Function.update s.locks node next.1
    sleep := awaken s.sleep next.2
    given := Function.update s.given t (s.given t ++ [node]) }

def fsNodeUnlock (s : State T) (t : T) (nodes : List ℕ) : State T :=
  nodes.foldl (fun s node => release s t node) s

def closeAll (v : Volume) (nodes : List ℕ) : Volume :=
  nodes.foldl (fun v node => fsNodeClose v (some node)) v

/-- `fs_node_child` up to its lock. -/
def fsNodeChild (s : State T) (t : T) (pathbuf : PathbufT) (node : ℕ) (name : Util.Str)
    (loaded : List ℕ) : State T :=
  let path := pathbufChild (s.volume.inodes node).pathbuf name
  match inodelistGet s.volume path with
  | some child => goto s t (.compare pathbuf child loaded)
  | none => goto s t (.childLock pathbuf node path loaded)

/-- `fs_node_child` with the lock of `node`. The lock of a new inode is free. -/
def fsNodeChildLocked (s : State T) (t : T) (pathbuf : PathbufT) (node : ℕ) (path : PathbufT)
    (loaded : List ℕ) (address : ℕ) : Option (State T) :=
  match inodelistGet s.volume path with
  | some child => some (goto s t (.compare pathbuf child loaded))
  | none =>
    if address ∈ s.volume.inodelist then none
    else
      let s := { s with
        volume := inodeNew { s.volume with nextInode := address } path
        locks := Function.update s.locks address krwlockInit }
      some (goto (grant s t .write address) t (.childFetch pathbuf node address loaded))

/-- The loop of `fs_node_open` with the lock of `ptr`. -/
def walkLocked (s : State T) (t : T) (pathbuf : PathbufT) (ptr : ℕ) (loaded : List ℕ) :
    Option (State T) :=
  let loaded := loaded ++ [ptr]
  let n := s.volume.inodes ptr
  let s := release s t ptr
  if n.isvalid = 0 ∨ n.type = inodeTypeFile then
    some (leave { s with volume := closeAll s.volume loaded } t)
  else
    match pathbuf.fields[pathbufLen n.pathbuf]? with
    | none => none
    | some nextField => some (fsNodeChild s t pathbuf ptr nextField loaded)

/-- The head of the loop of `fs_node_open`, and what follows the loop when the path is found. -/
def walkHead (s : State T) (t : T) (pathbuf : PathbufT) (ptr : ℕ) (loaded : List ℕ) : State T :=
  if pathbufCmp (s.volume.inodes ptr).pathbuf pathbuf then
    let w := Work.opened ⟨ptr, loaded.getLast?, loaded.dropLast.getLast?⟩
    goto { s with volume := closeAll s.volume loaded.dropLast.dropLast } t (.lock [] w.nodes w)
  else goto s t (.walkLock pathbuf ptr loaded)

/-- The end of a call that has locked its inodes. -/
def unlocked (s : State T) (t : T) : Work → State T
  | .opened o =>
    let s := { s with volume := setInode s.volume o.node fun n => { n with parent := o.parent } }
    let s := fsNodeUnlock s t (Work.opened o).nodes
    { s with volume := fsNodeClose s.volume o.gparent }
  | w => fsNodeUnlock s t w.nodes

def enter (s : State T) (t : T) (point : Point) : State T :=
  { goto s t point with
    running := some t
    taken := Function.update s.taken t []
    given := Function.update s.given t [] }

def call (s : State T) (t : T) : Call → Option (State T)
  | .opened pathbuf => (fsNodeRoot s.volume).map fun r =>
      { enter s t (.compare pathbuf r.2 []) with volume := r.1 }
  | .close node => some { leave (enter s t .idle) t with volume := fsClose s.volume node }
  | .write node =>
    let w := Work.write node (s.volume.inodes node).parent
    some (enter s t (.lock [] w.nodes w))
  | .read node | .readdir node => some (enter s t (.lock [] [node] (.read node)))

def go (s : State T) (t : T) (address : ℕ) : Option (State T) :=
  match s.point t with
  | .compare pathbuf ptr loaded => some (walkHead s t pathbuf ptr loaded)
  | .walkLock pathbuf ptr loaded =>
    if mustWait s t .read ptr then some (suspend s t .read ptr)
    else walkLocked (grant s t .read ptr) t pathbuf ptr loaded
  | .childLock pathbuf node path loaded =>
    if mustWait s t .read node then some (suspend s t .read node)
    else fsNodeChildLocked (grant s t .read node) t pathbuf node path loaded address
  | .lock _ [] w => some (goto s t (.work w))
  | .lock held (node :: todo) w =>
    if mustWait s t w.operation node then some (suspend s t w.operation node)
    else some (goto (grant s t w.operation node) t (.lock (held ++ [node]) todo w))
  | _ => none

def disk (s : State T) (t : T) (e : Effect) : Option (State T) :=
  match s.point t with
  | .childFetch _ _ _ _ => some { s with running := none }
  | .work _ => some { s with volume := e.apply s.volume, running := none }
  | _ => none

def finish (s : State T) (t : T) (e : Effect) : Option (State T) :=
  match s.point t with
  | .childFetch pathbuf node child loaded =>
    let s := { s with volume := setInode s.volume child fun n => { n with toHeader := e.header child } }
    some (goto (release (release s t node) t child) t (.compare pathbuf child loaded))
  | .work w => some (leave (unlocked { s with volume := e.apply s.volume } t w) t)
  | _ => none

def step (s : State T) : Action T → Option (State T)
  | .call t c =>
    match s.running, s.point t with
    | none, .idle => call s t c
    | _, _ => none
  | .dispatch t =>
    match s.running, s.point t with
    | none, .idle => none
    | none, _ => if s.sleep t = .asleep then none else some { s with running := some t }
    | _, _ => none
  | .go t address => if s.running = some t then go s t address else none
  | .disk t e => if s.running = some t then disk s t e else none
  | .finish t e => if s.running = some t then finish s t e else none

/-- No task is in a call, and no lock of an inode is in use. -/
def init (T : Type) (v : Volume) : State T :=
  ⟨v, fun _ => krwlockInit, fun _ => .idle, fun _ => .awake, none, fun _ => [], fun _ => []⟩

@[simp] theorem grant_volume (s : State T) (t : T) (op : ReaderWriterLock.Operation) (node : ℕ) :
    (grant s t op node).volume = s.volume := rfl

@[simp] theorem release_volume (s : State T) (t : T) (node : ℕ) : (release s t node).volume = s.volume := rfl

@[simp] theorem fsNodeUnlock_volume (s : State T) (t : T) (nodes : List ℕ) :
    (fsNodeUnlock s t nodes).volume = s.volume := by
  unfold fsNodeUnlock
  induction nodes generalizing s with
  | nil => rfl
  | cons node nodes ih => exact ih _

end Step

/-- What an operation of the file system does to a volume is an effect. -/
theorem effect_of_bookkept {v w : Volume} (h : Bookkept v w) : ∃ e : Effect,
    (e.apply v).inodes = w.inodes ∧ (e.apply v).disk = w.disk ∧ (e.apply v).ballocPtr = w.ballocPtr ∧
      (e.apply v).inodelist = w.inodelist := by
  refine ⟨⟨w.disk, w.ballocPtr, fun p => (w.inodes p).toHeader⟩, ?_, rfl, rfl, h.inodelist.symm⟩
  funext p
  have he : w.inodes p = ⟨(w.inodes p).toHeader, (w.inodes p).refs, (w.inodes p).pathbuf,
      (w.inodes p).parent⟩ := rfl
  rw [he, h.refs, h.pathbuf, h.parent]
  rfl

/-- The branches of `fs_open` under the locks. -/
theorem effect_of_open {v w : Volume} {o : Opened} {pathbuf : PathbufT} {create truncate unlink : Bool}
    {dir : ℕ} {result : ℤ} (h : openMissing v pathbuf create dir o = some (w, result) ∨
      openExisting v truncate dir unlink o = (w, result)) : ∃ e : Effect,
    (e.apply v).inodes = w.inodes ∧ (e.apply v).disk = w.disk ∧ (e.apply v).ballocPtr = w.ballocPtr ∧
      (e.apply v).inodelist = w.inodelist := by
  apply effect_of_bookkept
  rcases h with h | h
  · exact bookkept_openMissing h
  · have hb := bookkept_openExisting v truncate dir unlink o
    rwa [h] at hb

/-- A disk that nothing has been written to. -/
def blankVolume : Volume where
  disk := fun _ _ => 0
  ballocPtr := 0
  inodes := fun _ => ⟨⟨0, 0, 0, 0, 0, 0⟩, 0, pathbufRoot, none⟩
  inodelist := []
  nextInode := 0
  freed := []
  junk := fun _ => 0
  tail := fun _ _ => 0
  stray := ⟨[], Util.nul_nil⟩

end Eedox.FsCalls
