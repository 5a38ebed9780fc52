import Eedox.Fs.References
import Eedox.Syscall

namespace Eedox.WorkingDirectory

open Util Library.Runs Pathbuf Fs Descriptor Syscall

def CwdCall : Call → Prop
  | .setcwd _ | .fork => True
  | _ => False

/-- A descriptor that refers to no inode. -/
def Terminal (fd : Fd) : Prop := fd.target = .stdin ∨ fd.target = .stdout

/-- Between two calls only the root directory is cached, and every task is in a canonical directory. -/
structure Settled (k : Kernel) : Prop where
  canonical : ∀ task ∈ k.tasks, Canonical task.cwd
  counted : ∃ root, Counted k.objects.fs root []
  terminal : ∀ task ∈ k.tasks, ∀ fd ∈ openFds task.table, Terminal fd

variable {k k' : Kernel} {t : ℕ} {task : Task}

theorem cold_of_settled {s : Volume} {root : ℕ} (h : Counted s root []) (pathbuf : PathbufT) :
    Cold s pathbuf 0 := by
  intro p hp j hj hjl he
  obtain rfl : p = root := List.mem_singleton.mp (h.needed p hp)
  rw [h.rootPath] at he
  have hlen := congrArg pathbufLen he
  rw [pathbufLen_upTo hjl] at hlen
  change 0 = j at hlen
  omega

theorem roots_of_settled {s : Volume} {root : ℕ} (h : Counted s root []) : (s.inodes root).refs = 1 := by
  rw [h.balanced.counted root h.root_mem, List.count_singleton_self]

/-- A directory that is opened and closed again leaves only the root cached. -/
theorem counted_openClose {s u : Volume} {root : ℕ} {path : PathbufT} {o : Option ℕ} {res : ℤ}
    {create : Bool} {dir : ℕ} (h : Counted s root []) (hpath : Rooted path)
    (hopen : fsOpen s path create false dir false = some (u, o, res)) :
    Counted (fsClose u o) root [] := by
  have hroom : (s.inodes root).refs + 1 < 2 ^ 32 := by
    rw [roots_of_settled h]
    omega
  have hopened := counted_fsOpen h hpath (cold_of_settled h path) hroom hopen
  cases o with
  | none => exact hopened.1
  | some node => exact counted_fsClose hopened.1

theorem settled_setcwd {address : Str} (h : Settled k) (ht : k.tasks[t]? = some task)
    (hp : perform k t task (.setcwd address) = some k') : Settled k' := by
  obtain ⟨root, hroot⟩ := h.counted
  have htask := List.mem_of_getElem? ht
  have hcwd := canonical_resolvePath (h.canonical task htask) address
  obtain ⟨⟨_, reply⟩, hr, rfl⟩ := Option.map_eq_some_iff.mp hp
  obtain ⟨⟨fs, dir, res⟩, hopen, hr⟩ := Option.map_eq_some_iff.mp hr
  have hcounted := counted_openClose hroot hcwd.1 hopen
  simp only at hr
  split_ifs at hr
  · cases hr
    exact ⟨h.canonical, ⟨root, hcounted⟩, h.terminal⟩
  · cases hr
    refine ⟨?_, ⟨root, hcounted⟩, ?_⟩
    · intro other hother
      rcases List.mem_or_eq_of_mem_set hother with hother | rfl
      · exact h.canonical other hother
      · exact hcwd
    · intro other hother fd hfd
      rcases List.mem_or_eq_of_mem_set hother with hother | rfl
      · exact h.terminal other hother fd hfd
      · exact h.terminal task htask fd hfd

theorem cloneEntries_eq {fds : List Fd} (h : ∀ fd ∈ fds, Terminal fd) (o : Objects) :
    fds.foldl fdTableCloneEntry o = o := by
  induction fds generalizing o with
  | nil => rfl
  | cons fd fds ih =>
    have hfd : fdTableCloneEntry o fd = o := by
      unfold fdTableCloneEntry
      rcases h fd List.mem_cons_self with he | he <;> rw [he]
    rw [List.foldl_cons, hfd]
    exact ih (fun fd hm => h fd (List.mem_cons_of_mem _ hm)) o

theorem settled_fork (h : Settled k) (ht : k.tasks[t]? = some task)
    (hp : perform k t task .fork = some k') : Settled k' := by
  have htask := List.mem_of_getElem? ht
  obtain ⟨hobjects, hfds⟩ := fdTableClone_eq k.unset k.objects task.table
  rw [cloneEntries_eq (h.terminal task htask)] at hobjects
  obtain rfl := Option.some.inj hp
  refine ⟨?_, ?_, ?_⟩
  · intro other hother
    rcases List.mem_append.mp hother with hother | hother
    · exact h.canonical other hother
    · rw [List.mem_singleton.mp hother]
      exact h.canonical task htask
  · change ∃ root, Counted (fdTableClone k.unset k.objects task.table).1.fs root []
    rw [hobjects]
    exact h.counted
  · intro other hother fd hfd
    rcases List.mem_append.mp hother with hother | hother
    · exact h.terminal other hother fd hfd
    · rw [List.mem_singleton.mp hother] at hfd
      change fd ∈ openFds (fdTableClone k.unset k.objects task.table).2 at hfd
      rw [hfds] at hfd
      exact h.terminal task htask fd hfd

theorem settled_step {c : Call} (h : Settled k) (hc : CwdCall c) (hs : step k (t, c) = some k') :
    Settled k' := by
  obtain ⟨task, ht, hp, -⟩ := step_eq_some.mp hs
  cases c with
  | setcwd address => exact settled_setcwd h ht hp
  | fork => exact settled_fork h ht hp
  | «open» | opendir | mkdir | stat | exec | close | dup | exit | pipe | mqopen => cases hc

theorem settled_boot {objects : Objects} {unset : Fd} (hfreed : objects.fs.freed = []) :
    Settled (boot objects unset) := by
  refine ⟨?_, counted_fsInit objects.fs hfreed, ?_⟩
  · intro task htask
    rw [List.mem_singleton.mp htask]
    exact canonical_root
  · intro task htask fd hfd
    rw [List.mem_singleton.mp htask] at hfd
    rcases List.mem_cons.mp hfd with rfl | hfd
    · exact Or.inl rfl
    · rw [List.mem_singleton.mp hfd]
      exact Or.inr rfl

theorem settled_exec {run : List (ℕ × Call)} (h : Settled k) (hcalls : ∀ c ∈ run, CwdCall c.2)
    (hrun : exec step k run = some k') : Settled k' := by
  induction run generalizing k with
  | nil =>
    obtain rfl := Option.some.inj hrun
    exact h
  | cons c run ih =>
    obtain ⟨u, hu, hrest⟩ := exec_cons.mp hrun
    exact ih (settled_step h (hcalls c List.mem_cons_self) hu)
      (fun c hc => hcalls c (List.mem_cons_of_mem _ hc)) hrest

/-- Every path that a task can name leads to a walk that ends after one test of the loop for each field
and one more. -/
theorem resolves_exec {objects : Objects} {unset : Fd} {run : List (ℕ × Call)}
    (hfreed : objects.fs.freed = []) (hcalls : ∀ c ∈ run, CwdCall c.2)
    (hrun : exec step (boot objects unset) run = some k) :
    (∀ task ∈ k.tasks, Canonical task.cwd ∧
      ∀ address, Canonical (resolvePath task.cwd (pathbufParse address))) ∧
    RootCached k.objects.fs ∧
    (∀ t task address, k.tasks[t]? = some task → ∃ r, syscallSetcwd k t task address = some r) ∧
    ∀ (s : Volume) (path : PathbufT), RootCached s → Canonical path → ∃ u root r,
      fsNodeRoot s = some (u, root) ∧ walk path (pathbufLen path + 1) u root [] = some r := by
  have h := settled_exec (settled_boot hfreed) hcalls hrun
  obtain ⟨root, hroot⟩ := h.counted
  refine ⟨?_, hroot.rootCached, ?_, ?_⟩
  · intro task htask
    exact ⟨h.canonical task htask, canonical_resolvePath (h.canonical task htask)⟩
  · intro t task address ht
    have hcwd := canonical_resolvePath (h.canonical task (List.mem_of_getElem? ht)) address
    obtain ⟨r, hopen⟩ := fsOpen_total hroot.rootCached hcwd.1 false 1 false
    unfold syscallSetcwd
    simp only
    rw [hopen]
    exact ⟨_, rfl⟩
  · intro s path hs hpath
    exact rootWalk_total hs hpath.1

/-- A child of the first task goes to `..` and then to a directory that does not exist. -/
def wanderRun : List (ℕ × Call) :=
  [(0, .fork), (1, .setcwd ⟨[46, 46], by decide⟩), (1, .setcwd ⟨[97], nul_a⟩)]

theorem resolves_after_fork : ∃ k, exec step (boot blankObjects blankFd) wanderRun = some k ∧
    ∀ task ∈ k.tasks, Canonical task.cwd := by
  obtain ⟨k, hk⟩ := Option.isSome_iff_exists.mp
    (by decide +kernel : (exec step (boot blankObjects blankFd) wanderRun).isSome = true)
  have hcalls : ∀ c ∈ wanderRun, CwdCall c.2 := by
    intro c hc
    simp only [wanderRun, List.mem_cons, List.not_mem_nil, or_false] at hc
    rcases hc with rfl | rfl | rfl <;> trivial
  exact ⟨k, hk, fun task htask => ((resolves_exec rfl hcalls hk).1 task htask).1⟩

end Eedox.WorkingDirectory
