import Eedox.Library.Turns
import Eedox.RunQueue

namespace Eedox.BoundedWaiting

open Library.Runs Library.Turns Scheduler RunQueue Semaphore Pipe Descriptor TaskTable
open EndOfFile (fdOf)

variable {s s' : State}

theorem awakeAll_moves (s : State) (ts : List ℕ) : Moves s.rrQueue (awakeAll s ts).rrQueue := by
  rw [awakeAll_eq]
  exact moves_append s.rrQueue ts

theorem taskSwitch_moves (s : State) (sleep : Bool) : Moves s.rrQueue (taskSwitch s sleep).rrQueue := by
  unfold taskSwitch
  split
  · rename_i curtask nextask rest hq
    cases sleep
    · rw [hq]
      exact moves_tail _ [curtask]
    · rw [hq]
      exact ⟨1, le_rfl, [], (List.append_nil _).symm⟩
  · exact moves_refl _

theorem taskSleep_moves (s : State) (b : Block) : Moves s.rrQueue (taskSleep s b).rrQueue := by
  unfold taskSleep
  split_ifs
  · exact moves_refl _
  · exact taskSwitch_moves (setPhase s s.currentTask (.asleep b)) true

/-- What is left to the run queue by the actions of a task on the locks. -/
theorem locks_moves (s : State) (lock : ℕ) :
    Moves s.rrQueue (krwlockRead s lock).rrQueue ∧ Moves s.rrQueue (krwlockWrite s lock).rrQueue ∧
      Moves s.rrQueue (releaseLock s lock).rrQueue := by
  refine ⟨?_, ?_, awakeAll_moves (setLock s lock _) _⟩
  · unfold krwlockRead
    split_ifs
    · exact taskSleep_moves (setLock s lock _) _
    · exact awakeAll_moves (setLock s lock _) _
  · unfold krwlockWrite
    split_ifs
    · exact taskSleep_moves (setLock s lock _) _
    · exact moves_refl _

theorem ataAccess_moves (s : State) (op : DiskInterrupts.Op) : Moves s.rrQueue (ataAccess s op).rrQueue := by
  unfold ataAccess
  simp only
  split_ifs
  · exact taskSleep_moves { s with diskSem := ksemaphoreWait s.diskSem s.currentTask } _
  · exact taskSleep_moves { s with
      diskSem := ksemaphoreWait s.diskSem s.currentTask, ataCurrentOp := op, ataTask := some s.currentTask } _

theorem readInput_moves {len : ℕ} (h : readInput s len = some s') : Moves s.rrQueue s'.rrQueue := by
  unfold readInput at h
  cases hl : s.inputList with
  | nil =>
    rw [hl] at h
    cases h
  | cons input rest =>
    rw [hl] at h
    obtain rfl := Option.some.inj h
    exact awakeAll_moves { s with inputList := _, stdinLock := _ } _

theorem readLocked_moves {len : ℕ} (h : readLocked s len = some s') : Moves s.rrQueue s'.rrQueue := by
  unfold readLocked at h
  split_ifs at h
  · obtain rfl := Option.some.inj h
    exact taskSleep_moves { s with readerTask := some s.currentTask } _
  · exact readInput_moves h

theorem syscallReadStdin_moves {len : ℕ} (h : syscallReadStdin s len = some s') :
    Moves s.rrQueue s'.rrQueue := by
  unfold syscallReadStdin at h
  simp only at h
  split_ifs at h
  · obtain rfl := Option.some.inj h
    exact taskSleep_moves { s with stdinLock := ksemaphoreWait s.stdinLock s.currentTask } _
  · exact readLocked_moves (s := { s with stdinLock := ksemaphoreWait s.stdinLock s.currentTask }) h

theorem pipeFinish_moves {ptr len : ℕ} (h : pipeFinish s ptr len = some s') : Moves s.rrQueue s'.rrQueue := by
  obtain ⟨next, -, rfl⟩ := Option.map_eq_some_iff.mp h
  exact awakeAll_moves (setPipe s ptr next.1) _

theorem pipeRead_moves {ptr len : ℕ} (h : pipeRead s ptr len = some s') : Moves s.rrQueue s'.rrQueue := by
  unfold pipeRead at h
  simp only at h
  split_ifs at h
  · obtain rfl := Option.some.inj h
    exact moves_refl _
  · obtain rfl := Option.some.inj h
    exact taskSleep_moves (setPipe s ptr _) _
  · exact pipeFinish_moves (s := setPipe s ptr _) h

theorem syscallRead_moves {fdId len : ℕ} (h : syscallRead s fdId len = some s') :
    Moves s.rrQueue s'.rrQueue := by
  unfold syscallRead at h
  cases hfd : fdOf s.k s.currentTask fdId with
  | none =>
    rw [hfd] at h
    obtain rfl := Option.some.inj h
    exact moves_refl _
  | some fd =>
    rw [hfd] at h
    simp only at h
    split_ifs at h
    · obtain rfl := Option.some.inj h
      exact moves_refl _
    · cases ht : fd.target with
      | stdin => exact syscallReadStdin_moves (by rwa [ht] at h)
      | pipe ptr => exact pipeRead_moves (by rwa [ht] at h)
      | mq ptr => exact pipeRead_moves (by rwa [ht] at h)
      | disk node =>
        rw [ht] at h
        obtain rfl := Option.some.inj h
        exact moves_refl _
      | dir node =>
        rw [ht] at h
        obtain rfl := Option.some.inj h
        exact moves_refl _
      | stdout =>
        rw [ht] at h
        cases h

theorem syscallWrite_moves {fdId : ℕ} {buffer : List UInt8} (h : syscallWrite s fdId buffer = some s') :
    Moves s.rrQueue s'.rrQueue := by
  have hpipe (ptr : ℕ) : Moves s.rrQueue (pipeSend s ptr buffer).rrQueue := awakeAll_moves (setPipe s ptr _) _
  unfold syscallWrite at h
  cases hfd : fdOf s.k s.currentTask fdId with
  | none =>
    rw [hfd] at h
    obtain rfl := Option.some.inj h
    exact moves_refl _
  | some fd =>
    rw [hfd] at h
    simp only at h
    split_ifs at h
    · obtain rfl := Option.some.inj h
      exact moves_refl _
    · cases ht : fd.target with
      | stdin =>
        rw [ht] at h
        cases h
      | pipe ptr =>
        rw [ht] at h
        obtain rfl := Option.some.inj h
        exact hpipe ptr
      | mq ptr =>
        rw [ht] at h
        obtain rfl := Option.some.inj h
        exact hpipe ptr
      | disk node =>
        rw [ht] at h
        obtain rfl := Option.some.inj h
        exact moves_refl _
      | dir node =>
        rw [ht] at h
        obtain rfl := Option.some.inj h
        exact moves_refl _
      | stdout =>
        rw [ht] at h
        obtain rfl := Option.some.inj h
        exact moves_refl _

theorem syscallFork_moves (h : syscallFork s = some s') : Moves s.rrQueue s'.rrQueue := by
  obtain ⟨k, -, rfl⟩ := Option.map_eq_some_iff.mp h
  exact moves_append _ _

/-- The parent of a task that exits comes to the end before the task leaves the head. -/
theorem syscallExit_moves {status : Int16} (hq : s.rrQueue ≠ []) (h : syscallExit s status = some s') :
    Moves s.rrQueue s'.rrQueue := by
  obtain ⟨k, -, h⟩ := Option.bind_eq_some_iff.mp h
  obtain ⟨parent, -, rfl⟩ := Option.map_eq_some_iff.mp h
  simp only
  split_ifs
  · refine Moves.after_append [parent] ?_ hq
    exact taskSwitch_moves (taskAwake _ parent) true
  · exact taskSwitch_moves { setPhase s s.currentTask .exited with k := k, tasks := _ } true

theorem killChild_moves {child : ℕ} (h : killChild s child = some s') : Moves s.rrQueue s'.rrQueue := by
  unfold killChild at h
  split_ifs at h
  obtain rfl := Option.some.inj h
  exact moves_refl _

theorem reap_moves (h : reap s = some s') : Moves s.rrQueue s'.rrQueue := by
  obtain ⟨child, -, h⟩ := Option.bind_eq_some_iff.mp h
  exact killChild_moves h

theorem syscallWait_moves (h : syscallWait s = some s') : Moves s.rrQueue s'.rrQueue := by
  unfold syscallWait at h
  simp only at h
  split_ifs at h
  split at h
  · obtain rfl := Option.some.inj h
    exact taskSleep_moves { s with tasks := _ } _
  · exact reap_moves h

theorem syscallWaitpid_moves {childPid : ℕ} (h : syscallWaitpid s childPid = some s') :
    Moves s.rrQueue s'.rrQueue := by
  unfold syscallWaitpid at h
  simp only at h
  split at h
  · obtain rfl := Option.some.inj h
    exact moves_refl _
  · split_ifs at h
    · obtain rfl := Option.some.inj h
      exact moves_refl _
    · obtain rfl := Option.some.inj h
      exact taskSleep_moves { s with tasks := _ } _
    · exact killChild_moves h

theorem serve_moves {r : Request} (hq : s.rrQueue ≠ []) (h : serve s r = some s') :
    Moves s.rrQueue s'.rrQueue := by
  cases r with
  | call c =>
    have hother (he : serve s (.call c) =
        (Syscall.step s.k (s.currentTask, c)).map fun k => { s with k := k }) : Moves s.rrQueue s'.rrQueue := by
      rw [he] at h
      obtain ⟨k, -, rfl⟩ := Option.map_eq_some_iff.mp h
      exact moves_refl _
    cases c with
    | fork => exact syscallFork_moves h
    | exit => cases h
    | _ => exact hother rfl
  | exit status => exact syscallExit_moves hq h
  | wait => exact syscallWait_moves h
  | waitpid childPid => exact syscallWaitpid_moves h
  | read fdId len => exact syscallRead_moves h
  | write fdId buffer => exact syscallWrite_moves h
  | krwlockRead lock =>
    obtain rfl := Option.some.inj h
    exact (locks_moves s lock).1
  | krwlockWrite lock =>
    obtain rfl := Option.some.inj h
    exact (locks_moves s lock).2.1
  | krwlockRelease lock =>
    obtain rfl := Option.some.inj h
    exact (locks_moves s lock).2.2
  | ataRead =>
    obtain rfl := Option.some.inj h
    exact ataAccess_moves s _
  | ataWrite =>
    obtain rfl := Option.some.inj h
    exact ataAccess_moves s _

theorem goOn_moves {b : Block} (h : goOn s b = some s') : Moves s.rrQueue s'.rrQueue := by
  cases b with
  | diskSem op =>
    obtain rfl := Option.some.inj h
    exact taskSleep_moves { s with ataCurrentOp := op, ataTask := some s.currentTask } _
  | ata =>
    obtain rfl := Option.some.inj h
    exact awakeAll_moves { s with diskSem := _ } _
  | stdinLock len => exact readLocked_moves h
  | reader len => exact readInput_moves h
  | pipe ptr len => exact pipeFinish_moves h
  | rwlock lock op =>
    cases op with
    | read =>
      obtain rfl := Option.some.inj h
      exact awakeAll_moves (setLock s lock _) _
    | write =>
      obtain rfl := Option.some.inj h
      exact moves_refl _
    | none =>
      obtain rfl := Option.some.inj h
      exact moves_refl _
  | wait => exact reap_moves h
  | waitpid child => exact killChild_moves h

theorem handle_moves (s : State) (i : Interrupt) : Moves s.rrQueue (handle s i).rrQueue := by
  cases i with
  | timer => exact taskSwitch_moves s false
  | keyboard line =>
    unfold handle keyboardEof
    simp only
    split
    · exact moves_refl _
    · rename_i task _
      exact moves_append s.rrQueue [task]
  | ata =>
    unfold handle ataIhandler
    simp only
    split_ifs
    · split
      · exact moves_refl _
      · rename_i task _
        exact moves_append s.rrQueue [task]
    · split
      · exact moves_refl _
      · rename_i task _
        exact moves_append s.rrQueue [task]

theorem step_moves {a : Action} (hq : s.rrQueue ≠ []) (h : step s a = some s') :
    Moves s.rrQueue s'.rrQueue := by
  cases a with
  | task r => exact serve_moves hq (Option.ite_none_right_eq_some.mp h).2
  | resume =>
    simp only [step] at h
    split at h
    · exact goOn_moves (s := setPhase s s.currentTask .ready) h
    · cases h
  | interrupt i =>
    obtain ⟨-, h⟩ := Option.ite_none_right_eq_some.mp h
    obtain rfl := Option.some.inj h
    exact handle_moves s i

def isTimer : Action → Bool
  | .interrupt .timer => true
  | _ => false

theorem timer_turns {a : Action} (ha : isTimer a = true) (h : step s a = some s')
    (hlen : 1 < s.rrQueue.length) : ∃ extra, s'.rrQueue = s.rrQueue.tail ++ extra := by
  obtain rfl : a = .interrupt .timer := by
    cases a with
    | interrupt i =>
      cases i with
      | timer => rfl
      | _ => cases ha
    | _ => cases ha
  obtain ⟨-, h⟩ := Option.ite_none_right_eq_some.mp h
  obtain rfl := Option.some.inj h
  unfold handle taskSwitch
  match hq : s.rrQueue with
  | [] => simp [hq] at hlen
  | [a] => simp [hq] at hlen
  | a :: next :: rest => exact ⟨[a], rfl⟩

theorem turning : Turning step State.rrQueue isTimer Inv where
  preserve := fun _ _ _ h hs => inv_step h hs
  moves := fun s a t h hs => by
    apply step_moves (a := a) _ hs
    exact List.ne_nil_of_mem h.run.zero_mem
  turns := fun _ _ _ _ ha hs hlen => timer_turns ha hs hlen

/-- In every run, a task in the run queue has the processor before the timer has ticked more often than tasks
were before it. -/
theorem turn_comes (objects : Objects) (unset : Fd) (low : TaskT) (before after : List Action) (s s' : State)
    (t i : ℕ) (hs : exec step (init objects unset low) before = some s) (ht : s.rrQueue[i]? = some t)
    (hs' : exec step s after = some s') (hticks : i ≤ after.countP isTimer) :
    ∃ bs u, bs <+: after ∧ bs.countP isTimer ≤ i ∧ exec step s bs = some u ∧ u.currentTask = t := by
  have hinv := inv_exec (inv_init objects unset low) hs
  obtain ⟨bs, u, hb, hc, hu, hhead⟩ := turning.served hinv ht hs' hticks
  refine ⟨bs, u, hb, hc, hu, ?_⟩
  have hcur := (inv_exec hinv hu).run.head
  exact Option.some.inj (hcur.symm.trans hhead)

/-- Task 1 forks task 2 and waits; the idle task and task 2 come next. -/
theorem turn_of_child : ∃ s, exec step (init Syscall.blankObjects Syscall.blankFd ⟨0, none, 0, none, .none⟩)
      [.interrupt .timer, .task (.call .fork)] = some s ∧ s.rrQueue = [1, 0, 2] ∧
    ∃ bs u, bs <+: [.task .wait, .interrupt .timer, .interrupt .timer] ∧ bs.countP isTimer ≤ 2 ∧
      exec step s bs = some u ∧ u.currentTask = 2 :=
  ⟨_, rfl, rfl, turn_comes Syscall.blankObjects Syscall.blankFd ⟨0, none, 0, none, .none⟩
    [.interrupt .timer, .task (.call .fork)] [.task .wait, .interrupt .timer, .interrupt .timer] _ _ 2 2 rfl rfl
    rfl (by decide)⟩

end Eedox.BoundedWaiting
