import Eedox.FsCalls

namespace Eedox.LockBalance

open Library.Runs Ata Pathbuf Fs FsCalls

/-- The locks that the code relies on at a point. -/
def held : Point → List ℕ
  | .childFetch _ node child _ => [node, child]
  | .lock held _ _ => held
  | .work w => w.nodes
  | _ => []

/-- A task whose call has returned, or whose call of `fs_node_root` or `fs_node_child` has. -/
def Returned : Point → Prop
  | .idle | .compare _ _ _ => True
  | _ => False

instance : DecidablePred Returned := fun point =>
  match point with
  | .idle | .compare _ _ _ => isTrue trivial
  | .walkLock _ _ _ | .childLock _ _ _ _ | .childFetch _ _ _ _ | .lock _ _ _ | .work _ => isFalse id

section Step

variable {T : Type}

/-- A function that has returned has released each lock as often as it has acquired it. -/
def Balanced (s : State T) : Prop :=
  ∀ t, Returned (s.point t) → ∀ p, (s.taken t).count p = (s.given t).count p

variable [DecidableEq T]

/-- When a task gets the lock of `node` in `fs_node_child`, the child is still not in the list. -/
def Uncached (s : State T) : Action T → Prop
  | .go t _ => ∀ pathbuf node path loaded, s.point t = .childLock pathbuf node path loaded →
      mustWait s t .read node = false → inodelistGet s.volume path = none
  | _ => True

def Coherent : Point → Prop
  | .lock held todo w => held ++ todo = w.nodes
  | _ => True

omit [DecidableEq T] in
structure Ledger (s : State T) : Prop where
  count : ∀ t p, (s.taken t).count p = (s.given t).count p + (held (s.point t)).count p
  coherent : ∀ t, Coherent (s.point t)

structure Moved (s s' : State T) (t : T) (point : Point) (takes gives : List ℕ) : Prop where
  point : s'.point = Function.update s.point t point
  taken : s'.taken = Function.update s.taken t (s.taken t ++ takes)
  given : s'.given = Function.update s.given t (s.given t ++ gives)

/-- The locks that are relied on at the new point are those of the old one, with the ones taken and
without the ones given back. -/
structure Fair (old new : Point) (takes gives : List ℕ) : Prop where
  count : Coherent old → ∀ p, (held old).count p + takes.count p = gives.count p + (held new).count p
  coherent : Coherent old → Coherent new

def Settled (s s' : State T) (t : T) : Prop :=
  ∃ point takes gives, Moved s s' t point takes gives ∧ Fair (s.point t) point takes gives

variable {s s' : State T} {t : T}

theorem moved_goto {point : Point} (h : s'.point = Function.update s.point t point)
    (h' : s'.taken = s.taken) (h'' : s'.given = s.given) : Moved s s' t point [] [] := by
  refine ⟨h, ?_, ?_⟩
  · rw [h', List.append_nil, Function.update_eq_self]
  · rw [h'', List.append_nil, Function.update_eq_self]

theorem moved_still (h : s'.point = s.point) (h' : s'.taken = s.taken) (h'' : s'.given = s.given)
    (t : T) : Moved s s' t (s.point t) [] [] := by
  refine moved_goto ?_ h' h''
  rw [h, Function.update_eq_self]

theorem Moved.trans {u : State T} {point point' : Point} {takes gives takes' gives' : List ℕ}
    (h : Moved s u t point takes gives) (h' : Moved u s' t point' takes' gives') :
    Moved s s' t point' (takes ++ takes') (gives ++ gives') := by
  refine ⟨?_, ?_, ?_⟩
  · rw [h'.point, h.point, Function.update_idem]
  · rw [h'.taken, h.taken, Function.update_idem, Function.update_self, List.append_assoc]
  · rw [h'.given, h.given, Function.update_idem, Function.update_self, List.append_assoc]

theorem goto_moved (s : State T) (t : T) (point : Point) : Moved s (goto s t point) t point [] [] :=
  moved_goto rfl rfl rfl

theorem grant_moved (s : State T) (t : T) (op : ReaderWriterLock.Operation) (node : ℕ) :
    Moved s (grant s t op node) t (s.point t) [node] [] :=
  ⟨(Function.update_eq_self t s.point).symm, rfl, by
    rw [List.append_nil, Function.update_eq_self]
    rfl⟩

theorem release_moved (s : State T) (t : T) (node : ℕ) :
    Moved s (release s t node) t (s.point t) [] [node] :=
  ⟨(Function.update_eq_self t s.point).symm, by
    rw [List.append_nil, Function.update_eq_self]
    rfl, rfl⟩

theorem fsNodeUnlock_moved (s : State T) (t : T) (nodes : List ℕ) :
    Moved s (fsNodeUnlock s t nodes) t (s.point t) [] nodes := by
  unfold fsNodeUnlock
  induction nodes generalizing s with
  | nil => exact moved_still rfl rfl rfl t
  | cons node nodes ih => exact (release_moved s t node).trans (ih (release s t node))

theorem settled_still (h : s'.point = s.point) (h' : s'.taken = s.taken) (h'' : s'.given = s.given)
    (t : T) : Settled s s' t :=
  ⟨s.point t, [], [], moved_still h h' h'' t, fun _ p => by simp, id⟩

theorem suspend_settled (s : State T) (t : T) (op : ReaderWriterLock.Operation) (node : ℕ) :
    Settled s (suspend s t op node) t := by
  have h : (suspend s t op node).point = s.point := rfl
  exact settled_still h rfl rfl t

theorem Ledger.settled (h : Ledger s) (hs : Settled s s' t) : Ledger s' := by
  obtain ⟨point, takes, gives, hm, hf⟩ := hs
  refine ⟨fun u p => ?_, fun u => ?_⟩
  · rw [hm.taken, hm.given, hm.point]
    by_cases hu : u = t
    · subst hu
      have hc := h.count u p
      have hp := hf.count (h.coherent u) p
      rw [Function.update_self, Function.update_self, Function.update_self, List.count_append,
        List.count_append]
      omega
    · rw [Function.update_of_ne hu, Function.update_of_ne hu, Function.update_of_ne hu]
      exact h.count u p
  · rw [hm.point]
    by_cases hu : u = t
    · subst hu
      rw [Function.update_self]
      exact hf.coherent (h.coherent u)
    · rw [Function.update_of_ne hu]
      exact h.coherent u

omit [DecidableEq T] in
theorem Ledger.balanced (h : Ledger s) : Balanced s := by
  intro t ht p
  have hc := h.count t p
  cases hp : s.point t <;> rw [hp] at ht hc <;> first | exact ht.elim | simpa [held] using hc

theorem walkHead_settled (s : State T) (t : T) {pathbuf : PathbufT} {ptr : ℕ} {loaded : List ℕ}
    (hp : s.point t = .compare pathbuf ptr loaded) :
    Settled s (walkHead s t pathbuf ptr loaded) t := by
  unfold walkHead
  split_ifs
  · refine ⟨_, [], [], moved_goto rfl rfl rfl, ⟨fun _ p => ?_, fun _ => rfl⟩⟩
    rw [hp]
    rfl
  · refine ⟨_, [], [], moved_goto rfl rfl rfl, ⟨fun _ p => ?_, fun _ => trivial⟩⟩
    rw [hp]
    rfl

theorem fsNodeChild_moved (s : State T) (t : T) (pathbuf : PathbufT) (node : ℕ) (name : Util.Str)
    (loaded : List ℕ) : ∃ point, Moved s (FsCalls.fsNodeChild s t pathbuf node name loaded) t point [] [] ∧
      held point = [] ∧ Coherent point := by
  unfold FsCalls.fsNodeChild
  simp only
  split
  · exact ⟨_, moved_goto rfl rfl rfl, rfl, trivial⟩
  · exact ⟨_, moved_goto rfl rfl rfl, rfl, trivial⟩

theorem walkLocked_moved {pathbuf : PathbufT} {ptr : ℕ} {loaded : List ℕ}
    (h : walkLocked s t pathbuf ptr loaded = some s') :
    ∃ point, Moved s s' t point [] [ptr] ∧ held point = [] ∧ Coherent point := by
  have hr := release_moved s t ptr
  unfold walkLocked at h
  simp only at h
  split_ifs at h
  · obtain rfl := Option.some.inj h
    exact ⟨.idle, hr.trans (moved_goto rfl rfl rfl), rfl, trivial⟩
  · split at h
    · cases h
    · rename_i nextField _
      obtain rfl := Option.some.inj h
      obtain ⟨point, hm, hh, hc⟩ := fsNodeChild_moved (release s t ptr) t pathbuf ptr nextField
        (loaded ++ [ptr])
      exact ⟨point, hr.trans hm, hh, hc⟩

theorem fsNodeChildLocked_moved {pathbuf path : PathbufT} {node address : ℕ} {loaded : List ℕ}
    (hget : inodelistGet s.volume path = none)
    (h : fsNodeChildLocked s t pathbuf node path loaded address = some s') :
    Moved s s' t (.childFetch pathbuf node address loaded) [address] [] := by
  unfold fsNodeChildLocked at h
  simp only [hget] at h
  split_ifs at h
  obtain rfl := Option.some.inj h
  refine ⟨rfl, rfl, ?_⟩
  rw [List.append_nil, Function.update_eq_self]
  rfl

theorem fsNodeChildLocked_found {pathbuf path : PathbufT} {node address child : ℕ} {loaded : List ℕ}
    (hget : inodelistGet s.volume path = some child)
    (h : fsNodeChildLocked s t pathbuf node path loaded address = some s') :
    Moved s s' t (.compare pathbuf child loaded) [] [] := by
  unfold fsNodeChildLocked at h
  simp only [hget, Option.some.injEq] at h
  obtain rfl := h
  exact moved_goto rfl rfl rfl

theorem unlocked_moved (s : State T) (t : T) (w : Work) :
    Moved s (unlocked s t w) t (s.point t) [] w.nodes := by
  cases w with
  | opened o =>
    have h := fsNodeUnlock_moved
      { s with volume := setInode s.volume o.node fun n => { n with parent := o.parent } } t
      (Work.opened o).nodes
    exact ⟨h.point, h.taken, h.given⟩
  | write node parent => exact fsNodeUnlock_moved s t _
  | read node => exact fsNodeUnlock_moved s t _

/-- Every step of code but one keeps account of the locks. -/
theorem go_settled {address : ℕ} (hg : Uncached s (.go t address)) (h : go s t address = some s') :
    Settled s s' t := by
  unfold go at h
  split at h
  · rename_i hp
    obtain rfl := Option.some.inj h
    exact walkHead_settled s t hp
  · rename_i pathbuf ptr loaded hp
    split_ifs at h
    · obtain rfl := Option.some.inj h
      exact suspend_settled s t _ _
    · obtain ⟨point, hm, hh, hc⟩ := walkLocked_moved h
      refine ⟨point, _, _, (grant_moved s t .read ptr).trans hm, ⟨fun _ p => ?_, fun _ => hc⟩⟩
      rw [hp, hh]
      simp [held]
  · rename_i pathbuf node path loaded hp
    split_ifs at h with hw
    · obtain rfl := Option.some.inj h
      exact suspend_settled s t _ _
    · have hget := hg pathbuf node path loaded hp (by simpa using hw)
      have hm := fsNodeChildLocked_moved (s := grant s t .read node) hget h
      refine ⟨_, _, _, (grant_moved s t .read node).trans hm, ⟨fun _ p => ?_, fun _ => trivial⟩⟩
      rw [hp]
      simp [held]
  · rename_i hheld w hp
    obtain rfl := Option.some.inj h
    refine ⟨_, _, _, moved_goto rfl rfl rfl, ⟨fun hc p => ?_, fun _ => trivial⟩⟩
    rw [hp] at hc ⊢
    have hw : hheld = w.nodes := (List.append_nil hheld).symm.trans hc
    rw [hw]
    simp [held]
  · rename_i hheld node todo w hp
    split_ifs at h
    · obtain rfl := Option.some.inj h
      exact suspend_settled s t _ _
    · obtain rfl := Option.some.inj h
      refine ⟨_, _, _, (grant_moved s t w.operation node).trans (moved_goto rfl rfl rfl),
        ⟨fun _ p => ?_, ?_⟩⟩
      · rw [hp]
        simp [held]
      · rw [hp]
        intro hc
        change hheld ++ [node] ++ todo = w.nodes
        rw [List.append_assoc]
        exact hc
  · cases h

theorem finish_settled {e : Effect} (h : finish s t e = some s') : Settled s s' t := by
  unfold finish at h
  split at h
  · rename_i pathbuf node child loaded hp
    obtain rfl := Option.some.inj h
    generalize hu : { s with
      volume := setInode s.volume child fun n => { n with toHeader := e.header child } } = u
    have hm := ((release_moved u t node).trans (release_moved _ t child)).trans
      (goto_moved _ t (.compare pathbuf child loaded))
    rw [← hu] at hm ⊢
    refine ⟨_, _, _, ⟨hm.point, hm.taken, hm.given⟩, ⟨fun _ p => ?_, fun _ => trivial⟩⟩
    rw [hp]
    simp [held]
  · rename_i w hp
    obtain rfl := Option.some.inj h
    have hm := unlocked_moved { s with volume := e.apply s.volume } t w
    refine ⟨.idle, [], w.nodes, ⟨?_, hm.taken, hm.given⟩, ⟨fun _ p => ?_, fun _ => trivial⟩⟩
    · change Function.update (unlocked { s with volume := e.apply s.volume } t w).point t .idle = _
      rw [hm.point, Function.update_idem]
    · rw [hp]
      simp [held]
  · cases h

theorem disk_settled {e : Effect} (h : disk s t e = some s') : Settled s s' t := by
  unfold disk at h
  split at h
  · obtain rfl := Option.some.inj h
    exact settled_still (by rfl) (by rfl) (by rfl) t
  · obtain rfl := Option.some.inj h
    exact settled_still (by rfl) (by rfl) (by rfl) t
  · cases h

theorem Ledger.entered (h : Ledger s) (t : T) (point : Point) (hp : held point = [])
    (hc : Coherent point) : Ledger (enter s t point) := by
  refine ⟨fun u p => ?_, fun u => ?_⟩
  · by_cases hu : u = t
    · subst hu
      simp [enter, goto, hp]
    · simpa [enter, goto, hu] using h.count u p
  · by_cases hu : u = t
    · subst hu
      simpa [enter, goto] using hc
    · simpa [enter, goto, hu] using h.coherent u

theorem Ledger.called (h : Ledger s) {c : Call} (hs : call s t c = some s') : Ledger s' := by
  cases c with
  | opened pathbuf =>
    obtain ⟨r, -, rfl⟩ := Option.map_eq_some_iff.mp hs
    have he := h.entered t (.compare pathbuf r.2 []) rfl trivial
    exact ⟨he.count, he.coherent⟩
  | close node =>
    obtain rfl := Option.some.inj hs
    have he := h.entered t .idle rfl trivial
    have hl := goto_moved (enter s t .idle) t .idle
    refine he.settled ⟨_, _, _, ⟨hl.point, hl.taken, hl.given⟩, ⟨fun _ p => ?_, fun _ => trivial⟩⟩
    simp [enter, goto]
  | write node =>
    obtain rfl := Option.some.inj hs
    exact h.entered t _ rfl rfl
  | read node =>
    obtain rfl := Option.some.inj hs
    exact h.entered t _ rfl rfl
  | readdir node =>
    obtain rfl := Option.some.inj hs
    exact h.entered t _ rfl rfl

/-- A step that does not find the child a second time keeps account of all locks. -/
theorem Ledger.step {a : Action T} (h : Ledger s) (hg : Uncached s a) (hs : step s a = some s') :
    Ledger s' := by
  cases a with
  | call t c =>
    simp only [FsCalls.step] at hs
    split at hs
    · exact h.called hs
    · cases hs
  | dispatch t =>
    simp only [FsCalls.step] at hs
    split at hs
    · cases hs
    · split_ifs at hs
      obtain rfl := Option.some.inj hs
      exact ⟨h.count, h.coherent⟩
    · cases hs
  | go t address =>
    simp only [FsCalls.step, Option.ite_none_right_eq_some] at hs
    exact h.settled (go_settled hg hs.2)
  | disk t e =>
    simp only [FsCalls.step, Option.ite_none_right_eq_some] at hs
    exact h.settled (disk_settled hs.2)
  | finish t e =>
    simp only [FsCalls.step, Option.ite_none_right_eq_some] at hs
    exact h.settled (finish_settled hs.2)

/-- A step that finds the child leaves the lock of `node` behind. -/
theorem Ledger.leaks {a : Action T} (h : Ledger s) (hg : ¬ Uncached s a) (hs : FsCalls.step s a = some s') :
    ¬ Balanced s' := by
  cases a with
  | go t address =>
    simp only [FsCalls.step, Option.ite_none_right_eq_some] at hs
    have hgo := hs.2
    simp only [Uncached, not_forall] at hg
    obtain ⟨pathbuf, node, path, loaded, hp, hw, hget⟩ := hg
    obtain ⟨child, hchild⟩ := Option.ne_none_iff_exists'.mp hget
    rw [go, hp] at hgo
    simp only [hw, Bool.false_eq_true, if_false] at hgo
    have hfound := fsNodeChildLocked_found (s := grant s t .read node) hchild hgo
    have hm := (grant_moved s t .read node).trans hfound
    intro hb
    have hreturned : Returned (s'.point t) := by
      rw [hm.point, Function.update_self]
      trivial
    have hcount := hb t hreturned node
    have hbefore := h.count t node
    rw [hm.taken, hm.given, Function.update_self, Function.update_self] at hcount
    rw [hp] at hbefore
    simp [held] at hcount hbefore
    omega
  | call t c => exact absurd trivial hg
  | dispatch t => exact absurd trivial hg
  | disk t e => exact absurd trivial hg
  | finish t e => exact absurd trivial hg

omit [DecidableEq T] in
theorem ledger_init (v : Volume) : Ledger (init T v) := ⟨fun _ _ => rfl, fun _ => trivial⟩

/-- In a run each function that returns has released the locks it acquired, exactly when no task finds
the child in the list after it has waited for the lock of its directory. -/
theorem balanced_iff (v : Volume) (as : List (Action T)) (s : State T)
    (h : exec FsCalls.step (init T (fsInit v)) as = some s) :
    Meets FsCalls.step Uncached (init T (fsInit v)) as ↔
      ∀ bs u, bs <+: as → exec FsCalls.step (init T (fsInit v)) bs = some u → Balanced u := by
  apply @meets_iff_prefixes _ _ _ _ (fun u => Balanced u → Ledger u) Balanced _ _ _ _ _
    (fun _ => ledger_init _) (ledger_init _).balanced h
  · intro u a w hinv hb hs hw
    by_cases hg : Uncached u a
    · exact (hinv hb).step hg hs
    · exact absurd hw ((hinv hb).leaks hg hs)
  · intro u a w hinv hb hs
    constructor
    · intro hw
      by_contra hg
      exact (hinv hb).leaks hg hs hw
    · intro hg
      exact ((hinv hb).step hg hs).balanced

end Step

theorem balanced_read : ∃ s, exec FsCalls.step (init ℕ (fsInit blankVolume))
    [.call 0 (.read 0), .go 0 0, .go 0 0] = some s ∧ Balanced s := by
  have hrun : ∃ s, exec FsCalls.step (init ℕ (fsInit blankVolume))
      [.call 0 (.read 0), .go 0 0, .go 0 0] = some s := ⟨_, rfl⟩
  obtain ⟨s, hrun⟩ := hrun
  refine ⟨s, hrun, (balanced_iff blankVolume [.call 0 (.read 0), .go 0 0, .go 0 0] s hrun).mp ?_ _ s
    List.prefix_rfl hrun⟩
  refine meets_cons trivial rfl (meets_cons ?_ rfl (meets_cons ?_ rfl trivial))
  · intro pathbuf node path loaded hp
    cases hp
  · intro pathbuf node path loaded hp
    cases hp

def childPath (c : UInt8) (h : 0 ∉ [c]) : PathbufT := pathbufChild pathbufRoot ⟨[c], h⟩

def outcome (root file : Header) : Effect :=
  ⟨fun _ _ => 0, 6, fun p => if p = 0 then root else if p = 1 then file else ⟨0, 0, 0, 0, 0, 0⟩⟩

/-- Task 1 opens the root and later reads it, while task 0 creates the file /c and writes to it. In
between the tasks 2 and 3 open /a and /a/b, where /a does not exist. -/
def openRun : List (Action ℕ) :=
  let a := childPath 97 Util.nul_a
  let ab := pathbufChild a ⟨[98], Util.nul_b⟩
  let c := childPath 99 (by decide)
  let empty := outcome ⟨1, 2, 0, 0, 0, inodeTypeDir⟩ ⟨0, 0, 0, 0, 0, 0⟩
  let full := outcome ⟨1, 4, 6, 1, 1, inodeTypeDir⟩ ⟨1, 3, 0, 0, 0, inodeTypeFile⟩
  [.call 1 (.opened pathbufRoot), .go 1 0, .go 1 0, .go 1 0, .finish 1 empty,
    -- Task 0 holds the locks of the root and of /c while the others queue up.
    .call 0 (.opened c), .go 0 0, .go 0 0, .go 0 1, .finish 0 empty, .go 0 0, .go 0 0, .go 0 0, .go 0 0,
    .disk 0 full, .call 1 (.readdir 0), .go 1 0, .call 2 (.opened a), .go 2 0, .go 2 0,
    .call 3 (.opened ab), .go 3 0, .go 3 0, .dispatch 0, .finish 0 full,
    -- Task 1 holds the root's lock, and task 0 waits for it, when the tasks 2 and 3 miss the child.
    .dispatch 1, .go 1 0, .go 1 0, .disk 1 full, .call 0 (.write 1), .go 0 0,
    .dispatch 2, .go 2 0, .go 2 0, .dispatch 3, .go 3 0, .go 3 0, .dispatch 1, .finish 1 full,
    .dispatch 0, .go 0 0, .go 0 0, .go 0 0, .finish 0 full,
    -- Task 2 adds the child, and task 3 finds it.
    .dispatch 2, .go 2 2, .disk 2 full, .dispatch 3, .go 3 0, .go 3 0, .go 3 0,
    .dispatch 2, .finish 2 full, .go 2 0, .go 2 0, .dispatch 3, .go 3 0]

/-- The call of task 3 has failed, and still holds the lock of the root for reading. -/
theorem leaked_root : ¬ ∀ (v : Volume) (as : List (Action ℕ)) (s : State ℕ),
    exec FsCalls.step (init ℕ (fsInit v)) as = some s → Balanced s := by
  intro h
  have hrun : (exec FsCalls.step (init ℕ (fsInit blankVolume)) openRun).map (fun s =>
      (decide (Returned (s.point 3)), s.taken 3, s.given 3)) = some (true, [0, 0, 2], [0, 2]) := by
    decide
  obtain ⟨s, hs, he⟩ := Option.map_eq_some_iff.mp hrun
  simp only [Prod.mk.injEq, decide_eq_true_eq] at he
  have hb := h blankVolume openRun s hs 3 he.1 0
  rw [he.2.1, he.2.2] at hb
  exact absurd hb (by decide)

end Eedox.LockBalance
