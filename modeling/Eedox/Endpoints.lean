import Eedox.Library.RefCount
import Eedox.Syscall

namespace Eedox.Endpoints

open Util Pipe Descriptor Mq Syscall Library.RefCount

def pipeOf (fd : Fd) : Option ℕ :=
  match fd.target with
  | .pipe ptr | .mq ptr => some ptr
  | .disk _ | .dir _ | .stdin | .stdout => none

def ends (access : ℕ) (fds : List Fd) : List ℕ :=
  fds.filterMap fun fd => if fd.access = access then pipeOf fd else none

def Access (access : ℕ) : Prop := access = fdAccessRead ∨ access = fdAccessWrite

def counter (access : ℕ) (pipe : PipeT ℕ) : ℕ :=
  if access = fdAccessRead then pipe.readerCount else pipe.writerCount

structure Settled (pipe : PipeT ℕ) (queue : Bool) (frees : ℕ) : Prop where
  dead : pipe.dead = true ↔ pipe.readerCount = 0 ∧ pipe.writerCount = 0
  drained : pipe.dead = true → pipe.list = []
  freed : frees = if pipe.dead = true ∧ queue = false then 1 else 0

/-- The counts, and what every open descriptor on a pipe looks like. -/
structure Accounted (o : Objects) (fds : List Fd) : Prop where
  counted : ∀ access, Access access →
    Balanced (· < o.nextPipe) (fun p => counter access (o.pipes p)) (ends access fds)
  settled : ∀ p < o.nextPipe, Settled (o.pipes p) (o.queue p) (o.frees p)
  twoEnds : ∀ fd ∈ fds, ∀ p, pipeOf fd = some p →
    Access fd.access ∧ fd.target = if o.queue p then .mq p else .pipe p

/-- Blocks keep their purpose, and a dead pipe is not touched. -/
def Kept (o o' : Objects) : Prop :=
  o.nextPipe ≤ o'.nextPipe ∧ ∀ p < o.nextPipe, o'.queue p = o.queue p ∧
    ((o.pipes p).dead = true → o'.pipes p = o.pipes p)

theorem Kept.refl (o : Objects) : Kept o o := ⟨le_rfl, fun _ _ => ⟨rfl, fun _ => rfl⟩⟩

theorem Kept.trans {o o' o'' : Objects} (h : Kept o o') (h' : Kept o' o'') : Kept o o'' := by
  refine ⟨h.1.trans h'.1, fun p hp => ?_⟩
  obtain ⟨hq, hd⟩ := h.2 p hp
  obtain ⟨hq', hd'⟩ := h'.2 p (hp.trans_le h.1)
  refine ⟨hq'.trans hq, fun hdead => ?_⟩
  have he := hd hdead
  rw [hd' (by rw [he]; exact hdead), he]

theorem ends_cons_of_none {fd : Fd} (h : pipeOf fd = none) (access : ℕ) (fds : List Fd) :
    ends access (fd :: fds) = ends access fds := by
  rw [ends, List.filterMap_cons_none]
  · rfl
  · rw [h, ite_self]

theorem ends_cons_self {fd : Fd} {p : ℕ} (h : pipeOf fd = some p) (fds : List Fd) :
    ends fd.access (fd :: fds) = p :: ends fd.access fds := by
  rw [ends, List.filterMap_cons_some (b := p)]
  · rfl
  · rw [if_pos rfl, h]

theorem ends_cons_other {fd : Fd} {access : ℕ} (h : fd.access ≠ access) (fds : List Fd) :
    ends access (fd :: fds) = ends access fds := by
  rw [ends, List.filterMap_cons_none]
  · rfl
  · rw [if_neg h]

theorem mem_ends {fd : Fd} {fds : List Fd} {p : ℕ} (hfd : fd ∈ fds) (h : pipeOf fd = some p) :
    p ∈ ends fd.access fds :=
  List.mem_filterMap.mpr ⟨fd, hfd, by rw [if_pos rfl, h]⟩

theorem Accounted.perm {o : Objects} {fds fds' : List Fd} (h : Accounted o fds) (hp : fds.Perm fds') :
    Accounted o fds' where
  counted := fun access ha => (h.counted access ha).perm (hp.filterMap _)
  settled := h.settled
  twoEnds := fun fd hfd => h.twoEnds fd (hp.mem_iff.mpr hfd)

theorem Settled.dead_false {pipe : PipeT ℕ} {queue : Bool} {frees : ℕ} (h : Settled pipe queue frees)
    {access : ℕ} (hc : 0 < counter access pipe) : pipe.dead = false := by
  rw [Bool.eq_false_iff]
  intro hd
  have hz := h.dead.mp hd
  unfold counter at hc
  split_ifs at hc <;> omega

theorem Accounted.alive {o : Objects} {fds : List Fd} (h : Accounted o fds) {fd : Fd} (hfd : fd ∈ fds)
    {p : ℕ} (hp : pipeOf fd = some p) :
    p < o.nextPipe ∧ (o.pipes p).dead = false ∧ o.frees p = 0 := by
  have hb := h.counted fd.access (h.twoEnds fd hfd p hp).1
  have hmem := mem_ends hfd hp
  have hlt := hb.refsLive p hmem
  have hs := h.settled p hlt
  have hdead := hs.dead_false (hb.pos hmem)
  exact ⟨hlt, hdead, by simp [hs.freed, hdead]⟩

theorem accounted_cons_of_none {o : Objects} {fd : Fd} {fds : List Fd} (h : pipeOf fd = none) :
    Accounted o (fd :: fds) ↔ Accounted o fds := by
  constructor
  · intro he
    refine ⟨fun access ha => ?_, he.settled, fun fd' hfd' => he.twoEnds fd' (List.mem_cons_of_mem fd hfd')⟩
    rw [← ends_cons_of_none h]
    exact he.counted access ha
  · intro he
    refine ⟨fun access ha => ?_, he.settled, ?_⟩
    · rw [ends_cons_of_none h]
      exact he.counted access ha
    · intro fd' hfd' p hp
      rcases List.mem_cons.mp hfd' with rfl | hfd'
      · rw [h] at hp
        cases hp
      · exact he.twoEnds fd' hfd' p hp

theorem counter_setPipe (o : Objects) (p : ℕ) (pipe : PipeT ℕ) (access : ℕ) :
    (fun q => counter access ((setPipe o p pipe).pipes q)) =
      Function.update (fun q => counter access (o.pipes q)) p (counter access pipe) := by
  funext q
  by_cases hq : q = p
  · subst hq
    simp [setPipe]
  · simp [setPipe, hq]

theorem settled_setPipe {o : Objects} {p : ℕ} {pipe : PipeT ℕ}
    (h : ∀ q < o.nextPipe, Settled (o.pipes q) (o.queue q) (o.frees q))
    (hp : Settled pipe (o.queue p) (o.frees p)) :
    ∀ q < o.nextPipe, Settled ((setPipe o p pipe).pipes q) (o.queue q) (o.frees q) := by
  intro q hq
  by_cases hqp : q = p
  · subst hqp
    simpa [setPipe] using hp
  · simpa [setPipe, hqp] using h q hq

theorem kept_setPipe {o : Objects} {p : ℕ} (h : (o.pipes p).dead = false) (pipe : PipeT ℕ) :
    Kept o (setPipe o p pipe) := by
  refine ⟨le_rfl, fun q _ => ⟨rfl, fun hd => ?_⟩⟩
  have hqp : q ≠ p := by
    rintro rfl
    rw [h] at hd
    cases hd
  simp [setPipe, hqp]

def oneMore (access : ℕ) (pipe : PipeT ℕ) : PipeT ℕ :=
  if access = fdAccessRead then { pipe with readerCount := pipe.readerCount + 1 }
  else { pipe with writerCount := pipe.writerCount + 1 }

theorem counter_oneMore {a b : ℕ} (ha : Access a) (hb : Access b) (pipe : PipeT ℕ) :
    counter b (oneMore a pipe) = counter b pipe + if a = b then 1 else 0 := by
  rcases ha with rfl | rfl <;> rcases hb with rfl | rfl <;> rfl

theorem settled_oneMore {pipe : PipeT ℕ} {queue : Bool} {frees : ℕ} (h : Settled pipe queue frees)
    (hd : pipe.dead = false) (access : ℕ) : Settled (oneMore access pipe) queue frees := by
  unfold oneMore
  split_ifs
  · exact ⟨by simp [hd], by simp [hd], h.freed⟩
  · exact ⟨by simp [hd], by simp [hd], h.freed⟩

theorem Accounted.oneMore {o : Objects} {fds : List Fd} (h : Accounted o fds) {fd : Fd} {p : ℕ}
    (hp : pipeOf fd = some p) (hlt : p < o.nextPipe) (hdead : (o.pipes p).dead = false)
    (htwo : Access fd.access ∧ fd.target = if o.queue p then .mq p else .pipe p) :
    Accounted (setPipe o p (oneMore fd.access (o.pipes p))) (fd :: fds) where
  counted := by
    intro access ha
    rw [counter_setPipe, counter_oneMore htwo.1 ha]
    by_cases he : fd.access = access
    · subst he
      rw [if_pos rfl, ends_cons_self hp]
      exact (h.counted fd.access ha).acquire hlt
    · rw [if_neg he, ends_cons_other he, Nat.add_zero, Function.update_eq_self]
      exact h.counted access ha
  settled := settled_setPipe h.settled (settled_oneMore (h.settled p hlt) hdead fd.access)
  twoEnds := by
    intro fd' hfd' q hq
    rcases List.mem_cons.mp hfd' with rfl | hfd'
    · obtain rfl : p = q := Option.some.inj (hp.symm.trans hq)
      exact htwo
    · exact h.twoEnds fd' hfd' q hq

theorem cloneEntry_of_some {fd : Fd} {p : ℕ} (hp : pipeOf fd = some p) (o : Objects) :
    fdTableCloneEntry o fd = setPipe o p (oneMore fd.access (o.pipes p)) := by
  unfold pipeOf at hp
  split at hp <;> cases hp <;> simp_all [fdTableCloneEntry, Endpoints.oneMore]

theorem cloneEntry_of_none {fd : Fd} (hp : pipeOf fd = none) (o : Objects) :
    ∃ fs, fdTableCloneEntry o fd = { o with fs := fs } := by
  unfold fdTableCloneEntry
  cases ht : fd.target with
  | stdin => exact ⟨o.fs, rfl⟩
  | stdout => exact ⟨o.fs, rfl⟩
  | disk node => exact ⟨_, rfl⟩
  | dir node => exact ⟨_, rfl⟩
  | pipe ptr => simp [pipeOf, ht] at hp
  | mq ptr => simp [pipeOf, ht] at hp

theorem Accounted.setFs {o : Objects} {fds : List Fd} (h : Accounted o fds) (fs : Fs.Volume) :
    Accounted { o with fs := fs } fds :=
  ⟨h.counted, h.settled, h.twoEnds⟩

theorem kept_setFs (o : Objects) (fs : Fs.Volume) : Kept o { o with fs := fs } :=
  ⟨le_rfl, fun _ _ => ⟨rfl, fun _ => rfl⟩⟩

theorem accounted_cloneEntry {o : Objects} {fds : List Fd} {fd : Fd} (h : Accounted o fds)
    (hfd : fd ∈ fds) :
    Accounted (fdTableCloneEntry o fd) (fd :: fds) ∧ Kept o (fdTableCloneEntry o fd) := by
  cases hp : pipeOf fd with
  | none =>
    obtain ⟨fs, he⟩ := cloneEntry_of_none hp o
    rw [he]
    exact ⟨(accounted_cons_of_none hp).mpr (h.setFs fs), kept_setFs o fs⟩
  | some p =>
    obtain ⟨hlt, hdead, -⟩ := h.alive hfd hp
    rw [cloneEntry_of_some hp]
    exact ⟨h.oneMore hp hlt hdead (h.twoEnds fd hfd p hp), kept_setPipe hdead _⟩

theorem accounted_cloneEntries {es : List Fd} {o : Objects} {fds : List Fd} (h : Accounted o fds)
    (hes : es ⊆ fds) :
    Accounted (es.foldl fdTableCloneEntry o) (es ++ fds) ∧ Kept o (es.foldl fdTableCloneEntry o) := by
  induction es generalizing o fds with
  | nil => exact ⟨h, Kept.refl o⟩
  | cons e es ih =>
    obtain ⟨h1, hk1⟩ := accounted_cloneEntry h (hes List.mem_cons_self)
    have hsub : es ⊆ e :: fds := fun x hx => List.mem_cons_of_mem e (hes (List.mem_cons_of_mem e hx))
    obtain ⟨h2, hk2⟩ := ih h1 hsub
    exact ⟨h2.perm List.perm_middle, hk1.trans hk2⟩

def oneLess (access : ℕ) (pipe : PipeT ℕ) : PipeT ℕ × Bool :=
  if access = fdAccessRead then pipeCloseRd pipe else pipeCloseWr pipe

theorem counter_closeEnd (access : ℕ) (pipe : PipeT ℕ) :
    counter access (closeEnd pipe).1 = counter access pipe := by
  unfold closeEnd
  split_ifs <;> rfl

theorem counter_oneLess {a b : ℕ} (ha : Access a) (hb : Access b) (pipe : PipeT ℕ) :
    counter b (oneLess a pipe).1 = counter b pipe - if a = b then 1 else 0 := by
  rcases ha with rfl | rfl
  · rw [oneLess, if_pos rfl, pipeCloseRd, counter_closeEnd]
    rcases hb with rfl | rfl <;> rfl
  · rw [oneLess, if_neg (by decide), pipeCloseWr, counter_closeEnd]
    rcases hb with rfl | rfl <;> rfl

theorem settled_closeEnd {pipe : PipeT ℕ} (hd : pipe.dead = false) (queue : Bool) :
    Settled (closeEnd pipe).1 queue (if (closeEnd pipe).2 = true ∧ queue = false then 1 else 0) := by
  unfold closeEnd
  by_cases hz : pipe.readerCount = 0 ∧ pipe.writerCount = 0
  · rw [if_pos hz]
    exact ⟨by simpa [pipeDestroy] using hz, fun _ => rfl, by simp⟩
  · rw [if_neg hz]
    refine ⟨?_, by simp [hd], by simp [hd]⟩
    rw [hd]
    exact ⟨fun h => Bool.noConfusion h, fun h => absurd h hz⟩

theorem settled_oneLess {pipe : PipeT ℕ} (hd : pipe.dead = false) (access : ℕ) (queue : Bool) :
    Settled (oneLess access pipe).1 queue
      (if (oneLess access pipe).2 = true ∧ queue = false then 1 else 0) := by
  by_cases ha : access = fdAccessRead
  · rw [oneLess, if_pos ha]
    exact @settled_closeEnd { pipe with readerCount := pipe.readerCount - 1 } hd queue
  · rw [oneLess, if_neg ha]
    exact @settled_closeEnd { pipe with writerCount := pipe.writerCount - 1 } hd queue

theorem closeTarget_of_pipe {o : Objects} {fd : Fd} {p : ℕ}
    (ht : fd.target = if o.queue p then .mq p else .pipe p) :
    closeTarget o fd = { setPipe o p (oneLess fd.access (o.pipes p)).1 with
      frees := Function.update o.frees p (if (oneLess fd.access (o.pipes p)).2 = true ∧ o.queue p = false
        then o.frees p + 1 else o.frees p) } := by
  generalize hc : oneLess fd.access (o.pipes p) = closed
  unfold closeTarget
  cases hq : o.queue p
  · rw [hq, if_neg Bool.false_ne_true] at ht
    rw [ht]
    change (if (oneLess fd.access (o.pipes p)).2 = true
      then freePipe (setPipe o p (oneLess fd.access (o.pipes p)).1) p
      else setPipe o p (oneLess fd.access (o.pipes p)).1) = _
    rw [hc]
    by_cases hd : closed.2 = true
    · rw [if_pos hd, if_pos ⟨hd, rfl⟩]
      rfl
    · rw [if_neg hd, if_neg fun h => hd h.1, Function.update_eq_self]
      rfl
  · rw [hq, if_pos rfl] at ht
    rw [ht, if_neg fun h => Bool.noConfusion h.2, Function.update_eq_self, ← hc]
    rfl

theorem closeTarget_of_none {fd : Fd} (hp : pipeOf fd = none) (o : Objects) :
    ∃ fs, closeTarget o fd = { o with fs := fs } := by
  unfold closeTarget
  cases ht : fd.target with
  | stdin => exact ⟨o.fs, rfl⟩
  | stdout => exact ⟨o.fs, rfl⟩
  | disk node => exact ⟨_, rfl⟩
  | dir node => exact ⟨_, rfl⟩
  | pipe ptr => simp [pipeOf, ht] at hp
  | mq ptr => simp [pipeOf, ht] at hp

theorem accounted_closeTarget {o : Objects} {fds : List Fd} {fd : Fd} (h : Accounted o (fd :: fds)) :
    Accounted (closeTarget o fd) fds ∧ Kept o (closeTarget o fd) := by
  cases hp : pipeOf fd with
  | none =>
    obtain ⟨fs, he⟩ := closeTarget_of_none hp o
    rw [he]
    exact ⟨((accounted_cons_of_none hp).mp h).setFs fs, kept_setFs o fs⟩
  | some p =>
    obtain ⟨hlt, hdead, hfrees⟩ := h.alive List.mem_cons_self hp
    obtain ⟨ha, ht⟩ := h.twoEnds fd List.mem_cons_self p hp
    rw [closeTarget_of_pipe ht, hfrees]
    refine ⟨⟨?_, ?_, ?_⟩, ?_⟩
    · intro access hacc
      change Balanced _ (fun q => counter access ((setPipe o p _).pipes q)) _
      rw [counter_setPipe, counter_oneLess ha hacc]
      have hb := h.counted access hacc
      by_cases he : fd.access = access
      · subst he
        rw [ends_cons_self hp] at hb
        rw [if_pos rfl]
        exact hb.release
      · rw [ends_cons_other he] at hb
        rw [if_neg he, Nat.sub_zero, Function.update_eq_self]
        exact hb
    · intro q hq
      by_cases hqp : q = p
      · subst hqp
        have hs := settled_oneLess hdead fd.access (o.queue q)
        simpa [setPipe] using hs
      · simpa [setPipe, hqp] using h.settled q hq
    · exact fun fd' hfd' => h.twoEnds fd' (List.mem_cons_of_mem fd hfd')
    · exact kept_setPipe hdead _

theorem accounted_closeAll {rest : List Fd} (indices : List ℕ) {o : Objects} {table : FdTable}
    (h : Accounted o (openFds table ++ rest)) :
    let closed := indices.foldl (fun s i => fdTableClose s.1 s.2 i) (o, table)
    Accounted closed.1 (openFds closed.2 ++ rest) ∧ Kept o closed.1 := by
  induction indices generalizing o table with
  | nil => exact ⟨h, Kept.refl o⟩
  | cons i indices ih =>
    rw [List.foldl_cons]
    rcases fdTableClose_cases o table i with he | ⟨fd, -, hp, he⟩
    · rw [he]
      exact ih h
    · rw [he]
      obtain ⟨h1, hk1⟩ := accounted_closeTarget (h.perm (hp.append_right rest))
      obtain ⟨h2, hk2⟩ := ih h1
      exact ⟨h2, hk1.trans hk2⟩

def readEnd (target : Target) : Fd := ⟨target, 0, true, fdAccessRead⟩

def writeEnd (target : Target) : Fd := ⟨target, 0, true, fdAccessWrite⟩

theorem openFds_addEnds (table : FdTable) (target : Target) :
    (openFds (addEnds table target).1).Perm (writeEnd target :: readEnd target :: openFds table) :=
  (openFds_add _ (writeEnd target)).trans ((openFds_add table (readEnd target)).cons _)

theorem accounted_fresh {o o' : Objects} {fds : List Fd} {p : ℕ} {queue : Bool}
    (h : Accounted o fds) (hunused : ∀ access, p ∉ ends access fds)
    (hnext : ∀ q, q < o'.nextPipe ↔ q = p ∨ q < o.nextPipe)
    (hp : o'.pipes p = pipeNew) (hqueue : o'.queue p = queue) (hfrees : o'.frees p = 0)
    (hother : ∀ q, q ≠ p → o'.pipes q = o.pipes q ∧ o'.queue q = o.queue q ∧ o'.frees q = o.frees q)
    {target : Target} (ht : target = if queue then .mq p else .pipe p) :
    Accounted o' (writeEnd target :: readEnd target :: fds) := by
  have hread : pipeOf (readEnd target) = some p := by
    rw [ht]
    cases queue <;> rfl
  have hwrite : pipeOf (writeEnd target) = some p := by
    rw [ht]
    cases queue <;> rfl
  have hne : fdAccessWrite ≠ fdAccessRead := by decide
  refine ⟨fun access ha => ?_, fun q hq => ?_, fun fd hfd q hq => ?_⟩
  · have hends : ends access (writeEnd target :: readEnd target :: fds) =
        List.replicate 1 p ++ ends access fds := by
      rcases ha with rfl | rfl
      · rw [ends_cons_other hne]
        exact ends_cons_self hread fds
      · refine (ends_cons_self hwrite _).trans ?_
        exact congrArg (p :: ·) (ends_cons_other hne.symm fds)
    have hb := h.counted access ha
    rw [hends]
    have hrest : Balanced (fun q => q < o.nextPipe ∧ q ≠ p) (fun q => counter access (o.pipes q))
        (ends access fds) :=
      hb.destroy (hunused access) (fun q hq => hq.1) fun q hq hqp => ⟨hq, hqp⟩
    refine hrest.create (fun hq => hq.2 rfl) 1 (fun q => ?_) ?_ fun q hq => ?_
    · rw [hnext]
      by_cases hqp : q = p <;> simp [hqp]
    · rcases ha with rfl | rfl <;> simp [hp, counter, pipeNew]
    · rw [(hother q hq.2).1]
  · by_cases hqp : q = p
    · subst hqp
      rw [hp, hfrees]
      exact ⟨by simp [pipeNew], fun _ => rfl, by simp [pipeNew]⟩
    · obtain ⟨h1, h2, h3⟩ := hother q hqp
      rw [h1, h2, h3]
      exact h.settled q (((hnext q).mp hq).resolve_left hqp)
  · have hnew : fd.target = target → Access fd.access → pipeOf fd = some p →
        Access fd.access ∧ fd.target = if o'.queue q then .mq q else .pipe q := by
      intro hft ha hfp
      obtain rfl : p = q := Option.some.inj (hfp.symm.trans hq)
      rw [hqueue]
      exact ⟨ha, hft.trans ht⟩
    rcases List.mem_cons.mp hfd with rfl | hfd
    · exact hnew rfl (Or.inr rfl) hwrite
    · rcases List.mem_cons.mp hfd with rfl | hfd
      · exact hnew rfl (Or.inl rfl) hread
      · obtain ⟨ha, hft⟩ := h.twoEnds fd hfd q hq
        have hqp : q ≠ p := fun he => hunused fd.access (he ▸ mem_ends hfd hq)
        rw [(hother q hqp).2.1]
        exact ⟨ha, hft⟩

theorem exists_of_mem_ends {access : ℕ} {fds : List Fd} {p : ℕ} (h : p ∈ ends access fds) :
    ∃ fd ∈ fds, pipeOf fd = some p := by
  obtain ⟨fd, hfd, he⟩ := List.mem_filterMap.mp h
  split_ifs at he
  exact ⟨fd, hfd, he⟩

/-- The message queue list knows blocks that `mqlist_open` has allocated. -/
def Listed (o : Objects) (list : Mqlist) : Prop :=
  ∀ e ∈ list, e.pipe < o.nextPipe ∧ o.queue e.pipe = true

/-- What happens to a dead pipe: nothing, or `mqopen` with the name of its queue starts it again. -/
def Revived (o o' : Objects) (list : Mqlist) (name : Str) : Prop :=
  ∀ p < o.nextPipe, (o.pipes p).dead = true → o'.pipes p = o.pipes p ∨
    o'.pipes p = pipeNew ∧ o.queue p = true ∧ ∃ e ∈ list, e.name = name ∧ e.pipe = p

theorem Kept.revived {o o' : Objects} (h : Kept o o') (list : Mqlist) (name : Str) :
    Revived o o' list name :=
  fun p hp hd => Or.inl ((h.2 p hp).2 hd)

theorem accounted_allocPipe {o : Objects} {fds : List Fd} (h : Accounted o fds) (queue : Bool)
    {target : Target} (ht : target = if queue then .mq o.nextPipe else .pipe o.nextPipe) :
    Accounted (allocPipe o queue) (writeEnd target :: readEnd target :: fds) ∧
      Kept o (allocPipe o queue) := by
  constructor
  · refine accounted_fresh h (p := o.nextPipe) (fun access hm => ?_) (fun q => ?_)
      ?_ ?_ ?_ (fun q hq => ?_) ht
    · obtain ⟨fd, hfd, hp⟩ := exists_of_mem_ends hm
      exact absurd (h.alive hfd hp).1 (Nat.lt_irrefl _)
    · simp only [allocPipe, setPipe]
      omega
    · simp [allocPipe, setPipe]
    · simp [allocPipe]
    · simp [allocPipe]
    · simp [allocPipe, setPipe, hq]
  · refine ⟨Nat.le_succ _, fun p hp => ?_⟩
    have hne : p ≠ o.nextPipe := hp.ne
    simp [allocPipe, setPipe, hne]

theorem accounted_reopenPipe {o : Objects} {fds : List Fd} (h : Accounted o fds) {p : ℕ}
    (hp : p < o.nextPipe) (hq : o.queue p = true) :
    Accounted (reopenPipe o p) (writeEnd (.mq p) :: readEnd (.mq p) :: fds) := by
  cases hd : (o.pipes p).dead
  · have he : reopenPipe o p = setPipe o p
        (oneMore fdAccessWrite (oneMore fdAccessRead (o.pipes p))) := by
      simp [reopenPipe, hd, oneMore, fdAccessRead, fdAccessWrite]
    rw [he]
    have htwo : ∀ access, Access access → Access access ∧ Target.mq p = if o.queue p then .mq p else .pipe p :=
      fun access ha => ⟨ha, by rw [hq, if_pos rfl]⟩
    have h1 := @Accounted.oneMore _ _ h (readEnd (.mq p)) _ rfl hp hd (htwo fdAccessRead (Or.inl rfl))
    have hd1 : ((setPipe o p (oneMore fdAccessRead (o.pipes p))).pipes p).dead = false := by
      simp [setPipe, oneMore, hd]
    have h2 := @Accounted.oneMore _ _ h1 (writeEnd (.mq p)) _ rfl hp hd1 (htwo fdAccessWrite (Or.inr rfl))
    simpa [setPipe, readEnd, writeEnd] using h2
  · have he : reopenPipe o p = setPipe o p pipeNew := by simp [reopenPipe, hd]
    rw [he]
    refine @accounted_fresh _ (setPipe o p pipeNew) _ _ _ h (fun access hm => ?_)
      (fun q => ?_) ?_ hq ?_ (fun q hqp => ?_) _ rfl
    · obtain ⟨fd, hfd, hfp⟩ := exists_of_mem_ends hm
      have halive := (h.alive hfd hfp).2.1
      rw [hd] at halive
      cases halive
    · simp only [setPipe]
      constructor
      · exact Or.inr
      · rintro (rfl | hlt)
        · exact hp
        · exact hlt
    · simp [setPipe]
    · have hs := h.settled p hp
      simp [setPipe, hs.freed, hq]
    · simp [setPipe, hqp]

theorem revived_reopenPipe {o : Objects} {list : Mqlist} {name : Str} {e : QueueEntry} (he : e ∈ list)
    (hname : e.name = name) (hq : o.queue e.pipe = true) :
    Revived o (reopenPipe o e.pipe) list name := by
  intro p _ hd
  by_cases hpe : p = e.pipe
  · subst hpe
    refine Or.inr ⟨?_, hq, e, he, hname, rfl⟩
    simp [reopenPipe, setPipe, hd]
  · exact Or.inl (by simp [reopenPipe, setPipe, hpe])

theorem listed_reopenPipe {o : Objects} {list : Mqlist} (h : Listed o list) (p : ℕ) :
    Listed (reopenPipe o p) list := h

theorem Listed.kept {o o' : Objects} {list : Mqlist} (h : Listed o list) (hk : Kept o o') :
    Listed o' list := by
  intro e he
  obtain ⟨hlt, hq⟩ := h e he
  exact ⟨hlt.trans_le hk.1, ((hk.2 e.pipe hlt).1).trans hq⟩

theorem accounted_mqlistOpen {o : Objects} {list : Mqlist} {fds : List Fd} (h : Accounted o fds)
    (hl : Listed o list) (name : Str) :
    let mq := mqlistOpen o list name
    Accounted mq.1 (writeEnd (.mq mq.2.2) :: readEnd (.mq mq.2.2) :: fds) ∧
      Listed mq.1 mq.2.1 ∧ Revived o mq.1 list name := by
  unfold mqlistOpen
  cases hf : list.find? fun entry => strcmp entry.name.chars name.chars = 0 with
  | some e =>
    have he := List.mem_of_find?_eq_some hf
    have hname : e.name = name := by
      have := List.find?_some hf
      rwa [decide_eq_true_eq, Str.strcmp_eq_zero] at this
    obtain ⟨hlt, hq⟩ := hl e he
    exact ⟨accounted_reopenPipe h hlt hq, listed_reopenPipe hl e.pipe, revived_reopenPipe he hname hq⟩
  | none =>
    obtain ⟨ha, hk⟩ := accounted_allocPipe h true rfl
    have hnew : Listed (allocPipe o true) [⟨name, o.nextPipe⟩] := by
      intro e he
      obtain rfl := List.mem_singleton.mp he
      simp [allocPipe, setPipe]
    have hold := hl.kept hk
    simp only
    split_ifs with hfree
    · refine ⟨ha, fun e he => ?_, hk.revived list name⟩
      rcases List.mem_append.mp he with he | he
      · exact hold e he
      · exact hnew e he
    · refine ⟨ha, fun e he => ?_, hk.revived list name⟩
      rcases List.mem_or_eq_of_mem_set he with he | rfl
      · exact hold e he
      · exact hnew _ List.mem_cons_self

structure Sound (k : Kernel) : Prop where
  accounted : Accounted k.objects (descriptors k)
  listed : Listed k.objects k.mqlist

theorem sound_boot (objects : Objects) (unset : Fd) : Sound (boot objects unset) where
  accounted := by
    have hfds : descriptors (boot objects unset) =
        [⟨.stdin, unset.pos, true, fdAccessRead⟩, ⟨.stdout, unset.pos, true, fdAccessWrite⟩] := rfl
    rw [hfds, accounted_cons_of_none rfl, accounted_cons_of_none rfl]
    refine ⟨fun access _ => ⟨fun p hp => ?_, fun p hp => ?_⟩, fun p hp => ?_, fun fd hfd => ?_⟩
    · exact absurd hp List.not_mem_nil
    · exact absurd hp (Nat.not_lt_zero p)
    · exact absurd hp (Nat.not_lt_zero p)
    · exact absurd hfd List.not_mem_nil
  listed := fun _ he => absurd he List.not_mem_nil

theorem Sound.of_kept {k k' : Kernel} (h : Sound k) (ha : Accounted k'.objects (descriptors k'))
    (hk : Kept k.objects k'.objects) (hl : k'.mqlist = k.mqlist) : Sound k' :=
  ⟨ha, by rw [hl]; exact h.listed.kept hk⟩

theorem sound_setFs {k k' : Kernel} {extra : List Fd} {fs : Fs.Volume} (h : Sound k)
    (ho : k'.objects = { k.objects with fs := fs }) (hl : k'.mqlist = k.mqlist)
    (hd : (descriptors k').Perm (extra ++ descriptors k)) (hextra : ∀ fd ∈ extra, pipeOf fd = none) :
    Sound k' ∧ Kept k.objects k'.objects := by
  have hk : Kept k.objects k'.objects := by
    rw [ho]
    exact kept_setFs _ _
  refine ⟨h.of_kept (Accounted.perm ?_ hd.symm) hk hl, hk⟩
  rw [ho]
  clear hd
  induction extra with
  | nil => exact h.accounted.setFs fs
  | cons fd extra ih =>
    rw [List.cons_append, accounted_cons_of_none (hextra fd List.mem_cons_self)]
    exact ih fun fd' hfd' => hextra fd' (List.mem_cons_of_mem fd hfd')

theorem descriptors_addFd {k : Kernel} {t : ℕ} {task : Task} (ht : k.tasks[t]? = some task)
    (fs : Fs.Volume) (fd : Fd) :
    (descriptors (addFd (setFs k fs) t task fd).1).Perm ({ fd with isopen := true } :: descriptors k) := by
  obtain ⟨rest, hold, hnew⟩ := descriptors_split (k := setFs k fs) ht
  refine (hnew _ _).trans ?_
  exact ((openFds_add task.table fd).append_right rest).trans (hold.symm.cons _)

section calls

variable {k k' : Kernel} {t : ℕ} {task : Task}

theorem sound_close (h : Sound k) (ht : k.tasks[t]? = some task) (fdId : ℕ) :
    Sound (syscallClose k t task fdId).1 ∧ Kept k.objects (syscallClose k t task fdId).1.objects := by
  unfold syscallClose
  split
  · exact ⟨h, Kept.refl _⟩
  · split_ifs
    · exact ⟨h, Kept.refl _⟩
    · obtain ⟨rest, hold, hnew⟩ := descriptors_split ht
      have ha := accounted_closeAll [fdId] (h.accounted.perm hold)
      exact ⟨h.of_kept (ha.1.perm (hnew _ _).symm) ha.2 rfl, ha.2⟩

theorem sound_exit (h : Sound k) (ht : k.tasks[t]? = some task) :
    Sound (syscallExit k t task) ∧ Kept k.objects (syscallExit k t task).objects := by
  obtain ⟨rest, hold, hnew⟩ := descriptors_split ht
  have ha := accounted_closeAll (List.range task.table.records.length) (h.accounted.perm hold)
  exact ⟨h.of_kept (ha.1.perm (hnew _ _).symm) ha.2 rfl, ha.2⟩

theorem sound_dup (h : Sound k) (ht : k.tasks[t]? = some task) (index : ℕ) :
    Sound (syscallDup k t task index).1 ∧ Kept k.objects (syscallDup k t task index).1.objects := by
  unfold syscallDup fdTableDup
  cases hi : task.table.records[index]? with
  | none => exact ⟨h, Kept.refl _⟩
  | some fd =>
    simp only
    split_ifs with hopen
    · exact ⟨h, Kept.refl _⟩
    · obtain ⟨rest, hold, hnew⟩ := descriptors_split ht
      have hfd : fd.isopen = true := by simpa using hopen
      have hmem : fd ∈ openFds task.table ++ rest :=
        List.mem_append_left rest (List.mem_filter.mpr ⟨List.mem_of_getElem? hi, hfd⟩)
      have ha := accounted_cloneEntry (h.accounted.perm hold) hmem
      have hadd := openFds_add task.table fd
      have hself : { fd with isopen := true } = fd := by rw [← hfd]
      rw [hself] at hadd
      exact ⟨h.of_kept (ha.1.perm ((hadd.append_right rest).symm.trans (hnew _ _).symm)) ha.2 rfl, ha.2⟩

theorem sound_fork (h : Sound k) (ht : k.tasks[t]? = some task) :
    Sound (taskFork k task).1 ∧ Kept k.objects (taskFork k task).1.objects := by
  obtain ⟨hobjects, hopen⟩ := fdTableClone_eq k.unset k.objects task.table
  have hsub : openFds task.table ⊆ descriptors k := fun fd hfd =>
    List.mem_flatMap.mpr ⟨task, List.mem_of_getElem? ht, hfd⟩
  have ha := accounted_cloneEntries h.accounted hsub
  have hd : descriptors (taskFork k task).1 = descriptors k ++ openFds task.table := by
    rw [descriptors, taskFork, List.flatMap_append, List.flatMap_singleton, hopen]
    rfl
  have ho : (taskFork k task).1.objects = (openFds task.table).foldl fdTableCloneEntry k.objects := hobjects
  rw [← ho] at ha
  refine ⟨h.of_kept ?_ ha.2 rfl, ha.2⟩
  rw [hd]
  exact ha.1.perm List.perm_append_comm

theorem sound_pipe (h : Sound k) (ht : k.tasks[t]? = some task) :
    Sound (syscallPipe k t task).1 ∧ Kept k.objects (syscallPipe k t task).1.objects := by
  obtain ⟨rest, hold, hnew⟩ := descriptors_split ht
  have ha := accounted_allocPipe (h.accounted.perm hold) false rfl
  have hd := (openFds_addEnds task.table (.pipe k.objects.nextPipe)).append_right rest
  exact ⟨h.of_kept (ha.1.perm (hd.symm.trans (hnew _ _).symm)) ha.2 rfl, ha.2⟩

theorem sound_mqopen (h : Sound k) (ht : k.tasks[t]? = some task) (name : Str) :
    Sound (syscallMqopen k t task name).1 ∧
      Revived k.objects (syscallMqopen k t task name).1.objects k.mqlist name := by
  obtain ⟨rest, hold, hnew⟩ := descriptors_split ht
  obtain ⟨ha, hl, hr⟩ := accounted_mqlistOpen (h.accounted.perm hold) h.listed name
  have hd := (openFds_addEnds task.table (.mq (mqlistOpen k.objects k.mqlist name).2.2)).append_right rest
  have hk := hnew (mqlistOpen k.objects k.mqlist name).1
    (addEnds task.table (.mq (mqlistOpen k.objects k.mqlist name).2.2)).1
  exact ⟨⟨ha.perm (hd.symm.trans hk.symm), hl⟩, hr⟩

structure FsCall (k k' : Kernel) : Prop where
  objects : ∃ fs, k'.objects = { k.objects with fs := fs }
  mqlist : k'.mqlist = k.mqlist
  descriptors : ∃ extra : List Fd, (descriptors k').Perm (extra ++ descriptors k) ∧
    ∀ fd ∈ extra, pipeOf fd = none

theorem fsCall_setFs (k : Kernel) (fs : Fs.Volume) : FsCall k (setFs k fs) :=
  ⟨⟨fs, rfl⟩, rfl, [], List.Perm.refl _, fun _ hfd => absurd hfd List.not_mem_nil⟩

theorem fsCall_addFd (ht : k.tasks[t]? = some task) (fs : Fs.Volume) {fd : Fd}
    (hfd : pipeOf { fd with isopen := true } = none) : FsCall k (addFd (setFs k fs) t task fd).1 := by
  refine ⟨⟨fs, rfl⟩, rfl, [{ fd with isopen := true }], descriptors_addFd ht fs fd, ?_⟩
  intro fd' hfd'
  rw [List.mem_singleton.mp hfd', hfd]

theorem descriptors_setcwd (ht : k.tasks[t]? = some task) (fs : Fs.Volume) (cwd : Pathbuf.PathbufT) :
    (descriptors { setFs k fs with tasks := k.tasks.set t { task with cwd := cwd } }).Perm (descriptors k) := by
  obtain ⟨rest, hold, hnew⟩ := descriptors_split (k := k) ht
  have hset : descriptors { setFs k fs with tasks := k.tasks.set t { task with cwd := cwd } } =
      descriptors (setTable k t task k.objects task.table) := by
    unfold descriptors setTable
    simp only [List.flatMap_def, List.map_set]
  rw [hset]
  exact (hnew _ _).trans hold.symm

theorem fsCall_setcwd (ht : k.tasks[t]? = some task) (fs : Fs.Volume) (cwd : Pathbuf.PathbufT) :
    FsCall k { setFs k fs with tasks := k.tasks.set t { task with cwd := cwd } } :=
  ⟨⟨fs, rfl⟩, rfl, [], descriptors_setcwd ht fs cwd, fun _ hfd => absurd hfd List.not_mem_nil⟩

theorem fsCall_open {path : Str} {flags : ℕ} (ht : k.tasks[t]? = some task)
    (h : perform k t task (.open path flags) = some k') : FsCall k k' := by
  obtain ⟨⟨_, reply⟩, hr, rfl⟩ := Option.map_eq_some_iff.mp h
  obtain ⟨⟨fs, node, res⟩, -, hr⟩ := Option.bind_eq_some_iff.mp hr
  simp only at hr
  split_ifs at hr with hres
  · cases hr
    exact fsCall_setFs k fs
  · obtain ⟨node, -, hr⟩ := Option.map_eq_some_iff.mp hr
    rw [← hr]
    exact fsCall_addFd ht fs rfl

theorem fsCall_opendir {path : Str} (ht : k.tasks[t]? = some task)
    (h : perform k t task (.opendir path) = some k') : FsCall k k' := by
  obtain ⟨⟨_, reply⟩, hr, rfl⟩ := Option.map_eq_some_iff.mp h
  obtain ⟨⟨fs, node, res⟩, -, hr⟩ := Option.bind_eq_some_iff.mp hr
  simp only at hr
  split_ifs at hr with hres
  · cases hr
    exact fsCall_setFs k fs
  · obtain ⟨node, -, hr⟩ := Option.map_eq_some_iff.mp hr
    rw [← hr]
    exact fsCall_addFd ht fs rfl

theorem fsCall_setcwd_perform {path : Str} (ht : k.tasks[t]? = some task)
    (h : perform k t task (.setcwd path) = some k') : FsCall k k' := by
  obtain ⟨⟨_, reply⟩, hr, rfl⟩ := Option.map_eq_some_iff.mp h
  obtain ⟨⟨fs, dir, res⟩, -, hr⟩ := Option.map_eq_some_iff.mp hr
  simp only at hr
  split_ifs at hr with hres
  · cases hr
    exact fsCall_setFs k (Fs.fsClose fs dir)
  · cases hr
    exact fsCall_setcwd ht (Fs.fsClose fs dir) (Pathbuf.resolvePath task.cwd (Pathbuf.pathbufParse path))

theorem fsCall_mkdir {path : Str} (h : perform k t task (.mkdir path) = some k') : FsCall k k' := by
  obtain ⟨⟨_, reply⟩, hr, rfl⟩ := Option.map_eq_some_iff.mp h
  obtain ⟨⟨fs, node, res⟩, -, hr⟩ := Option.map_eq_some_iff.mp hr
  cases hr
  exact fsCall_setFs k (Fs.fsClose fs node)

theorem fsCall_stat {path : Str} (h : perform k t task (.stat path) = some k') : FsCall k k' := by
  obtain ⟨⟨_, reply⟩, hr, rfl⟩ := Option.map_eq_some_iff.mp h
  obtain ⟨⟨fs, node, res⟩, -, hr⟩ := Option.map_eq_some_iff.mp hr
  simp only at hr
  split_ifs at hr with hres
  · cases hr
    exact fsCall_setFs k fs
  · cases hr
    exact fsCall_setFs k fs

theorem fsCall_exec {path : Str} (h : perform k t task (.exec path) = some k') : FsCall k k' := by
  obtain ⟨⟨_, reply⟩, hr, rfl⟩ := Option.map_eq_some_iff.mp h
  obtain ⟨⟨fs, node, res⟩, -, hr⟩ := Option.map_eq_some_iff.mp hr
  cases hr
  exact fsCall_setFs k fs

theorem FsCall.sound (hc : FsCall k k') (h : Sound k) : Sound k' ∧ Kept k.objects k'.objects := by
  obtain ⟨fs, ho⟩ := hc.objects
  obtain ⟨extra, hd, hextra⟩ := hc.descriptors
  exact sound_setFs h ho hc.mqlist hd hextra

theorem sound_perform {c : Call} (h : Sound k) (ht : k.tasks[t]? = some task)
    (hc : perform k t task c = some k') :
    Sound k' ∧ (Kept k.objects k'.objects ∨
      ∃ name, c = .mqopen name ∧ Revived k.objects k'.objects k.mqlist name) := by
  have fsCall (hf : FsCall k k') : Sound k' ∧ (Kept k.objects k'.objects ∨
      ∃ name, c = .mqopen name ∧ Revived k.objects k'.objects k.mqlist name) :=
    ⟨(hf.sound h).1, Or.inl (hf.sound h).2⟩
  cases c with
  | «open» path flags => exact fsCall (fsCall_open ht hc)
  | opendir path => exact fsCall (fsCall_opendir ht hc)
  | mkdir path => exact fsCall (fsCall_mkdir hc)
  | stat path => exact fsCall (fsCall_stat hc)
  | setcwd path => exact fsCall (fsCall_setcwd_perform ht hc)
  | exec path => exact fsCall (fsCall_exec hc)
  | close fdId =>
    obtain rfl := Option.some.inj hc
    exact ⟨(sound_close h ht fdId).1, Or.inl (sound_close h ht fdId).2⟩
  | dup index =>
    obtain rfl := Option.some.inj hc
    exact ⟨(sound_dup h ht index).1, Or.inl (sound_dup h ht index).2⟩
  | fork =>
    obtain rfl := Option.some.inj hc
    exact ⟨(sound_fork h ht).1, Or.inl (sound_fork h ht).2⟩
  | exit =>
    obtain rfl := Option.some.inj hc
    exact ⟨(sound_exit h ht).1, Or.inl (sound_exit h ht).2⟩
  | pipe =>
    obtain rfl := Option.some.inj hc
    exact ⟨(sound_pipe h ht).1, Or.inl (sound_pipe h ht).2⟩
  | mqopen name =>
    obtain rfl := Option.some.inj hc
    exact ⟨(sound_mqopen h ht name).1, Or.inr ⟨name, rfl, (sound_mqopen h ht name).2⟩⟩

end calls

open Library.Runs

theorem sound_step {k k' : Kernel} {a : ℕ × Call} (h : Sound k) (hs : step k a = some k') :
    Sound k' ∧ (Kept k.objects k'.objects ∨
      ∃ name, a.2 = .mqopen name ∧ Revived k.objects k'.objects k.mqlist name) := by
  obtain ⟨task, ht, hp, -⟩ := step_eq_some.mp hs
  exact sound_perform h ht hp

theorem sound_exec {objects : Objects} {unset : Fd} {calls : List (ℕ × Call)} {k : Kernel}
    (h : exec step (boot objects unset) calls = some k) : Sound k :=
  exec_invariant (fun _ _ _ hk _ hs => (sound_step hk hs).1)
    (sound_boot objects unset) (meets_true _ _) h

/-- The counters, the life and the users of every pipe. -/
structure EndpointsSafe (k : Kernel) : Prop where
  readers : ∀ p < k.objects.nextPipe, (k.objects.pipes p).readerCount =
    (descriptors k).countP fun fd => pipeOf fd = some p ∧ fd.access = fdAccessRead
  writers : ∀ p < k.objects.nextPipe, (k.objects.pipes p).writerCount =
    (descriptors k).countP fun fd => pipeOf fd = some p ∧ fd.access = fdAccessWrite
  destroyed : ∀ p < k.objects.nextPipe, (k.objects.pipes p).dead = true ↔
    (k.objects.pipes p).readerCount = 0 ∧ (k.objects.pipes p).writerCount = 0
  drained : ∀ p < k.objects.nextPipe, (k.objects.pipes p).dead = true → (k.objects.pipes p).list = []
  freedOnce : ∀ p < k.objects.nextPipe, k.objects.frees p =
    if (k.objects.pipes p).dead = true ∧ k.objects.queue p = false then 1 else 0
  inUse : ∀ fd ∈ descriptors k, ∀ p, pipeOf fd = some p →
    p < k.objects.nextPipe ∧ (k.objects.pipes p).dead = false ∧ k.objects.frees p = 0

theorem count_ends (access p : ℕ) (fds : List Fd) : (ends access fds).count p =
    fds.countP fun fd => pipeOf fd = some p ∧ fd.access = access := by
  rw [ends, List.count_filterMap]
  apply List.countP_congr
  intro fd _
  by_cases ha : fd.access = access <;> simp [ha]

theorem Sound.endpointsSafe {k : Kernel} (h : Sound k) : EndpointsSafe k where
  readers := fun p hp => by
    rw [← count_ends]
    exact (h.accounted.counted fdAccessRead (Or.inl rfl)).counted p hp
  writers := fun p hp => by
    rw [← count_ends]
    exact (h.accounted.counted fdAccessWrite (Or.inr rfl)).counted p hp
  destroyed := fun p hp => (h.accounted.settled p hp).dead
  drained := fun p hp => (h.accounted.settled p hp).drained
  freedOnce := fun p hp => (h.accounted.settled p hp).freed
  inUse := fun _ hfd _ hp => h.accounted.alive hfd hp

/-- In every run, the counters are the numbers of the open descriptors, a pipe is destroyed exactly when
both are zero, and a pipe that is dead stays as it is, unless `mqopen` makes a new one of a queue's. -/
theorem endpointsSafe_exec (objects : Objects) (unset : Fd) (calls : List (ℕ × Call)) (k : Kernel)
    (h : exec step (boot objects unset) calls = some k) :
    EndpointsSafe k ∧ ∀ a k', step k a = some k' → ∀ p < k.objects.nextPipe,
      (k.objects.pipes p).dead = true → k'.objects.pipes p = k.objects.pipes p ∨
        k'.objects.pipes p = pipeNew ∧ k.objects.queue p = true ∧ ∃ name, a.2 = .mqopen name ∧
          ∃ e ∈ k.mqlist, e.name = name ∧ e.pipe = p := by
  have hk := sound_exec h
  refine ⟨hk.endpointsSafe, fun a k' hs p hp hd => ?_⟩
  rcases (sound_step hk hs).2 with hkept | ⟨name, ha, hr⟩
  · exact Or.inl ((hkept.2 p hp).2 hd)
  · rcases hr p hp hd with he | ⟨he, hq, hentry⟩
    · exact Or.inl he
    · exact Or.inr ⟨he, hq, name, ha, hentry⟩

theorem endpointsSafe_shared : ∃ k, exec step (boot blankObjects blankFd)
    [(0, .pipe), (0, .fork), (0, .close 2), (0, .close 3), (1, .exit)] = some k ∧
      EndpointsSafe k ∧ (k.objects.pipes 0).dead = true ∧ k.objects.frees 0 = 1 := by
  refine ⟨_, rfl, (endpointsSafe_exec blankObjects blankFd
    [(0, .pipe), (0, .fork), (0, .close 2), (0, .close 3), (1, .exit)] _ rfl).1, ?_, ?_⟩
  · rfl
  · rfl

end Eedox.Endpoints
