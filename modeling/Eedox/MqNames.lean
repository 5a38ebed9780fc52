import Eedox.Endpoints
import Mathlib.Data.List.Nodup

namespace Eedox.MqNames

open Util Pipe Descriptor Mq Syscall Endpoints

/-- `mqlist_t` with its two vectors. -/
structure MqVecs where
  names : List Str
  pipes : List ℕ

inductive Search
  | found (entPipe : ℕ)
  | absent (freeIndex : Option ℕ)

/-- The loop of `mqlist_open` from entry `i` on. -/
def search (o : Objects) (name : Str) : List Str → List ℕ → ℕ → Option ℕ → Search
  | entName :: names, entPipe :: pipes, i, freeIndex =>
    if strcmp entName.chars name.chars = 0 then .found entPipe
    else search o name names pipes (i + 1)
      (if freeIndex = none ∧ (o.pipes entPipe).dead then some i else freeIndex)
  | _, _, _, freeIndex => .absent freeIndex

/-- The null pointer that is pushed before the name is set. -/
def noName : Str := ⟨[], nul_nil⟩

def mqlistOpenVecs (o : Objects) (list : MqVecs) (name : Str) : Objects × MqVecs × ℕ :=
  match search o name list.names list.pipes 0 none with
  | .found entPipe => (reopenPipe o entPipe, list, entPipe)
  | .absent freeIndex =>
    let list := if freeIndex = none then ⟨list.names ++ [noName], list.pipes ++ [0]⟩ else list
    let freeIndex := freeIndex.getD (list.names.length - 1)
    let pipe := o.nextPipe
    (allocPipe o true, ⟨list.names.set freeIndex name, list.pipes.set freeIndex pipe⟩, pipe)

def vecs (list : Mqlist) : MqVecs := ⟨list.map QueueEntry.name, list.map QueueEntry.pipe⟩

variable {o : Objects} {list : Mqlist} {name : Str}

/-- One pass finds the name, or else the first dead entry. -/
theorem search_eq (i : ℕ) (freeIndex : Option ℕ) :
    search o name (list.map QueueEntry.name) (list.map QueueEntry.pipe) i freeIndex =
      match list.find? fun entry => strcmp entry.name.chars name.chars = 0 with
      | some entry => .found entry.pipe
      | none => .absent (freeIndex.or ((list.findIdx? fun entry => (o.pipes entry.pipe).dead).map (· + i))) := by
  induction list generalizing i freeIndex with
  | nil => simp [search]
  | cons entry list ih =>
    rw [List.map_cons, List.map_cons, search, List.find?_cons]
    by_cases hname : strcmp entry.name.chars name.chars = 0
    · simp [hname]
    · rw [if_neg hname, ih]
      simp only [hname, decide_false]
      cases list.find? fun entry => strcmp entry.name.chars name.chars = 0 with
      | some found => rfl
      | none =>
        rw [List.findIdx?_cons]
        cases freeIndex with
        | some j => simp
        | none =>
          cases hdead : (o.pipes entry.pipe).dead
          · simp only [Bool.false_eq_true, and_false, if_false, Option.none_or, Option.map_map]
            congr 2
            funext j
            simp only [Function.comp_apply]
            omega
          · simp

/-- The two vectors stay aligned: they are the two columns of one list of entries. -/
theorem mqlistOpenVecs_eq : mqlistOpenVecs o (vecs list) name =
    ((mqlistOpen o list name).1, vecs (mqlistOpen o list name).2.1, (mqlistOpen o list name).2.2) := by
  unfold mqlistOpenVecs mqlistOpen
  rw [vecs, search_eq]
  cases list.find? fun entry => strcmp entry.name.chars name.chars = 0 with
  | some entry => rfl
  | none =>
    simp only [Option.none_or, Nat.add_zero, Option.map_id']
    cases hfree : list.findIdx? fun entry => (o.pipes entry.pipe).dead with
    | none =>
      have hidx : (list.findIdx fun entry => (o.pipes entry.pipe).dead) = list.length := by
        rw [List.findIdx_eq_length]
        exact List.findIdx?_eq_none_iff.mp hfree
      rw [if_pos hidx]
      simp [vecs]
    | some j =>
      obtain ⟨hlt, hidx⟩ := List.findIdx?_eq_some_iff_findIdx_eq.mp hfree
      rw [hidx, if_neg (Nat.ne_of_lt hlt)]
      simp [vecs]

/-- Entries differ in their names and in their pipes. -/
structure Distinct (list : Mqlist) : Prop where
  names : (list.map QueueEntry.name).Nodup
  pipes : (list.map QueueEntry.pipe).Nodup

/-- What one call of `mqlist_open` promises. -/
structure Opens (o : Objects) (list : Mqlist) (name : Str) (r : Objects × Mqlist × ℕ) : Prop where
  live : ∀ e ∈ list, e.name = name → (o.pipes e.pipe).dead = false → r.2.2 = e.pipe ∧
    r.1.pipes e.pipe = { o.pipes e.pipe with
      readerCount := (o.pipes e.pipe).readerCount + 1
      writerCount := (o.pipes e.pipe).writerCount + 1 }
  fresh : (∀ e ∈ list, e.name = name → (o.pipes e.pipe).dead = true) → r.1.pipes r.2.2 = pipeNew
  registered : ⟨name, r.2.2⟩ ∈ r.2.1
  others : ∀ p < o.nextPipe, (o.pipes p).dead = false → ⟨name, p⟩ ∉ list →
    r.2.2 ≠ p ∧ r.1.pipes p = o.pipes p
  kept : ∀ e ∈ list, (o.pipes e.pipe).dead = false → e ∈ r.2.1

theorem find_name {e : QueueEntry}
    (h : (list.find? fun entry => strcmp entry.name.chars name.chars = 0) = some e) :
    e ∈ list ∧ e.name = name := by
  have hname := List.find?_some h
  rw [decide_eq_true_eq, Str.strcmp_eq_zero] at hname
  exact ⟨List.mem_of_find?_eq_some h, hname⟩

theorem find_none (h : (list.find? fun entry => strcmp entry.name.chars name.chars = 0) = none) :
    ∀ e ∈ list, e.name ≠ name := by
  intro e he hname
  have hno := List.find?_eq_none.mp h e he
  rw [decide_eq_true_eq, Str.strcmp_eq_zero] at hno
  exact hno hname

theorem Distinct.same_name (hd : Distinct list) {a b : QueueEntry} (ha : a ∈ list) (hb : b ∈ list)
    (h : a.name = b.name) : a = b := List.inj_on_of_nodup_map hd.names ha hb h

/-- A new name takes the place of no entry that is in use. -/
theorem mem_set_dead {e : QueueEntry} {j : ℕ} (h : e ∈ list) (hdead : (o.pipes e.pipe).dead = false)
    (hj : (list.findIdx? fun entry => (o.pipes entry.pipe).dead) = some j) (new : QueueEntry) :
    e ∈ list.set j new := by
  obtain ⟨hlt, hfound, -⟩ := List.findIdx?_eq_some_iff_getElem.mp hj
  obtain ⟨i, hi, rfl⟩ := List.getElem_of_mem h
  have hij : j ≠ i := by
    rintro rfl
    rw [hdead] at hfound
    cases hfound
  exact List.mem_iff_getElem.mpr ⟨i, by simpa using hi, List.getElem_set_of_ne hij new _⟩

/-- An entry for a name that is not listed. -/
theorem mqlistOpen_new (hnew : ∀ e ∈ list, e.name ≠ name) :
    (mqlistOpen o list name).1 = allocPipe o true ∧ (mqlistOpen o list name).2.2 = o.nextPipe ∧
      ((mqlistOpen o list name).2.1 = list ++ [⟨name, o.nextPipe⟩] ∨
        ∃ j < list.length, (list.findIdx? fun entry => (o.pipes entry.pipe).dead) = some j ∧
          (mqlistOpen o list name).2.1 = list.set j ⟨name, o.nextPipe⟩) := by
  unfold mqlistOpen
  cases hf : list.find? fun entry => strcmp entry.name.chars name.chars = 0 with
  | some e =>
    obtain ⟨he, hname⟩ := find_name hf
    exact absurd hname (hnew e he)
  | none =>
    simp only
    split_ifs with hfree
    · exact ⟨rfl, rfl, Or.inl rfl⟩
    · have hlt := lt_of_le_of_ne List.findIdx_le_length hfree
      exact ⟨rfl, rfl, Or.inr ⟨_, hlt, List.findIdx?_eq_some_iff_findIdx_eq.mpr ⟨hlt, rfl⟩, rfl⟩⟩

theorem mqlistOpen_old {e : QueueEntry} (hd : Distinct list) (he : e ∈ list) (hname : e.name = name) :
    mqlistOpen o list name = (reopenPipe o e.pipe, list, e.pipe) := by
  unfold mqlistOpen
  cases hf : list.find? fun entry => strcmp entry.name.chars name.chars = 0 with
  | some e' =>
    obtain ⟨he', hname'⟩ := find_name hf
    rw [hd.same_name he he' (hname.trans hname'.symm)]
  | none => exact absurd hname (find_none hf e he)

theorem distinct_mqlistOpen (hd : Distinct list) (hl : Listed o list) :
    Distinct (mqlistOpen o list name).2.1 := by
  by_cases hold : ∃ e ∈ list, e.name = name
  · obtain ⟨e, he, hname⟩ := hold
    rw [mqlistOpen_old hd he hname]
    exact hd
  · have hnew : ∀ e ∈ list, e.name ≠ name := fun e he hname => hold ⟨e, he, hname⟩
    have hname : name ∉ list.map QueueEntry.name := by
      intro hmem
      obtain ⟨e, he, hname⟩ := List.mem_map.mp hmem
      exact hnew e he hname
    have hpipe : o.nextPipe ∉ list.map QueueEntry.pipe := by
      intro hmem
      obtain ⟨e, he, hplace⟩ := List.mem_map.mp hmem
      have hlt := (hl e he).1
      omega
    obtain ⟨-, -, hlist | ⟨j, -, -, hlist⟩⟩ := mqlistOpen_new (o := o) hnew
    · rw [hlist]
      refine ⟨?_, ?_⟩
      · rw [List.map_append]
        exact hd.names.append (List.nodup_singleton _) (by simpa using hname)
      · rw [List.map_append]
        exact hd.pipes.append (List.nodup_singleton _) (by simpa using hpipe)
    · rw [hlist]
      refine ⟨?_, ?_⟩
      · rw [List.map_set]
        exact hd.names.set hname
      · rw [List.map_set]
        exact hd.pipes.set hpipe

theorem opens_mqlistOpen (hd : Distinct list) :
    Opens o list name (mqlistOpen o list name) := by
  by_cases hold : ∃ e ∈ list, e.name = name
  · obtain ⟨e, he, hname⟩ := hold
    rw [mqlistOpen_old hd he hname]
    refine ⟨fun e' he' hname' hlive => ?_, fun hdead => ?_, hname ▸ he, fun p _ _ hp => ?_, fun e' he' _ => he'⟩
    · obtain rfl := hd.same_name he he' (hname.trans hname'.symm)
      simp [reopenPipe, setPipe, hlive]
    · simp [reopenPipe, setPipe, hdead e he hname]
    · have hne : p ≠ e.pipe := by
        rintro rfl
        exact hp (hname ▸ he)
      refine ⟨hne.symm, ?_⟩
      simp [reopenPipe, setPipe, hne]
  · have hnew : ∀ e ∈ list, e.name ≠ name := fun e he hname => hold ⟨e, he, hname⟩
    obtain ⟨hobjects, hptr, hlist⟩ := mqlistOpen_new (o := o) hnew
    refine ⟨fun e he hname => absurd hname (hnew e he), fun _ => ?_, ?_, fun p hp _ _ => ?_, fun e he hlive => ?_⟩
    · rw [hobjects, hptr]
      simp [allocPipe, setPipe]
    · rw [hptr]
      rcases hlist with hlist | ⟨j, hlt, -, hlist⟩
      · rw [hlist]
        exact List.mem_append_right _ List.mem_cons_self
      · rw [hlist]
        exact List.mem_set hlt _
    · rw [hobjects, hptr]
      refine ⟨by omega, ?_⟩
      have hne : p ≠ o.nextPipe := by omega
      simp [allocPipe, setPipe, hne]
    · rcases hlist with hlist | ⟨j, -, hj, hlist⟩
      · rw [hlist]
        exact List.mem_append_left _ he
      · rw [hlist]
        exact mem_set_dead he hlive hj _

section Runs

open Library.Runs

variable {k k' : Kernel} {t : ℕ} {task : Task} {c : Call}

/-- Only `mqopen` changes the list. -/
theorem mqlist_perform (ht : k.tasks[t]? = some task) (h : perform k t task c = some k') :
    k'.mqlist = k.mqlist ∨ ∃ name, c = .mqopen name ∧
      k'.mqlist = (mqlistOpen k.objects k.mqlist name).2.1 ∧
      k'.objects = (mqlistOpen k.objects k.mqlist name).1 := by
  cases c with
  | «open» path flags => exact Or.inl (fsCall_open ht h).mqlist
  | opendir path => exact Or.inl (fsCall_opendir ht h).mqlist
  | mkdir path => exact Or.inl (fsCall_mkdir h).mqlist
  | stat path => exact Or.inl (fsCall_stat h).mqlist
  | setcwd path => exact Or.inl (fsCall_setcwd_perform ht h).mqlist
  | exec path => exact Or.inl (fsCall_exec h).mqlist
  | close fdId =>
    obtain rfl := Option.some.inj h
    unfold syscallClose
    split
    · exact Or.inl rfl
    · split_ifs <;> exact Or.inl rfl
  | dup index =>
    obtain rfl := Option.some.inj h
    unfold syscallDup
    split
    · exact Or.inl rfl
    · split_ifs <;> exact Or.inl rfl
  | fork =>
    obtain rfl := Option.some.inj h
    exact Or.inl rfl
  | exit =>
    obtain rfl := Option.some.inj h
    exact Or.inl rfl
  | pipe =>
    obtain rfl := Option.some.inj h
    exact Or.inl rfl
  | mqopen name =>
    obtain rfl := Option.some.inj h
    exact Or.inr ⟨name, rfl, rfl, rfl⟩

structure Named (k : Kernel) : Prop where
  sound : Sound k
  distinct : Distinct k.mqlist

theorem named_step {a : ℕ × Call} (h : Named k) (hs : step k a = some k') : Named k' := by
  obtain ⟨task, ht, hp, -⟩ := step_eq_some.mp hs
  refine ⟨(sound_step h.sound hs).1, ?_⟩
  rcases mqlist_perform ht hp with hsame | ⟨name, -, hlist, -⟩
  · rw [hsame]
    exact h.distinct
  · rw [hlist]
    exact distinct_mqlistOpen h.distinct h.sound.listed

theorem named_exec {objects : Objects} {unset : Fd} {calls : List (ℕ × Call)}
    (h : exec step (boot objects unset) calls = some k) : Named k :=
  exec_invariant (fun _ _ _ hk _ hs => named_step hk hs)
    ⟨sound_boot objects unset, ⟨List.nodup_nil, List.nodup_nil⟩⟩ (meets_true _ _) h

theorem kept_step {a : ℕ × Call} (h : Named k) (hs : step k a = some k') {e : QueueEntry}
    (he : e ∈ k.mqlist) (hlive : (k.objects.pipes e.pipe).dead = false) : e ∈ k'.mqlist := by
  obtain ⟨task, ht, hp, -⟩ := step_eq_some.mp hs
  rcases mqlist_perform ht hp with hsame | ⟨name, -, hlist, -⟩
  · rw [hsame]
    exact he
  · rw [hlist]
    exact (opens_mqlistOpen h.distinct).kept e he hlive

/-- In every run the names of the queues are distinct, a name finds its live pipe or an empty new one,
and no call takes a live pipe away from its name. -/
theorem naming_exec (objects : Objects) (unset : Fd) (calls : List (ℕ × Call)) (k : Kernel)
    (h : exec step (boot objects unset) calls = some k) :
    (vecs k.mqlist).names.Nodup ∧
      (∀ name, ∃ list, (mqlistOpenVecs k.objects (vecs k.mqlist) name).2.1 = vecs list ∧
        Opens k.objects k.mqlist name ((mqlistOpenVecs k.objects (vecs k.mqlist) name).1, list,
          (mqlistOpenVecs k.objects (vecs k.mqlist) name).2.2)) ∧
      ∀ a k', step k a = some k' → ∀ e ∈ k.mqlist, (k.objects.pipes e.pipe).dead = false → e ∈ k'.mqlist := by
  have hk := named_exec h
  refine ⟨hk.distinct.names, fun name => ?_, fun a k' hs e he hlive => kept_step hk hs he hlive⟩
  rw [mqlistOpenVecs_eq]
  exact ⟨_, rfl, opens_mqlistOpen hk.distinct⟩

def oldName : Str := ⟨[97], nul_a⟩

def newName : Str := ⟨[98], nul_b⟩

theorem naming_recycled : ∃ k, exec step (boot blankObjects blankFd)
    [(0, .mqopen oldName), (0, .close 2), (0, .close 3), (0, .mqopen newName)] = some k ∧
      (vecs k.mqlist).names = [newName] ∧ (vecs k.mqlist).names.Nodup ∧
      ∀ name, ∃ list, (mqlistOpenVecs k.objects (vecs k.mqlist) name).2.1 = vecs list ∧
        Opens k.objects k.mqlist name ((mqlistOpenVecs k.objects (vecs k.mqlist) name).1, list,
          (mqlistOpenVecs k.objects (vecs k.mqlist) name).2.2) := by
  obtain ⟨hnames, hopens, -⟩ := naming_exec blankObjects blankFd
    [(0, .mqopen oldName), (0, .close 2), (0, .close 3), (0, .mqopen newName)] _ rfl
  exact ⟨_, rfl, rfl, hnames, hopens⟩

end Runs

end Eedox.MqNames
