import Eedox.Semaphore
import Eedox.Ata
import Eedox.Library.Runs

namespace Eedox.DiskInterrupts

open Library.Runs Library.Bytes Semaphore Ata

inductive Op | read | write | flush
  deriving DecidableEq

/-- A call of `ata_read` or `ata_write`. The calls are numbered, and the number of a read stands for its
buffer; the bytes of a write are those in its buffer. -/
inductive Request
  | read (n sector : ℕ)
  | write (n sector : ℕ) (data : ℕ → UInt8)

inductive Command
  | read (n sector : ℕ)
  | write (sector : ℕ) (data : ℕ → UInt8)
  | flush

inductive Phase
  | out
  | queued (r : Request)
  | granted (r : Request)
  | sleeping (r : Request)
  | woken (r : Request)

/-- The globals of the driver, and the drive: the commands it has not completed, the completed ones whose
interrupt has not been handled, in order, and the sector that waits in its data port. -/
structure State where
  sem : Ksemaphore ℕ
  buffer : ℕ
  op : Op
  lba : ℕ
  task : Option ℕ
  phase : ℕ → Phase
  memory : ℕ → ℕ → UInt8
  calls : ℕ
  disk : Disk
  queue : List Command
  irqs : List Command
  port : Option (ℕ → UInt8)

inductive Action
  | read (t sector : ℕ)
  | write (t sector : ℕ) (data : ℕ → UInt8)
  | resume (t : ℕ)
  | complete
  | interrupt (stray : ℕ → UInt8)
  | finish (t : ℕ)

def init (disk : Disk) : State where
  sem := ksemaphoreInit 1
  buffer := 0
  op := .read
  lba := 0
  task := none
  phase := fun _ => .out
  memory := fun _ _ => 0
  calls := 0
  disk := disk
  queue := []
  irqs := []
  port := none

def Request.op : Request → Op
  | .read _ _ => .read
  | .write _ _ _ => .write

def Request.number : Request → ℕ
  | .read n _ | .write n _ _ => n

def Request.sector : Request → ℕ
  | .read _ sector | .write _ sector _ => sector

def Request.command : Request → Command
  | .read n sector => .read n sector
  | .write _ sector data => .write sector data

/-- Past the semaphore: the globals are set, the drive is polled until it is not busy, the command is
issued and the caller sleeps. Interrupts are off in the meantime. -/
def issue (s : State) (t : ℕ) (r : Request) : Option State :=
  if s.queue = [] then
    some { s with buffer := r.number, op := r.op, lba := r.sector, queue := [r.command],
                  task := some t, phase := Function.update s.phase t (.sleeping r) }
  else none

def call (s : State) (t : ℕ) (r : Request) : Option State :=
  let waited := { s with sem := ksemaphoreWait s.sem t, calls := s.calls + 1 }
  if mustSleep s.sem then
    some { waited with phase := Function.update s.phase t (.queued r) }
  else issue waited t r

def complete (s : State) (c : Command) (rest : List Command) : State :=
  let done := { s with queue := rest, irqs := s.irqs ++ [c] }
  match c with
  | .read _ sector => { done with port := some (ataRead s.disk sector) }
  | .write sector data => { done with disk := ataWrite s.disk sector data }
  | .flush => done

def Phase.awake : Phase → Phase
  | .sleeping r => .woken r
  | ph => ph

def wakeTask (s : State) : State :=
  match s.task with
  | none => s
  | some t => { s with phase := Function.update s.phase t (s.phase t).awake, task := none }

def ihandler (s : State) (stray : ℕ → UInt8) : State :=
  match s.op with
  | .write => wakeTask { s with op := .flush, queue := s.queue ++ [.flush] }
  | .read =>
    wakeTask { s with
      memory := Function.update s.memory s.buffer
        (blit (s.memory s.buffer) 0 (s.port.getD stray) 512)
      port := none }
  | .flush => wakeTask s

def Phase.pop : Phase → Phase
  | .queued r => .granted r
  | ph => ph

def finish (s : State) (t : ℕ) : State :=
  let next := ksemaphoreSignal s.sem
  let phase := Function.update s.phase t .out
  { s with
    sem := next.1
    phase := match next.2 with
      | none => phase
      | some u => Function.update phase u (phase u).pop }

def step (s : State) : Action → Option State
  | .read t sector =>
    match s.phase t with
    | .out => call s t (.read s.calls sector)
    | _ => none
  | .write t sector data =>
    match s.phase t with
    | .out => call s t (.write s.calls sector data)
    | _ => none
  | .resume t =>
    match s.phase t with
    | .granted r => issue s t r
    | _ => none
  | .complete =>
    match s.queue with
    | c :: rest => some (complete s c rest)
    | [] => none
  | .interrupt stray =>
    match s.irqs with
    | _ :: rest => some (ihandler { s with irqs := rest } stray)
    | [] => none
  | .finish t =>
    match s.phase t with
    | .woken _ => some (finish s t)
    | _ => none

/-- A reader is only woken by the interrupt of its own command, the handler only copies a sector for
that interrupt, into the buffer of the reader, and a reader returns with what its sector holds. -/
structure Proper (s : State) (a : Action) (s' : State) : Prop where
  woken : ∀ t n sector, s.phase t = .sleeping (.read n sector) → s'.phase t ≠ s.phase t →
    ∃ stray, a = .interrupt stray ∧ s.irqs.head? = some (.read n sector)
  copied : ∀ stray, a = .interrupt stray → s.op = .read → ∃ t sector,
    s.phase t = .sleeping (.read s.buffer sector) ∧ s.irqs.head? = some (.read s.buffer sector)
  returned : ∀ t n sector, a = .finish t → s.phase t = .woken (.read n sector) →
    ∀ o < 512, s.memory n o = ataRead s.disk sector o

/-- No READ command is issued while the interrupt of an earlier command is still to be handled. -/
def Quiet (s : State) : Action → Prop
  | .read _ _ => mustSleep s.sem = false → s.irqs = []
  | .resume t => ∀ n sector, s.phase t = .granted (.read n sector) → s.irqs = []
  | _ => True

def Phase.inside : Phase → Bool
  | .granted _ | .sleeping _ | .woken _ => true
  | .out | .queued _ => false

def Locked (sem : Ksemaphore ℕ) (phase : ℕ → Phase) (holder : Option ℕ) : Prop :=
  Exclusive sem (fun t => ∃ r, phase t = .queued r) (fun t => (phase t).inside = true) holder

/-- The one command that a sleeping reader has issued is in the drive or has its sector in the port. -/
def InFlight (s : State) (n sector : ℕ) : Prop :=
  s.queue = [.read n sector] ∧ s.irqs = [] ∨
    s.queue = [] ∧ s.irqs = [.read n sector] ∧ s.port = some (ataRead s.disk sector)

structure Driven (s : State) : Prop where
  sleeper : ∀ t, s.task = some t ↔ ∃ r, s.phase t = .sleeping r
  reading : ∀ t n sector, s.phase t = .sleeping (.read n sector) →
    s.op = .read ∧ s.buffer = n ∧ InFlight s n sector
  idle : s.op = .read → (∃ t n sector, s.phase t = .sleeping (.read n sector)) ∨
    s.queue = [] ∧ s.irqs = []
  done : ∀ t n sector, s.phase t = .woken (.read n sector) →
    s.op = .read ∧ ∀ o < 512, s.memory n o = ataRead s.disk sector o
  reads : ∀ n sector, .read n sector ∈ s.queue ++ s.irqs →
    ∃ t, s.phase t = .sleeping (.read n sector)

theorem locked_init (disk : Disk) : Locked (init disk).sem (init disk).phase none :=
  exclusive_init (by simp [init]) (by simp [init, Phase.inside])

section Lock

variable {sem : Ksemaphore ℕ} {phase : ℕ → Phase} {holder : Option ℕ} {t : ℕ}

theorem not_queued_of_inside {ph : Phase} (h : ph.inside = true) : ¬ ∃ r, ph = .queued r := by
  rintro ⟨r, rfl⟩
  cases h

theorem Locked.inside_update (h : Locked sem phase holder) (ht : (phase t).inside = true) {ph : Phase}
    (hph : ph.inside = true) : Locked sem (Function.update phase t ph) holder := by
  refine Exclusive.congr h (fun u => ?_) fun u => ?_
  · by_cases hu : u = t
    · subst hu
      rw [Function.update_self]
      exact iff_of_false (not_queued_of_inside hph) (not_queued_of_inside ht)
    · rw [Function.update_of_ne hu]
  · by_cases hu : u = t
    · subst hu
      simp [ht, hph]
    · rw [Function.update_of_ne hu]

theorem locked_queue (h : Locked sem phase holder) (ht : phase t = .out) (hm : mustSleep sem = true)
    (r : Request) : Locked (ksemaphoreWait sem t) (Function.update phase t (.queued r)) holder := by
  refine Exclusive.congr (exclusive_queue h (by simp [ht]) hm) (fun u => ?_) fun u => ?_
  · by_cases hu : u = t
    · subst hu
      simp
    · simp [hu]
  · by_cases hu : u = t
    · subst hu
      simp [ht, Phase.inside]
    · rw [Function.update_of_ne hu]

theorem locked_enter (h : Locked sem phase holder) (ht : phase t = .out) (hm : mustSleep sem = false)
    {ph : Phase} (hph : ph.inside = true) :
    holder = none ∧ Locked (ksemaphoreWait sem t) (Function.update phase t ph) (some t) := by
  obtain ⟨hnone, -, he⟩ := exclusive_enter h t hm
  refine ⟨hnone, Exclusive.congr he (fun u => ?_) fun u => ?_⟩
  · by_cases hu : u = t
    · subst hu
      rw [Function.update_self]
      exact iff_of_false (not_queued_of_inside hph) (by simp [ht])
    · rw [Function.update_of_ne hu]
  · by_cases hu : u = t
    · subst hu
      simp [hph]
    · rw [Function.update_of_ne hu, h.inside, hnone]
      simp [hu]

theorem locked_signal (h : Locked sem phase holder) (ht : (phase t).inside = true) :
    Locked (ksemaphoreSignal sem).1
      (match sem.sq.head? with
        | none => Function.update phase t .out
        | some u => Function.update (Function.update phase t .out) u
            (Function.update phase t .out u).pop) sem.sq.head? := by
  have hothers : ∀ u, u ≠ t → ¬ (phase u).inside = true := fun u hu hin => hu (h.unique hin ht)
  cases hsq : sem.sq.head? with
  | none =>
    have he := exclusive_signal h ht
    rw [hsq] at he
    refine Exclusive.congr he (fun u => ?_) fun u => ?_
    · by_cases hu : u = t
      · subst hu
        simp [not_queued_of_inside ht]
      · simp [hu]
    · by_cases hu : u = t
      · subst hu
        simp [Phase.inside]
      · simp [hu, hothers u hu]
  | some v =>
    have he := exclusive_signal h ht
    rw [hsq] at he
    obtain ⟨r, hr⟩ := (h.queued v).mp (List.mem_of_mem_head? (Option.mem_def.mpr hsq))
    have hvt : v ≠ t := by
      rintro rfl
      simp [hr, Phase.inside] at ht
    refine Exclusive.congr he (fun u => ?_) fun u => ?_
    · by_cases huv : u = v
      · subst huv
        simp [Function.update_of_ne hvt, hr, Phase.pop]
      · simp only [ne_eq, huv, not_false_eq_true, Function.update_of_ne]
        by_cases hu : u = t
        · subst hu
          simp [not_queued_of_inside ht]
        · simp [hu, Ne.symm huv]
    · by_cases huv : u = v
      · subst huv
        simp [Function.update_of_ne hvt, hr, Phase.pop, Phase.inside]
      · simp only [ne_eq, huv, not_false_eq_true, Function.update_of_ne]
        by_cases hu : u = t
        · subst hu
          simp [Phase.inside, hvt]
        · simp [hu, hothers u hu, Ne.symm huv]

end Lock

theorem driven_init (disk : Disk) : Driven (init disk) where
  sleeper := by simp [init]
  reading := fun t n sector h => by cases h
  idle := fun _ => Or.inr ⟨rfl, rfl⟩
  done := fun t n sector h => by cases h
  reads := fun n sector h => absurd h List.not_mem_nil

section Drive

variable {s : State} {t : ℕ}

theorem Driven.phases (h : Driven s) {sem : Ksemaphore ℕ} {calls : ℕ} {phase : ℕ → Phase}
    (hsleep : ∀ u r, phase u = .sleeping r ↔ s.phase u = .sleeping r)
    (hwoken : ∀ u r, phase u = .woken r → s.phase u = .woken r) :
    Driven { s with sem := sem, calls := calls, phase := phase } where
  sleeper := fun u => by simp only [hsleep, h.sleeper]
  reading := fun u n sector hu => h.reading u n sector ((hsleep u _).mp hu)
  idle := fun hop => by simpa only [hsleep] using h.idle hop
  done := fun u n sector hu => h.done u n sector (hwoken u _ hu)
  reads := fun n sector hm => by simpa only [hsleep] using h.reads n sector hm

theorem driven_issue (h : Driven s) {r : Request} (hsleep : ∀ u r, s.phase u ≠ .sleeping r)
    (hwoken : ∀ u r, s.phase u ≠ .woken r) (hq : s.queue = [])
    (hquiet : ∀ n sector, r = .read n sector → s.irqs = []) {s' : State} (hs : issue s t r = some s') :
    Driven s' := by
  rw [issue, if_pos hq] at hs
  obtain rfl := Option.some.inj hs
  have hself : ∀ u r', Function.update s.phase t (.sleeping r) u = .sleeping r' → u = t ∧ r = r' := by
    intro u r' hu
    by_cases hut : u = t
    · subst hut
      exact ⟨rfl, by simpa using hu⟩
    · rw [Function.update_of_ne hut] at hu
      exact absurd hu (hsleep u r')
  constructor
  · intro u
    constructor
    · intro hu
      obtain rfl : t = u := Option.some.inj hu
      exact ⟨r, Function.update_self _ _ _⟩
    · rintro ⟨r', hu⟩
      rw [(hself u r' hu).1]
  · intro u n sector hu
    obtain ⟨-, rfl⟩ := hself u _ hu
    exact ⟨rfl, rfl, Or.inl ⟨rfl, hquiet n sector rfl⟩⟩
  · intro hop
    cases r with
    | read n sector => exact Or.inl ⟨t, n, sector, Function.update_self _ _ _⟩
    | write n sector data => cases hop
  · intro u n sector hu
    by_cases hut : u = t
    · subst hut
      simp at hu
    · change Function.update s.phase t _ u = _ at hu
      rw [Function.update_of_ne hut] at hu
      exact absurd hu (hwoken u _)
  · intro n sector hm
    rcases List.mem_append.mp hm with hm | hm
    · cases r with
      | read n' sector' =>
        obtain ⟨rfl, rfl⟩ := Command.read.inj (List.mem_singleton.mp hm)
        exact ⟨t, Function.update_self _ _ _⟩
      | write n' sector' data => cases List.mem_singleton.mp hm
    · obtain ⟨u, hu⟩ := h.reads n sector (List.mem_append_right _ hm)
      exact absurd hu (hsleep u _)

theorem driven_complete (h : Driven s) {c : Command} {rest : List Command} (hq : s.queue = c :: rest) :
    Driven (complete s c rest) := by
  have hne : s.queue ≠ [] := by simp [hq]
  -- while a reader sleeps, its own command is the only one
  have hflight : ∀ t n sector, s.phase t = .sleeping (.read n sector) →
      c = .read n sector ∧ rest = [] ∧ s.irqs = [] := by
    intro t n sector ht
    rcases (h.reading t n sector ht).2.2 with ⟨hq', hi⟩ | ⟨hq', -, -⟩
    · rw [hq] at hq'
      obtain ⟨hc, hr⟩ := List.cons_eq_cons.mp hq'
      exact ⟨hc, hr, hi⟩
    · exact absurd hq' hne
  have hdone : ∀ t n sector, s.phase t ≠ .woken (.read n sector) ∨
      ∃ u n sector, s.phase u = .sleeping (.read n sector) := by
    intro t n sector
    by_cases ht : s.phase t = .woken (.read n sector)
    · rcases h.idle (h.done t n sector ht).1 with hr | ⟨hq', -⟩
      · exact Or.inr hr
      · exact absurd hq' hne
    · exact Or.inl ht
  cases c with
  | read n sector =>
    refine ⟨h.sleeper, fun t n' sector' ht => ?_, fun hop => ?_, fun t n' sector' ht => ?_,
      fun n' sector' hm => ?_⟩
    · obtain ⟨hc, hr, hi⟩ := hflight t n' sector' ht
      obtain ⟨rfl, rfl⟩ := Command.read.inj hc
      obtain ⟨hop, hb, -⟩ := h.reading t n sector ht
      exact ⟨hop, hb, Or.inr ⟨hr, by simp [complete, hi], rfl⟩⟩
    · rcases h.idle hop with hr | ⟨hq', -⟩
      · exact Or.inl hr
      · exact absurd hq' hne
    · exact h.done t n' sector' ht
    · apply h.reads n' sector'
      simp only [complete, List.mem_append, List.mem_singleton] at hm
      simp only [hq, List.mem_append, List.mem_cons]
      tauto
  | write sector data =>
    have hno : ∀ t n sector, s.phase t ≠ .sleeping (.read n sector) := by
      intro t n sector ht
      cases (hflight t n sector ht).1
    refine ⟨h.sleeper, fun t n' sector' ht => absurd ht (hno t _ _), fun hop => ?_,
      fun t n' sector' ht => ?_, fun n' sector' hm => ?_⟩
    · rcases h.idle hop with hr | ⟨hq', -⟩
      · exact Or.inl hr
      · exact absurd hq' hne
    · rcases hdone t n' sector' with hw | ⟨u, n, sec, hu⟩
      · exact absurd ht hw
      · exact absurd hu (hno u n sec)
    · apply h.reads n' sector'
      simp only [complete, List.mem_append, List.mem_singleton] at hm
      simp only [hq, List.mem_append, List.mem_cons]
      tauto
  | flush =>
    have hno : ∀ t n sector, s.phase t ≠ .sleeping (.read n sector) := by
      intro t n sector ht
      cases (hflight t n sector ht).1
    refine ⟨h.sleeper, fun t n' sector' ht => absurd ht (hno t _ _), fun hop => ?_, h.done,
      fun n' sector' hm => ?_⟩
    · rcases h.idle hop with hr | ⟨hq', -⟩
      · exact Or.inl hr
      · exact absurd hq' hne
    · apply h.reads n' sector'
      simp only [complete, List.mem_append, List.mem_singleton] at hm
      simp only [hq, List.mem_append, List.mem_cons]
      tauto

theorem wakeTask_phase (h : ∀ t, s.task = some t ↔ ∃ r, s.phase t = .sleeping r) (u : ℕ) :
    (wakeTask s).phase u = (s.phase u).awake := by
  unfold wakeTask
  cases ht : s.task with
  | none =>
    cases hu : s.phase u with
    | sleeping r =>
      have := (h u).mpr ⟨r, hu⟩
      rw [ht] at this
      cases this
    | _ => rfl
  | some t =>
    simp only
    by_cases hut : u = t
    · subst hut
      simp
    · rw [Function.update_of_ne hut]
      cases hu : s.phase u with
      | sleeping r =>
        have := (h u).mpr ⟨r, hu⟩
        rw [ht] at this
        exact absurd (Option.some.inj this).symm hut
      | _ => rfl

theorem wakeTask_fields (s : State) : (wakeTask s).op = s.op ∧ (wakeTask s).queue = s.queue ∧
    (wakeTask s).irqs = s.irqs ∧ (wakeTask s).memory = s.memory ∧ (wakeTask s).disk = s.disk ∧
    (wakeTask s).task = none ∧ (wakeTask s).sem = s.sem := by
  unfold wakeTask
  cases ht : s.task with
  | none => exact ⟨rfl, rfl, rfl, rfl, rfl, ht, rfl⟩
  | some t => exact ⟨rfl, rfl, rfl, rfl, rfl, rfl, rfl⟩

theorem awake_ne_sleeping (ph : Phase) (r : Request) : ph.awake ≠ .sleeping r := by
  cases ph <;> simp [Phase.awake]

theorem awake_eq_woken {ph : Phase} {r : Request} (h : ph.awake = .woken r) :
    ph = .woken r ∨ ph = .sleeping r := by
  cases ph <;> simp_all [Phase.awake]

theorem driven_wakeTask (hsleeper : ∀ t, s.task = some t ↔ ∃ r, s.phase t = .sleeping r)
    (hidle : s.op = .read → s.queue = [] ∧ s.irqs = [])
    (hdone : ∀ t n sector, (s.phase t).awake = .woken (.read n sector) →
      s.op = .read ∧ ∀ o < 512, s.memory n o = ataRead s.disk sector o)
    (hreads : ∀ n sector, .read n sector ∉ s.queue ++ s.irqs) : Driven (wakeTask s) := by
  obtain ⟨hop, hq, hi, hm, hd, ht, -⟩ := wakeTask_fields s
  refine ⟨fun t => ?_, fun t n sector h => ?_, fun h => ?_, fun t n sector h => ?_, fun n sector h => ?_⟩
  · rw [ht, wakeTask_phase hsleeper]
    simp [awake_ne_sleeping]
  · rw [wakeTask_phase hsleeper] at h
    exact absurd h (awake_ne_sleeping _ _)
  · rw [hop] at h
    rw [hq, hi]
    exact Or.inr (hidle h)
  · rw [wakeTask_phase hsleeper] at h
    rw [hop, hm, hd]
    exact hdone t n sector h
  · rw [hq, hi] at h
    exact absurd h (hreads n sector)

theorem head_of_reading (h : Driven s) {c : Command} {rest : List Command} (hi : s.irqs = c :: rest)
    {n sector : ℕ} (ht : s.phase t = .sleeping (.read n sector)) :
    c = .read n sector ∧ rest = [] ∧ s.queue = [] ∧ s.port = some (ataRead s.disk sector) := by
  rcases (h.reading t n sector ht).2.2 with ⟨-, he⟩ | ⟨hq, he, hp⟩
  · rw [hi] at he
    cases he
  · rw [hi] at he
    obtain ⟨hc, hr⟩ := List.cons_eq_cons.mp he
    exact ⟨hc, hr, hq, hp⟩

theorem driven_interrupt (h : Driven s) {holder : Option ℕ} (hl : Locked s.sem s.phase holder)
    {c : Command} {rest : List Command} (hi : s.irqs = c :: rest) (stray : ℕ → UInt8) :
    Driven (ihandler { s with irqs := rest } stray) := by
  have hsub : ∀ n sector, .read n sector ∈ s.queue ++ rest → s.op = .read := by
    intro n sector hm
    obtain ⟨t, ht⟩ := h.reads n sector (by
      rw [hi]
      simp only [List.mem_append, List.mem_cons] at hm ⊢
      tauto)
    exact (h.reading t n sector ht).1
  have hread : ∀ t n sector, (s.phase t).awake = .woken (.read n sector) → s.op = .read := by
    intro t n sector ht
    rcases awake_eq_woken ht with ht | ht
    · exact (h.done t n sector ht).1
    · exact (h.reading t n sector ht).1
  unfold ihandler
  cases hop : s.op with
  | write =>
    refine driven_wakeTask h.sleeper (fun hr => by cases hr) (fun t n sector ht => ?_) fun n sector hm => ?_
    · rw [hread t n sector ht] at hop
      cases hop
    · rw [hsub n sector (by simpa using hm)] at hop
      cases hop
  | flush =>
    refine driven_wakeTask h.sleeper (fun hr => by cases hr) (fun t n sector ht => ?_) fun n sector hm => ?_
    · rw [hread t n sector ht] at hop
      cases hop
    · rw [hsub n sector hm] at hop
      cases hop
  | read =>
    rcases h.idle hop with ⟨t, n, sector, ht⟩ | ⟨-, hnil⟩
    · obtain ⟨-, hr, hq, hp⟩ := head_of_reading h hi ht
      have hb := (h.reading t n sector ht).2.1
      refine driven_wakeTask h.sleeper (fun _ => ⟨hq, hr⟩) (fun u n' sector' hu => ⟨rfl, fun o ho => ?_⟩)
        fun n' sector' hm => ?_
      · have htin : (s.phase t).inside = true := by rw [ht, Phase.inside]
        have huin : (s.phase u).inside = true := by
          rcases awake_eq_woken hu with hu | hu
          · rw [hu, Phase.inside]
          · rw [hu, Phase.inside]
        obtain rfl := hl.unique htin huin
        change (s.phase t).awake = _ at hu
        rw [ht, Phase.awake] at hu
        obtain ⟨rfl, rfl⟩ := Request.read.inj (Phase.woken.inj hu)
        change Function.update s.memory s.buffer _ n o = ataRead s.disk sector o
        rw [hb, Function.update_self, blit_inside (Nat.zero_le o) (by omega), hp]
        rfl
      · change .read n' sector' ∈ s.queue ++ rest at hm
        rw [hq, hr] at hm
        cases hm
    · rw [hi] at hnil
      cases hnil

end Drive

def Inv (s : State) : Prop := Driven s ∧ ∃ holder, Locked s.sem s.phase holder

theorem inv_call {s s' : State} (h : Inv s) {t : ℕ} {r : Request} (ht : s.phase t = .out)
    (hquiet : mustSleep s.sem = false → ∀ n sector, r = .read n sector → s.irqs = [])
    (hs : call s t r = some s') : Inv s' := by
  obtain ⟨hd, holder, hl⟩ := h
  unfold call at hs
  cases hm : mustSleep s.sem
  · rw [hm] at hs
    simp only [Bool.false_eq_true, ↓reduceIte] at hs
    have hin : (Phase.sleeping r).inside = true := rfl
    obtain ⟨hnone, hlock⟩ := locked_enter hl ht hm hin
    have hout : ∀ u, (s.phase u).inside = false := by
      intro u
      rw [Bool.eq_false_iff]
      intro hu
      rw [hl.inside, hnone] at hu
      cases hu
    have hd' : Driven { s with sem := ksemaphoreWait s.sem t, calls := s.calls + 1 } :=
      hd.phases (fun _ _ => Iff.rfl) fun _ _ hu => hu
    have hq : s.queue = [] := by
      by_contra hq
      rw [issue, if_neg hq] at hs
      cases hs
    refine ⟨driven_issue hd' (fun u r' hu => ?_) (fun u r' hu => ?_) hq (hquiet hm) hs, some t, ?_⟩
    · have := hout u
      rw [show s.phase u = .sleeping r' from hu] at this
      cases this
    · have := hout u
      rw [show s.phase u = .woken r' from hu] at this
      cases this
    · rw [issue, if_pos hq] at hs
      obtain rfl := Option.some.inj hs
      exact hlock
  · rw [hm] at hs
    simp only [↓reduceIte] at hs
    obtain rfl := Option.some.inj hs
    refine ⟨hd.phases (fun u r' => ?_) fun u r' hu => ?_, holder, locked_queue hl ht hm r⟩
    · by_cases hut : u = t
      · subst hut
        simp [ht]
      · rw [Function.update_of_ne hut]
    · by_cases hut : u = t
      · subst hut
        simp at hu
      · rwa [Function.update_of_ne hut] at hu

theorem inv_resume {s s' : State} (h : Inv s) {t : ℕ} {r : Request} (ht : s.phase t = .granted r)
    (hquiet : ∀ n sector, r = .read n sector → s.irqs = []) (hs : issue s t r = some s') : Inv s' := by
  obtain ⟨hd, holder, hl⟩ := h
  have htin : (s.phase t).inside = true := by rw [ht, Phase.inside]
  have hq : s.queue = [] := by
    by_contra hq
    rw [issue, if_neg hq] at hs
    cases hs
  refine ⟨driven_issue hd (fun u r' hu => ?_) (fun u r' hu => ?_) hq hquiet hs, holder, ?_⟩
  · obtain rfl := hl.unique htin (by rw [hu, Phase.inside])
    rw [ht] at hu
    cases hu
  · obtain rfl := hl.unique htin (by rw [hu, Phase.inside])
    rw [ht] at hu
    cases hu
  · rw [issue, if_pos hq] at hs
    obtain rfl := Option.some.inj hs
    exact hl.inside_update htin rfl

theorem pop_eq {ph : Phase} {r : Request} :
    (ph.pop = .sleeping r ↔ ph = .sleeping r) ∧ (ph.pop = .woken r ↔ ph = .woken r) := by
  cases ph <;> simp [Phase.pop]

theorem finish_phase (s : State) (t u : ℕ) : (finish s t).phase u = Function.update s.phase t .out u ∨
    (finish s t).phase u = (Function.update s.phase t .out u).pop := by
  simp only [finish, ksemaphoreSignal]
  cases s.sem.sq.head? with
  | none => exact Or.inl rfl
  | some v =>
    by_cases huv : u = v
    · subst huv
      exact Or.inr (Function.update_self _ _ _)
    · exact Or.inl (Function.update_of_ne huv _ _)

theorem finish_sleeping {s : State} {t : ℕ} {r : Request} (ht : s.phase t = .woken r) (u : ℕ)
    (r' : Request) : (finish s t).phase u = .sleeping r' ↔ s.phase u = .sleeping r' := by
  have hout : Function.update s.phase t .out u = .sleeping r' ↔ s.phase u = .sleeping r' := by
    by_cases hut : u = t
    · subst hut
      simp [ht]
    · rw [Function.update_of_ne hut]
  rcases finish_phase s t u with he | he
  · rw [he, hout]
  · rw [he, pop_eq.1, hout]

theorem finish_woken {s : State} {t u : ℕ} {r' : Request} (h : (finish s t).phase u = .woken r') :
    s.phase u = .woken r' := by
  have hout : Function.update s.phase t .out u = .woken r' := by
    rcases finish_phase s t u with he | he
    · rw [← he, h]
    · rw [he, pop_eq.2] at h
      exact h
  by_cases hut : u = t
  · subst hut
    simp at hout
  · rwa [Function.update_of_ne hut] at hout

theorem inv_finish {s : State} (h : Inv s) {t : ℕ} {r : Request} (ht : s.phase t = .woken r) :
    Inv (finish s t) := by
  obtain ⟨hd, holder, hl⟩ := h
  have hl' := locked_signal hl (t := t) (by rw [ht, Phase.inside])
  exact ⟨hd.phases (finish_sleeping ht) fun _ _ => finish_woken, s.sem.sq.head?, hl'⟩

theorem locked_complete {s : State} {holder : Option ℕ} (h : Locked s.sem s.phase holder) (c : Command)
    (rest : List Command) : Locked (complete s c rest).sem (complete s c rest).phase holder := by
  cases c <;> exact h

theorem locked_wakeTask {s : State} {holder : Option ℕ} (h : Locked s.sem s.phase holder)
    (ht : ∀ t, s.task = some t ↔ ∃ r, s.phase t = .sleeping r) :
    Locked (wakeTask s).sem (wakeTask s).phase holder := by
  unfold wakeTask
  cases htask : s.task with
  | none => exact h
  | some t =>
    obtain ⟨r, hr⟩ := (ht t).mp htask
    refine h.inside_update ?_ ?_
    · rw [hr, Phase.inside]
    · rw [hr, Phase.awake, Phase.inside]

theorem locked_ihandler {s : State} {holder : Option ℕ} (h : Locked s.sem s.phase holder)
    (ht : ∀ t, s.task = some t ↔ ∃ r, s.phase t = .sleeping r) (stray : ℕ → UInt8) :
    Locked (ihandler s stray).sem (ihandler s stray).phase holder := by
  unfold ihandler
  split
  · exact locked_wakeTask (by exact h) (by exact ht)
  · exact locked_wakeTask (by exact h) (by exact ht)
  · exact locked_wakeTask h ht

theorem inv_init (disk : Disk) : Inv (init disk) := ⟨driven_init disk, none, locked_init disk⟩

theorem inv_step {s s' : State} {a : Action} (h : Inv s) (hq : Quiet s a) (hs : step s a = some s') :
    Inv s' := by
  cases a with
  | read t sector =>
    simp only [step] at hs
    split at hs
    · rename_i ht
      exact inv_call h ht (fun hm _ _ _ => hq hm) hs
    · cases hs
  | write t sector data =>
    simp only [step] at hs
    split at hs
    · rename_i ht
      exact inv_call h ht (fun _ _ _ hr => by cases hr) hs
    · cases hs
  | resume t =>
    simp only [step] at hs
    split at hs
    · rename_i r ht
      exact inv_resume h ht (fun n sector hr => hq n sector (by rw [ht, hr])) hs
    · cases hs
  | complete =>
    obtain ⟨hd, holder, hl⟩ := h
    simp only [step] at hs
    split at hs
    · rename_i c rest hqueue
      obtain rfl := Option.some.inj hs
      exact ⟨driven_complete hd hqueue, holder, locked_complete hl c rest⟩
    · cases hs
  | interrupt stray =>
    obtain ⟨hd, holder, hl⟩ := h
    simp only [step] at hs
    split at hs
    · rename_i c rest hi
      obtain rfl := Option.some.inj hs
      exact ⟨driven_interrupt hd hl hi stray, holder,
        locked_ihandler (s := { s with irqs := rest }) hl hd.sleeper stray⟩
    · cases hs
  | finish t =>
    simp only [step] at hs
    split at hs
    · rename_i r ht
      obtain rfl := Option.some.inj hs
      exact inv_finish h ht
    · cases hs

theorem sleeping_kept {s s' : State} {a : Action} (hs : step s a = some s')
    (ha : ∀ stray, a ≠ .interrupt stray) {t : ℕ} {r : Request} (ht : s.phase t = .sleeping r) :
    s'.phase t = .sleeping r := by
  have hissue : ∀ {s s' : State} {u : ℕ} {r' : Request}, issue s u r' = some s' → u ≠ t →
      s'.phase t = s.phase t := by
    intro s s' u r' hs hu
    unfold issue at hs
    split_ifs at hs
    obtain rfl := Option.some.inj hs
    exact Function.update_of_ne hu.symm _ _
  have hcall : ∀ {u : ℕ} {r' : Request}, s.phase u = .out → call s u r' = some s' →
      s'.phase t = .sleeping r := by
    intro u r' hu hs
    have hut : u ≠ t := by
      rintro rfl
      rw [ht] at hu
      cases hu
    unfold call at hs
    simp only at hs
    split_ifs at hs
    · obtain rfl := Option.some.inj hs
      exact (Function.update_of_ne hut.symm _ _).trans ht
    · exact (hissue hs hut).trans ht
  cases a with
  | read u sector =>
    simp only [step] at hs
    split at hs
    · rename_i hu
      exact hcall hu hs
    · cases hs
  | write u sector data =>
    simp only [step] at hs
    split at hs
    · rename_i hu
      exact hcall hu hs
    · cases hs
  | resume u =>
    simp only [step] at hs
    split at hs
    · rename_i r' hu
      have hut : u ≠ t := by
        rintro rfl
        rw [ht] at hu
        cases hu
      exact (hissue hs hut).trans ht
    · cases hs
  | complete =>
    simp only [step] at hs
    split at hs
    · rename_i c rest hqueue
      obtain rfl := Option.some.inj hs
      cases c <;> exact ht
    · cases hs
  | interrupt stray => exact absurd rfl (ha stray)
  | finish u =>
    simp only [step] at hs
    split at hs
    · rename_i r' hu
      obtain rfl := Option.some.inj hs
      exact (finish_sleeping hu t r).mpr ht
    · cases hs

/-- Every step from a state of the invariant keeps to the requests, whether it is quiet or not. -/
theorem proper_step {s s' : State} {a : Action} (h : Inv s) (hs : step s a = some s') :
    Proper s a s' := by
  obtain ⟨hd, -⟩ := h
  have hirq : ∀ stray, a = .interrupt stray → ∃ c rest, s.irqs = c :: rest := by
    rintro stray rfl
    simp only [step] at hs
    split at hs
    · rename_i c rest hi
      exact ⟨c, rest, hi⟩
    · cases hs
  refine ⟨fun t n sector ht hne => ?_, fun stray ha hop => ?_, fun t n sector _ ht o ho => ?_⟩
  · by_cases ha : ∃ stray, a = .interrupt stray
    · obtain ⟨stray, ha⟩ := ha
      obtain ⟨c, rest, hi⟩ := hirq stray ha
      obtain ⟨rfl, -⟩ := head_of_reading hd hi ht
      exact ⟨stray, ha, by rw [hi, List.head?_cons]⟩
    · exact absurd ((sleeping_kept hs (fun stray he => ha ⟨stray, he⟩) ht).trans ht.symm) hne
  · obtain ⟨c, rest, hi⟩ := hirq stray ha
    rcases hd.idle hop with ⟨t, n, sector, ht⟩ | ⟨-, hnil⟩
    · obtain ⟨rfl, -⟩ := head_of_reading hd hi ht
      obtain ⟨-, hb, -⟩ := hd.reading t n sector ht
      exact ⟨t, sector, by rw [hb, ht], by rw [hi, List.head?_cons, hb]⟩
    · rw [hi] at hnil
      cases hnil
  · exact (hd.done t n sector ht).2 o ho

/-- Where no READ command is issued before the earlier interrupts have been handled, every interrupt
reaches its own request and every read returns its sector. -/
theorem proper_of_quiet (disk : Disk) (as : List Action) (a : Action) (s s' : State)
    (hq : Meets step Quiet (init disk) as) (hs : exec step (init disk) as = some s)
    (ha : step s a = some s') : Proper s a s' :=
  proper_step (exec_invariant (fun _ _ _ h hq hs => inv_step h hq hs) (inv_init disk) hq hs) ha

theorem interrupt_enabled {s : State} {c : Command} {rest : List Command} (hi : s.irqs = c :: rest)
    (stray : ℕ → UInt8) :
    step s (.interrupt stray) = some (ihandler { s with irqs := rest } stray) := by
  simp only [step, hi]

theorem issue_breaks {s s' : State} (h : Driven s) {t n sector : ℕ} {c : Command} {rest : List Command}
    (hno : ∀ u r, s.phase u ≠ .sleeping r) (hi : s.irqs = c :: rest)
    (hs : issue s t (.read n sector) = some s') (stray : ℕ → UInt8) :
    ∃ s'', step s' (.interrupt stray) = some s'' ∧ ¬ Proper s' (.interrupt stray) s'' := by
  unfold issue at hs
  split_ifs at hs with hq
  have he := Option.some.inj hs
  have hi' : s'.irqs = c :: rest := by
    rw [← he]
    exact hi
  refine ⟨_, interrupt_enabled hi' stray, fun hp => ?_⟩
  obtain ⟨u, sector', -, hhead⟩ := hp.copied stray rfl (by rw [← he]; rfl)
  rw [hi', ← hi] at hhead
  obtain ⟨v, hv⟩ := h.reads _ sector'
    (List.mem_append_right _ (List.mem_of_mem_head? (Option.mem_def.mpr hhead)))
  exact hno v _ hv

/-- The condition is needed: the first step that does not meet it is followed by a wrong interrupt. -/
theorem unquiet_breaks (disk : Disk) (as : List Action) (a : Action) (s s' : State)
    (hq : Meets step Quiet (init disk) as) (hs : exec step (init disk) as = some s)
    (ha : step s a = some s') (hn : ¬ Quiet s a) (stray : ℕ → UInt8) :
    ∃ s'', step s' (.interrupt stray) = some s'' ∧ ¬ Proper s' (.interrupt stray) s'' := by
  obtain ⟨hd, holder, hl⟩ : Inv s :=
    exec_invariant (fun _ _ _ h hq hs => inv_step h hq hs) (inv_init disk) hq hs
  cases a with
  | read t sector =>
    simp only [Quiet, Classical.not_imp] at hn
    obtain ⟨hm, hne⟩ := hn
    obtain ⟨c, rest, hi⟩ := List.exists_cons_of_ne_nil hne
    simp only [step] at ha
    split at ha
    · rename_i ht
      obtain ⟨hnone, -⟩ := @locked_enter _ _ _ _ hl ht hm (.sleeping (.read s.calls sector)) rfl
      simp only [call, hm, Bool.false_eq_true, ↓reduceIte] at ha
      have hd' : Driven { s with sem := ksemaphoreWait s.sem t, calls := s.calls + 1 } :=
        hd.phases (fun _ _ => Iff.rfl) fun _ _ hu => hu
      refine issue_breaks hd' (fun u r hu => ?_) hi ha stray
      have huin := (hl.inside u).mp (by rw [show s.phase u = .sleeping r from hu, Phase.inside])
      rw [hnone] at huin
      cases huin
    · cases ha
  | resume t =>
    simp only [Quiet, not_forall] at hn
    obtain ⟨n, sector, ht, hne⟩ := hn
    obtain ⟨c, rest, hi⟩ := List.exists_cons_of_ne_nil hne
    simp only [step, ht] at ha
    refine issue_breaks hd (fun u r hu => ?_) hi ha stray
    obtain rfl := hl.unique (t := t) (u := u) (by rw [ht, Phase.inside]) (by rw [hu, Phase.inside])
    rw [ht] at hu
    cases hu
  | write t sector data => exact absurd trivial hn
  | complete => exact absurd trivial hn
  | interrupt stray => exact absurd trivial hn
  | finish t => exact absurd trivial hn

theorem proper_one_read : ∃ s s',
    exec step (init fun _ _ => 7) [.read 0 5, .complete, .interrupt fun _ => 0] = some s ∧
    step s (.finish 0) = some s' ∧ Proper s (.finish 0) s' ∧ s.memory 0 3 = 7 := by
  have hr : ∃ s s', exec step (init fun _ _ => 7) [.read 0 5, .complete, .interrupt fun _ => 0] = some s ∧
      step s (.finish 0) = some s' ∧ s.memory 0 3 = 7 := ⟨_, _, rfl, rfl, rfl⟩
  obtain ⟨s, s', hs, ha, hm⟩ := hr
  refine ⟨s, s', hs, ha, proper_of_quiet (fun _ _ => 7) _ (.finish 0) s s' ?_ hs ha, hm⟩
  exact meets_cons (by exact fun _ => rfl) rfl (meets_cons trivial rfl (meets_cons trivial rfl trivial))

/-- Task 0 writes a sector; its flush is done but not handled when task 1 starts to read, and the
interrupt of the flush wakes task 1. -/
theorem flush_wakes_reader : ¬ ∀ (disk : Disk) (as : List Action) (a : Action) (s s' : State),
    exec step (init disk) as = some s → step s a = some s' → Proper s a s' := by
  intro h
  have hp := h (fun _ _ => 7) [.write 0 5 fun _ => 1, .complete, .interrupt fun _ => 0, .finish 0,
    .complete, .read 1 5] (.interrupt fun _ => 0) _ _ rfl rfl
  obtain ⟨t, sector, -, hhead⟩ := hp.copied _ rfl rfl
  cases hhead

end Eedox.DiskInterrupts
