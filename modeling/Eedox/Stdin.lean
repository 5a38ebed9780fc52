import Eedox.Kstring
import Eedox.Library.Runs
import Eedox.Pipe

namespace Eedox.Stdin

open Library.Runs Util Semaphore Kstring
open Pipe (shift)

/-- Where a task is in `syscall_read_stdin`: it sleeps in `ksemaphore_wait`, a signal has woken it from
there, it sleeps as the reader of the keyboard, or the keyboard has woken it. -/
inductive Phase
  | out
  | queued (len : ℕ)
  | granted (len : ℕ)
  | registered (len : ℕ)
  | notified (len : ℕ)
  deriving DecidableEq

def Phase.awake : Phase → Phase
  | .queued len => .granted len
  | .registered len => .notified len
  | ph => ph

def Phase.asleep : Phase → Bool
  | .queued _ | .registered _ => true
  | _ => false

/-- The task holds `stdin_lock`. -/
def Phase.inside : Phase → Bool
  | .granted _ | .registered _ | .notified _ => true
  | _ => false

/-- Three ghosts record the characters of the line that is typed, of the lines that are completed, and
what the reads have returned. -/
structure State where
  keyShift : Bool
  keyCtrl : Bool
  keyAlt : Bool
  keyboardInputSize : ℕ
  terminalBuffer : KstringT
  inputList : List (List UInt8)
  readerTask : Option ℕ
  multitaskingFlag : Bool
  stdinLock : Ksemaphore ℕ
  phase : ℕ → Phase
  pending : List UInt8
  completed : List UInt8
  returned : List UInt8

def kbchars : List UInt8 :=
  [0, 27, 49, 50, 51, 52, 53, 54, 55, 56, 57, 48, 45, 61, 8, 0, 113, 119, 101, 114, 116, 121, 117, 105,
    111, 112, 91, 93, 10, 0, 97, 115, 100, 102, 103, 104, 106, 107, 108, 59, 39, 96, 0, 92, 122, 120, 99,
    118, 98, 110, 109, 44, 46, 47, 0, 42, 0, 32, 0, 0, 0, 0, 0, 0, 0, 0, 0, 0, 0, 0, 0, 0, 0, 0, 45, 0, 0,
    0, 43] ++ List.replicate 49 0

def setkey (s : State) (keycode : UInt8) : State :=
  if keycode = 42 then { s with keyShift := true }
  else if keycode = 42 + 128 then { s with keyShift := false }
  else if keycode = 29 then { s with keyCtrl := true }
  else if keycode = 29 + 128 then { s with keyCtrl := false }
  else if keycode = 56 then { s with keyAlt := true }
  else if keycode = 56 + 128 then { s with keyAlt := false }
  else s

def wake (phase : ℕ → Phase) : Option ℕ → ℕ → Phase
  | none => phase
  | some u => Function.update phase u (phase u).awake

section model

-- What a new block of memory holds.
variable (junk : ℕ → UInt8)

def keyboardEof (s : State) : Option State :=
  (kstringNew junk).map fun fresh =>
    let s := { s with
      keyboardInputSize := 0
      inputList := s.inputList ++ [s.terminalBuffer.buffer]
      terminalBuffer := fresh
      pending := []
      completed := s.completed ++ s.pending }
    if s.readerTask.isSome && s.multitaskingFlag then
      { s with phase := wake s.phase s.readerTask, readerTask := none }
    else s

def backspace (s : State) : Option State :=
  if s.keyboardInputSize ≠ 0 then
    (kstringErase s.terminalBuffer (s.terminalBuffer.size - 1) 1).map fun buffer =>
      { s with
        keyboardInputSize := s.keyboardInputSize - 1
        terminalBuffer := buffer
        pending := s.pending.dropLast }
  else some s

def accept (s : State) (ch : UInt8) : Option State :=
  (kstringPush junk s.terminalBuffer ch).bind fun buffer =>
    let s := { s with
      keyboardInputSize := s.keyboardInputSize + 1
      terminalBuffer := buffer
      pending := s.pending ++ [ch] }
    if ch = 10 then keyboardEof junk s else some s

def keyboardHandler (s : State) (scancode : UInt8) : Option State :=
  let s := setkey s scancode
  if scancode < 128 then
    let ch := kbchars.getD scancode.toNat 0
    if ch ≠ 0 then
      if ch = 100 ∧ s.keyCtrl = true then keyboardEof junk s
      else if ch = 8 then backspace s
      else if s.keyCtrl = false then accept junk s (if s.keyShift then ch - 32 else ch)
      else some s
    else some s
  else some s

/-- `syscall_read_stdin` from `kqueue_peek` on, which reads through a null pointer when there is no
message. -/
def take (s : State) (t len : ℕ) : Option State :=
  match s.inputList with
  | [] => none
  | input :: rest =>
    let inputLen := strlen input
    let count := min len inputLen
    let signal := ksemaphoreSignal s.stdinLock
    some { s with
      inputList := if len < inputLen then shift input len (inputLen - len) :: rest else rest
      stdinLock := signal.1
      phase := wake (Function.update s.phase t .out) signal.2
      returned := s.returned ++ input.take count }

/-- The task has the semaphore. -/
def enter (s : State) (t len : ℕ) : Option State :=
  if s.inputList.length = 0 then
    some { s with readerTask := some t, phase := Function.update s.phase t (.registered len) }
  else take s t len

def syscallReadStdin (s : State) (t len : ℕ) : Option State :=
  let waited := { s with stdinLock := ksemaphoreWait s.stdinLock t }
  if mustSleep s.stdinLock then some { waited with phase := Function.update s.phase t (.queued len) }
  else enter waited t len

inductive Action
  | key (scancode : UInt8)
  | multitaskingInit
  | writeStdout
  | read (t : ℕ) (len : Int32)
  | resume (t : ℕ)

/-- The idle task never leaves the run queue, so a task that sleeps does not run on. A read that is not
of a positive length is an error and does not come here. -/
def step (s : State) : Action → Option State
  | .key scancode => keyboardHandler junk s scancode
  | .multitaskingInit => some { s with multitaskingFlag := true }
  | .writeStdout => some { s with keyboardInputSize := 0 }
  | .read t len =>
    if s.multitaskingFlag = true ∧ s.phase t = .out ∧ 0 < len.toInt then
      syscallReadStdin s t len.toInt.toNat
    else none
  | .resume t =>
    match s.phase t with
    | .granted len => enter s t len
    | .notified len => take s t len
    | _ => none

/-- `keyboard_init` and `syscalls_init`. -/
def init : Option State := (kstringNew junk).map fun buffer =>
  ⟨false, false, false, 0, buffer, [], none, false, ksemaphoreInit 1, fun _ => .out, [], [], []⟩

end model

/-- The keyboard has room for what is typed. -/
structure Typing (s : State) : Prop where
  sized : Sized s.terminalBuffer
  honoured : s.keyboardInputSize ≤ s.terminalBuffer.size

/-- Whoever is registered holds the semaphore and waits for the first message. -/
structure Handover (s : State) (holder : Option ℕ) : Prop where
  exclusive : Exclusive s.stdinLock (fun t => ∃ len, s.phase t = .queued len)
    (fun t => (s.phase t).inside = true) holder
  registered : ∀ t, s.readerTask = some t ↔ ∃ len, s.phase t = .registered len
  empty : s.readerTask ≠ none → s.inputList = []
  served : ∀ t len, s.phase t = .notified len → s.inputList ≠ []
  flagged : ∀ t, s.phase t ≠ .out → s.multitaskingFlag = true

variable {junk : ℕ → UInt8} {s s' : State} {t u len : ℕ} {holder : Option ℕ}

theorem Handover.congr (h : Handover s holder) (hlock : s'.stdinLock = s.stdinLock)
    (hphase : s'.phase = s.phase) (hreader : s'.readerTask = s.readerTask)
    (hlist : s'.inputList = s.inputList) (hflag : s'.multitaskingFlag = s.multitaskingFlag) :
    Handover s' holder := by
  obtain ⟨hexclusive, hregistered, hempty, hserved, hflagged⟩ := h
  refine ⟨?_, ?_, ?_, ?_, ?_⟩
  · rw [hlock, hphase]
    exact hexclusive
  · rw [hreader, hphase]
    exact hregistered
  · rw [hreader, hlist]
    exact hempty
  · rw [hphase, hlist]
    exact hserved
  · rw [hphase, hflag]
    exact hflagged

/-- A completed line wakes the reader and is there for it. -/
theorem handover_line {message : List UInt8} (h : Handover s holder)
    (hlock : s'.stdinLock = s.stdinLock) (hlist : s'.inputList = s.inputList ++ [message])
    (hphase : s'.phase = wake s.phase s.readerTask) (hreader : s'.readerTask = none)
    (hflag : s'.multitaskingFlag = s.multitaskingFlag) : Handover s' holder := by
  have hnil : s'.inputList ≠ [] := by
    rw [hlist]
    exact List.append_ne_nil_of_right_ne_nil _ (List.cons_ne_nil _ _)
  cases hr : s.readerTask with
  | none =>
    rw [hr, wake] at hphase
    refine ⟨?_, fun t => ?_, fun hne => absurd hreader hne, fun _ _ _ => hnil, ?_⟩
    · rw [hlock, hphase]
      exact h.exclusive
    · rw [hreader, ← hr, hphase]
      exact h.registered t
    · rw [hphase, hflag]
      exact h.flagged
  | some u =>
    obtain ⟨len, hu⟩ := (h.registered u).mp hr
    have hself : s'.phase u = .notified len := by rw [hphase, hr, wake, Function.update_self, hu, Phase.awake]
    have hother : ∀ t, t ≠ u → s'.phase t = s.phase t := fun t ht => by
      rw [hphase, hr, wake, Function.update_of_ne ht]
    refine ⟨?_, fun t => ?_, fun hne => absurd hreader hne, fun _ _ _ => hnil, fun _ _ => ?_⟩
    · rw [hlock]
      refine h.exclusive.congr (fun t => ?_) fun t => ?_
      · by_cases ht : t = u
        · rw [ht, hself, hu]
          simp
        · rw [hother t ht]
      · by_cases ht : t = u
        · rw [ht, hself, hu]
          simp [Phase.inside]
        · rw [hother t ht]
    · rw [hreader]
      refine iff_of_false nofun ?_
      rintro ⟨len', ht⟩
      by_cases htu : t = u
      · rw [htu, hself] at ht
        cases ht
      · rw [hother t htu] at ht
        have := (h.registered t).mpr ⟨len', ht⟩
        rw [hr] at this
        exact htu (Option.some.inj this).symm
    · rw [hflag]
      exact h.flagged u (by rw [hu]; exact nofun)

theorem keyboardEof_spec (junk : ℕ → UInt8) (h : Handover s holder) :
    ∃ s', keyboardEof junk s = some s' ∧ Typing s' ∧ Handover s' holder := by
  obtain ⟨fresh, hfresh, hholds⟩ := holds_new junk
  have hsize : fresh.size = 0 := hholds.size
  refine ⟨_, by rw [keyboardEof, hfresh, Option.map_some], ?_⟩
  by_cases hr : s.readerTask = none
  · simp only [hr, Option.isSome_none, Bool.false_and, Bool.false_eq_true, if_false]
    refine ⟨⟨hholds.sized, Nat.zero_le _⟩, ?_⟩
    exact handover_line h rfl rfl (by rw [hr, wake]) rfl rfl
  · have hsome : (s.readerTask.isSome && s.multitaskingFlag) = true := by
      obtain ⟨u, hu⟩ := Option.ne_none_iff_exists'.mp hr
      obtain ⟨len, hlen⟩ := (h.registered u).mp hu
      rw [h.flagged u (by rw [hlen]; exact nofun), Bool.and_true]
      exact Option.isSome_iff_ne_none.mpr hr
    simp only [hsome, if_true]
    exact ⟨⟨hholds.sized, Nat.zero_le _⟩, handover_line h rfl rfl rfl rfl rfl⟩

theorem backspace_spec (hk : Typing s) (h : Handover s holder) :
    ∃ s', backspace s = some s' ∧ Typing s' ∧ Handover s' holder := by
  unfold backspace
  by_cases hz : s.keyboardInputSize = 0
  · rw [if_neg (not_not.mpr hz)]
    exact ⟨s, rfl, hk, h⟩
  · have hle := hk.honoured
    obtain ⟨k, herase, hsized, hsize⟩ := sized_erase_last hk.sized (by omega)
    rw [if_pos hz, herase, Option.map_some]
    refine ⟨_, rfl, ⟨hsized, ?_⟩, h.congr rfl rfl rfl rfl rfl⟩
    simp only
    omega

theorem accept_spec (junk : ℕ → UInt8) (hk : Typing s) (h : Handover s holder) (ch : UInt8) :
    ∃ s', accept junk s ch = some s' ∧ Typing s' ∧ Handover s' holder := by
  obtain ⟨k, hpush, hsized, hsize⟩ := sized_push junk hk.sized ch
  have hle := hk.honoured
  rw [accept, hpush, Option.bind_some]
  by_cases hline : ch = 10
  · rw [if_pos hline]
    exact keyboardEof_spec junk (h.congr rfl rfl rfl rfl rfl)
  · rw [if_neg hline]
    refine ⟨_, rfl, ⟨hsized, ?_⟩, h.congr rfl rfl rfl rfl rfl⟩
    simp only
    omega

theorem setkey_same (s : State) (keycode : UInt8) :
    ∃ shift ctrl alt, setkey s keycode = { s with keyShift := shift, keyCtrl := ctrl, keyAlt := alt } := by
  unfold setkey
  split_ifs <;> exact ⟨_, _, _, rfl⟩

/-- Every key event is handled. -/
theorem keyboardHandler_spec (junk : ℕ → UInt8) (hk : Typing s) (h : Handover s holder) (scancode : UInt8) :
    ∃ s', keyboardHandler junk s scancode = some s' ∧ Typing s' ∧ Handover s' holder := by
  obtain ⟨shift, ctrl, alt, hset⟩ := setkey_same s scancode
  have hk' : Typing (setkey s scancode) := by
    rw [hset]
    exact ⟨hk.sized, hk.honoured⟩
  have h' : Handover (setkey s scancode) holder := by
    rw [hset]
    exact h.congr rfl rfl rfl rfl rfl
  unfold keyboardHandler
  dsimp only
  split_ifs
  · exact keyboardEof_spec junk h'
  · exact backspace_spec hk' h'
  · exact accept_spec junk hk' h' _
  · exact accept_spec junk hk' h' _
  · exact ⟨_, rfl, hk', h'⟩
  · exact ⟨_, rfl, hk', h'⟩
  · exact ⟨_, rfl, hk', h'⟩

/-- The task has the semaphore, and no task is in the part that it guards. -/
structure Holding (s : State) (t : ℕ) : Prop where
  exclusive : Exclusive s.stdinLock (fun u => ∃ len, s.phase u = .queued len) (fun u => u = t) (some t)
  alone : ∀ u, u ≠ t → (s.phase u).inside = false
  unqueued : ∀ len, s.phase t ≠ .queued len
  reader : s.readerTask = none

/-- The task that leaves wakes the first sleeper, and the other ones stay where they are. -/
theorem wake_cases (h : Holding s t) (u : ℕ) :
    (s.stdinLock.sq.head? = some u ∧
      ∃ l, wake (Function.update s.phase t .out) s.stdinLock.sq.head? u = .granted l) ∨
    s.stdinLock.sq.head? ≠ some u ∧
      (wake (Function.update s.phase t .out) s.stdinLock.sq.head? u).inside = false ∧
      ∀ l, wake (Function.update s.phase t .out) s.stdinLock.sq.head? u = .queued l ↔ s.phase u = .queued l := by
  have hleft : (Function.update s.phase t .out u).inside = false ∧
      ∀ l, Function.update s.phase t .out u = .queued l ↔ s.phase u = .queued l := by
    by_cases hut : u = t
    · rw [hut, Function.update_self]
      exact ⟨rfl, fun l => iff_of_false nofun (h.unqueued l)⟩
    · rw [Function.update_of_ne hut]
      exact ⟨h.alone u hut, fun l => Iff.rfl⟩
  cases hhead : s.stdinLock.sq.head? with
  | none => exact Or.inr ⟨nofun, hleft⟩
  | some v =>
    obtain ⟨l, hv⟩ := (h.exclusive.queued v).mp (List.mem_of_mem_head? hhead)
    have hvt : v ≠ t := fun he => h.unqueued l (he ▸ hv)
    by_cases hu : u = v
    · refine Or.inl ⟨by rw [hu], l, ?_⟩
      rw [wake, hu, Function.update_self, Function.update_of_ne hvt, hv, Phase.awake]
    · refine Or.inr ⟨fun he => hu (Option.some.inj he).symm, ?_⟩
      rw [wake, Function.update_of_ne hu]
      exact hleft

theorem handover_take (h : Holding s t) (hf : s.multitaskingFlag = true) (len : ℕ) (hlist : s.inputList ≠ []) :
    ∃ s', take s t len = some s' ∧ Handover s' s.stdinLock.sq.head? ∧
      s'.keyboardInputSize = s.keyboardInputSize ∧ s'.terminalBuffer = s.terminalBuffer := by
  obtain ⟨input, rest, hl⟩ := List.exists_cons_of_ne_nil hlist
  have hsignal := exclusive_signal h.exclusive rfl
  have hcases := wake_cases h
  unfold take
  rw [hl]
  refine ⟨_, rfl, ?_, rfl, rfl⟩
  refine ⟨hsignal.congr (fun u => ?_) fun u => ?_, fun u => ?_, fun hne => absurd h.reader hne,
    fun u l hu => ?_, fun _ _ => hf⟩
  · rcases hcases u with ⟨hhead, l, hu⟩ | ⟨hhead, -, hu⟩
    · simp only [ksemaphoreSignal, hu]
      simp [hhead]
    · simp only [ksemaphoreSignal, hu]
      simp [hhead]
  · rcases hcases u with ⟨hhead, l, hu⟩ | ⟨hhead, hu, -⟩
    · simp only [ksemaphoreSignal, hu]
      simp [hhead, Phase.inside]
    · simp only [ksemaphoreSignal, hu]
      simp [hhead]
  · rw [show s.readerTask = none from h.reader]
    refine iff_of_false (Option.some_ne_none u).symm ?_
    rintro ⟨l, hu'⟩
    rcases hcases u with ⟨hhead, l', hu⟩ | ⟨hhead, hu, -⟩
    · simp only [ksemaphoreSignal, hu] at hu'
      cases hu'
    · simp only [ksemaphoreSignal] at hu'
      rw [hu'] at hu
      cases hu
  · rcases hcases u with ⟨hhead, l', hw⟩ | ⟨hhead, hw, -⟩
    · simp only [ksemaphoreSignal, hw] at hu
      cases hu
    · simp only [ksemaphoreSignal] at hu
      rw [hu] at hw
      cases hw

/-- The reader registers itself just when there is no message. -/
theorem handover_enter (h : Holding s t) (hf : s.multitaskingFlag = true) (len : ℕ) :
    ∃ s' holder, enter s t len = some s' ∧ Handover s' holder ∧
      s'.keyboardInputSize = s.keyboardInputSize ∧ s'.terminalBuffer = s.terminalBuffer := by
  unfold enter
  by_cases hlist : s.inputList.length = 0
  · rw [if_pos hlist]
    refine ⟨_, some t, rfl, ?_, rfl, rfl⟩
    have hself : Function.update s.phase t (.registered len) t = .registered len := Function.update_self ..
    have hother : ∀ u, u ≠ t → Function.update s.phase t (.registered len) u = s.phase u :=
      fun u hu => Function.update_of_ne hu ..
    refine ⟨h.exclusive.congr (fun u => ?_) fun u => ?_, fun u => ?_, fun _ =>
      List.eq_nil_of_length_eq_zero hlist, fun u l hu => ?_, fun _ _ => hf⟩
    · by_cases hut : u = t
      · simp only [hut, hself]
        exact iff_of_false (by simp) (by simpa using h.unqueued)
      · simp only [hother u hut]
    · by_cases hut : u = t
      · simp only [hut, hself, Phase.inside]
      · simp only [hother u hut, h.alone u hut, hut, Bool.false_eq_true]
    · by_cases hut : u = t
      · simp only [hut, hself]
        simp
      · simp only [hother u hut, Option.some.injEq, Ne.symm hut, false_iff]
        rintro ⟨l, hu⟩
        have := h.alone u hut
        rw [hu] at this
        cases this
    · by_cases hut : u = t
      · simp only [hut, hself] at hu
        cases hu
      · simp only [hother u hut] at hu
        have := h.alone u hut
        rw [hu] at this
        cases this
  · rw [if_neg hlist]
    obtain ⟨s', htake, hs', hsize, hbuffer⟩ :=
      handover_take h hf len fun he => hlist (List.length_eq_zero_iff.mpr he)
    exact ⟨s', _, htake, hs', hsize, hbuffer⟩

theorem holding_inside (h : Handover s holder) (ht : (s.phase t).inside = true)
    (hr : ∀ len, s.phase t ≠ .registered len) : Holding s t := by
  have hholder := (h.exclusive.inside t).mp ht
  have hinside : ∀ u, (s.phase u).inside = true ↔ u = t := by
    intro u
    rw [h.exclusive.inside, hholder, Option.some.injEq, eq_comm]
  refine ⟨hholder ▸ h.exclusive.congr (fun u => Iff.rfl) fun u => (hinside u).symm, fun u hu => ?_,
    fun len hq => ?_, ?_⟩
  · rw [← Bool.not_eq_true]
    exact fun hin => hu ((hinside u).mp hin)
  · rw [hq] at ht
    cases ht
  · rw [Option.eq_none_iff_forall_ne_some]
    intro u hu
    obtain ⟨len, hlen⟩ := (h.registered u).mp hu
    have hut : u = t := (hinside u).mp (by rw [hlen, Phase.inside])
    exact hr len (hut ▸ hlen)

theorem read_spec (h : Handover s holder) (hf : s.multitaskingFlag = true) (ht : s.phase t = .out) (len : ℕ) :
    ∃ s' holder', syscallReadStdin s t len = some s' ∧ Handover s' holder' ∧
      s'.keyboardInputSize = s.keyboardInputSize ∧ s'.terminalBuffer = s.terminalBuffer := by
  have hunqueued : ∀ len, s.phase t ≠ .queued len := by
    intro len hq
    rw [ht] at hq
    cases hq
  unfold syscallReadStdin
  dsimp only
  by_cases hm : mustSleep s.stdinLock = true
  · rw [if_pos hm]
    refine ⟨_, holder, rfl, ?_, rfl, rfl⟩
    have hself : Function.update s.phase t (.queued len) t = .queued len := Function.update_self ..
    have hother : ∀ u, u ≠ t → Function.update s.phase t (.queued len) u = s.phase u :=
      fun u hu => Function.update_of_ne hu ..
    have hqueue := exclusive_queue h.exclusive (show ¬ ∃ len, s.phase t = .queued len by simpa using hunqueued) hm
    refine ⟨hqueue.congr (fun u => ?_) fun u => ?_, fun u => ?_, h.empty, fun u l hu => ?_, fun _ _ => hf⟩
    · by_cases hut : u = t
      · simp only [hut, hself, true_or, iff_true]
        exact ⟨len, rfl⟩
      · simp only [hother u hut, hut, false_or]
    · by_cases hut : u = t
      · simp only [hut, hself, ht, Phase.inside]
      · simp only [hother u hut]
    · by_cases hut : u = t
      · simp only [hut, hself]
        rw [h.registered, ht]
        simp
      · simp only [hother u hut]
        exact h.registered u
    · by_cases hut : u = t
      · simp only [hut, hself] at hu
        cases hu
      · simp only [hother u hut] at hu
        exact h.served u l hu
  · rw [if_neg hm]
    obtain ⟨hnone, -, henter⟩ := exclusive_enter h.exclusive t (by simpa using hm)
    have hinside : ∀ u, (s.phase u).inside = false := by
      intro u
      rw [← Bool.not_eq_true, h.exclusive.inside, hnone]
      exact nofun
    have hholding : Holding { s with stdinLock := ksemaphoreWait s.stdinLock t } t := by
      refine ⟨henter, fun u _ => hinside u, hunqueued, ?_⟩
      rw [Option.eq_none_iff_forall_ne_some]
      intro u hu
      obtain ⟨l, hl⟩ := (h.registered u).mp hu
      have := hinside u
      rw [hl] at this
      cases this
    exact handover_enter hholding hf len

/-- What holds between two steps. -/
def Inv (s : State) : Prop := Typing s ∧ ∃ holder, Handover s holder

theorem inv_step {a : Action} (h : Inv s) (hs : step junk s a = some s') : Inv s' := by
  obtain ⟨hk, holder, hh⟩ := h
  cases a with
  | key scancode =>
    obtain ⟨t, ht, hkt, hht⟩ := keyboardHandler_spec junk hk hh scancode
    obtain rfl := Option.some.inj (ht.symm.trans hs)
    exact ⟨hkt, holder, hht⟩
  | multitaskingInit =>
    obtain rfl := Option.some.inj hs
    exact ⟨⟨hk.sized, hk.honoured⟩, holder, hh.exclusive, hh.registered, hh.empty, hh.served, fun _ _ => rfl⟩
  | writeStdout =>
    obtain rfl := Option.some.inj hs
    exact ⟨⟨hk.sized, Nat.zero_le _⟩, holder, hh.congr rfl rfl rfl rfl rfl⟩
  | read t len =>
    simp only [step] at hs
    split_ifs at hs with hread
    obtain ⟨u, holder', hu, hhu, hsize, hbuffer⟩ := read_spec hh hread.1 hread.2.1 len.toInt.toNat
    obtain rfl := Option.some.inj (hu.symm.trans hs)
    exact ⟨⟨hbuffer ▸ hk.sized, by rw [hsize, hbuffer]; exact hk.honoured⟩, holder', hhu⟩
  | resume t =>
    have hout (ht : s.phase t ≠ .out) := hh.flagged t ht
    simp only [step] at hs
    cases ht : s.phase t with
    | granted len =>
      simp only [ht] at hs hout
      have hholding := @holding_inside s t holder hh (by rw [ht, Phase.inside]) (by rw [ht]; exact nofun)
      obtain ⟨u, holder', hu, hhu, hsize, hbuffer⟩ := handover_enter hholding (hout nofun) len
      obtain rfl := Option.some.inj (hu.symm.trans hs)
      exact ⟨⟨hbuffer ▸ hk.sized, by rw [hsize, hbuffer]; exact hk.honoured⟩, holder', hhu⟩
    | notified len =>
      simp only [ht] at hs hout
      have hholding := @holding_inside s t holder hh (by rw [ht, Phase.inside]) (by rw [ht]; exact nofun)
      obtain ⟨u, hu, hhu, hsize, hbuffer⟩ := handover_take hholding (hout nofun) len (hh.served t len ht)
      obtain rfl := Option.some.inj (hu.symm.trans hs)
      exact ⟨⟨hbuffer ▸ hk.sized, by rw [hsize, hbuffer]; exact hk.honoured⟩, _, hhu⟩
    | out => simp [ht] at hs
    | queued len => simp [ht] at hs
    | registered len => simp [ht] at hs

theorem inv_init (junk : ℕ → UInt8) : ∃ s, init junk = some s ∧ Inv s := by
  obtain ⟨buffer, hnew, hholds⟩ := holds_new junk
  refine ⟨_, by rw [init, hnew, Option.map_some], ⟨hholds.sized, Nat.zero_le _⟩, none, ?_⟩
  exact ⟨exclusive_init (by simp) (by simp [Phase.inside]), by simp, by simp, by simp, by simp⟩

/-- A task that goes on when it is its turn: no read gets stuck where it needs a message. -/
def Ready (s : State) : Action → Prop
  | .read t len => s.multitaskingFlag = true ∧ s.phase t = .out ∧ 0 < len.toInt
  | .resume t => s.phase t ≠ .out ∧ (s.phase t).asleep = false
  | _ => True

theorem step_ready {a : Action} (junk : ℕ → UInt8) (h : Inv s) (ha : Ready s a) :
    ∃ s', step junk s a = some s' := by
  obtain ⟨hk, holder, hh⟩ := h
  cases a with
  | key scancode =>
    obtain ⟨t, ht, -⟩ := keyboardHandler_spec junk hk hh scancode
    exact ⟨t, ht⟩
  | multitaskingInit => exact ⟨_, rfl⟩
  | writeStdout => exact ⟨_, rfl⟩
  | read t len =>
    obtain ⟨u, -, hu, -⟩ := read_spec hh ha.1 ha.2.1 len.toInt.toNat
    exact ⟨u, (if_pos ha).trans hu⟩
  | resume t =>
    obtain ⟨hne, hawake⟩ := ha
    have hf := hh.flagged t hne
    cases ht : s.phase t with
    | granted len =>
      have hholding := @holding_inside s t holder hh (by rw [ht, Phase.inside]) (by rw [ht]; exact nofun)
      obtain ⟨u, -, hu, -⟩ := handover_enter hholding hf len
      exact ⟨u, by simp only [step, ht, hu]⟩
    | notified len =>
      have hholding := @holding_inside s t holder hh (by rw [ht, Phase.inside]) (by rw [ht]; exact nofun)
      obtain ⟨u, hu, -⟩ := handover_take hholding hf len (hh.served t len ht)
      exact ⟨u, by simp only [step, ht, hu]⟩
    | out => exact absurd ht hne
    | queued len =>
      rw [ht] at hawake
      cases hawake
    | registered len =>
      rw [ht] at hawake
      cases hawake

/-- In every run at most one task waits for the keyboard, it is the one that is registered, and it
sleeps while there is no message; and a task that comes to `kqueue_peek` finds one, so that every task
whose turn it is goes on. -/
theorem handover_safe {junk : ℕ → UInt8} {s₀ s : State} {as : List Action} (h₀ : init junk = some s₀)
    (hs : exec (step junk) s₀ as = some s) :
    (∀ t u len len', s.phase t = .registered len → s.phase u = .registered len' → t = u) ∧
    (∀ t, s.readerTask = some t → (∃ len, s.phase t = .registered len) ∧ (s.phase t).asleep = true ∧
      s.inputList = []) ∧
    (∀ t len, s.phase t = .notified len → s.inputList ≠ []) ∧
    ∀ a, Ready s a → ∃ s', step junk s a = some s' := by
  obtain ⟨s₁, h₁, hinv⟩ := inv_init junk
  obtain rfl := Option.some.inj (h₁.symm.trans h₀)
  have h := exec_invariant (fun _ _ _ h _ ht => inv_step h ht) hinv (meets_true _ as) hs
  obtain ⟨-, holder, hh⟩ := id h
  refine ⟨fun t u len len' ht hu => ?_, fun t ht => ?_, hh.served, fun a ha => step_ready junk h ha⟩
  · have hr := (hh.registered t).mpr ⟨len, ht⟩
    rw [(hh.registered u).mpr ⟨len', hu⟩] at hr
    exact (Option.some.inj hr).symm
  · obtain ⟨len, hlen⟩ := (hh.registered t).mp ht
    exact ⟨⟨len, hlen⟩, by rw [hlen, Phase.asleep], hh.empty (by rw [ht]; exact nofun)⟩

/-- Task 1 reads before anything is typed, task 2 queues behind it, and the Enter key wakes task 1. -/
theorem handover_safe_enter : ∃ s₀ s, init (fun _ => 7) = some s₀ ∧
    exec (step fun _ => 7) s₀ [.multitaskingInit, .read 1 5, .read 2 5, .key 30, .key 28] = some s ∧
    s.phase 1 = .notified 5 ∧ s.inputList ≠ [] :=
  ⟨_, _, rfl, rfl, rfl, (@handover_safe (fun _ => 7) _ _
    [.multitaskingInit, .read 1 5, .read 2 5, .key 30, .key 28] rfl rfl).2.2.1 1 5 rfl⟩

end Eedox.Stdin
