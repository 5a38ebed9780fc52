import Eedox.Stdin

namespace Eedox.TerminalInput

open Library.Runs Util Semaphore Kstring Stdin
open Pipe (shift shift_terminated)

/-- The Shift key takes 32 off the space as well, and a line with a 0 in it ends there. -/
def Spaceless (s : State) : Action → Prop
  | .key scancode => scancode = 57 → s.keyCtrl = true ∨ s.keyShift = false
  | _ => True

/-- A message that has these characters left. -/
def Message (input cs : List UInt8) : Prop := 0 ∉ cs ∧ ∃ tail, input = cs ++ 0 :: tail

/-- What is typed is in the buffer, and what is completed has been returned or is in the messages. -/
structure Delivers (s : State) : Prop where
  typed : Holds s.terminalBuffer s.pending
  honoured : s.keyboardInputSize ≤ s.pending.length
  complete : ∃ lines, List.Forall₂ Message s.inputList lines ∧ s.returned ++ lines.flatten = s.completed

variable {junk : ℕ → UInt8} {s s' : State} {t len : ℕ}

theorem delivers_eof (h : Delivers s) (hs : keyboardEof junk s = some s') : Delivers s' := by
  obtain ⟨fresh, hfresh, rfl⟩ := Option.map_eq_some_iff.mp hs
  obtain ⟨fresh', hnew, hholds⟩ := holds_new junk
  obtain rfl := Option.some.inj (hnew.symm.trans hfresh)
  obtain ⟨lines, hlines, hall⟩ := h.complete
  have hmessage : Message s.terminalBuffer.buffer s.pending := ⟨h.typed.nul, h.typed.bytes⟩
  have hlines' : List.Forall₂ Message (s.inputList ++ [s.terminalBuffer.buffer]) (lines ++ [s.pending]) :=
    List.rel_append hlines (.cons hmessage .nil)
  have hall' : s.returned ++ (lines ++ [s.pending]).flatten = s.completed ++ s.pending := by
    rw [List.flatten_append, ← List.append_assoc, hall, List.flatten_singleton]
  dsimp only
  split_ifs
  · exact ⟨hholds, Nat.zero_le _, _, hlines', hall'⟩
  · exact ⟨hholds, Nat.zero_le _, _, hlines', hall'⟩

theorem delivers_backspace (h : Delivers s) (hs : backspace s = some s') : Delivers s' := by
  unfold backspace at hs
  split_ifs at hs with hz
  · have hhonoured := h.honoured
    have hne : s.pending ≠ [] := by
      rintro he
      rw [he, List.length_nil] at hhonoured
      exact hz (by omega)
    obtain ⟨k, herase, hk⟩ := holds_erase_last h.typed hne
    rw [herase] at hs
    obtain rfl := Option.some.inj hs
    refine ⟨hk, ?_, h.complete⟩
    simp only [List.length_dropLast]
    omega
  · exact Option.some.inj hs ▸ h

theorem delivers_accept {ch : UInt8} (h : Delivers s) (hch : ch ≠ 0) (hs : accept junk s ch = some s') :
    Delivers s' := by
  obtain ⟨k, hpush, hs⟩ := Option.bind_eq_some_iff.mp hs
  obtain ⟨k', hpush', hk⟩ := holds_push junk h.typed hch
  obtain rfl := Option.some.inj (hpush'.symm.trans hpush)
  have hnext : Delivers { s with
      keyboardInputSize := s.keyboardInputSize + 1
      terminalBuffer := k'
      pending := s.pending ++ [ch] } := by
    refine ⟨hk, ?_, h.complete⟩
    have hhonoured := h.honoured
    simp only [List.length_append, List.length_singleton]
    omega
  dsimp only at hs
  split_ifs at hs
  · exact delivers_eof hnext hs
  · exact Option.some.inj hs ▸ hnext

theorem kbchars_space : ∀ i < 128, kbchars.getD i 0 - 32 = 0 → i = 57 := by decide

theorem setkey_space (s : State) : setkey s 57 = s := by
  unfold setkey
  simp

/-- No character that is accepted is a 0. -/
theorem accepted_ne {scancode : UInt8} (hg : Spaceless s (.key scancode)) (hlt : scancode < 128)
    (hch : kbchars.getD scancode.toNat 0 ≠ 0) (hctrl : (setkey s scancode).keyCtrl = false) :
    (if (setkey s scancode).keyShift then kbchars.getD scancode.toNat 0 - 32
      else kbchars.getD scancode.toNat 0) ≠ 0 := by
  split_ifs with hshift
  · intro he
    have hcode : scancode = 57 := UInt8.toNat_inj.mp (kbchars_space _ (UInt8.lt_iff_toNat_lt.mp hlt) he)
    rw [hcode, setkey_space] at hshift hctrl
    rcases hg hcode with h | h
    · rw [hctrl] at h
      cases h
    · rw [hshift] at h
      cases h
  · exact hch

theorem delivers_key {scancode : UInt8} (h : Delivers s) (hg : Spaceless s (.key scancode))
    (hs : keyboardHandler junk s scancode = some s') : Delivers s' := by
  have hset : Delivers (setkey s scancode) := by
    obtain ⟨shift, ctrl, alt, he⟩ := setkey_same s scancode
    rw [he]
    exact ⟨h.typed, h.honoured, h.complete⟩
  unfold keyboardHandler at hs
  dsimp only at hs
  split_ifs at hs with hlt hch heof hback hctrl hshift
  · exact delivers_eof hset hs
  · exact delivers_backspace hset hs
  · have hne := accepted_ne hg hlt hch hctrl
    rw [if_pos hshift] at hne
    exact delivers_accept hset hne hs
  · have hne := accepted_ne hg hlt hch hctrl
    rw [if_neg hshift] at hne
    exact delivers_accept hset hne hs
  · exact Option.some.inj hs ▸ hset
  · exact Option.some.inj hs ▸ hset
  · exact Option.some.inj hs ▸ hset

/-- A read takes the first characters of the first message, and leaves the other ones there. -/
theorem delivers_take (h : Delivers s) (hs : take s t len = some s') : Delivers s' := by
  obtain ⟨lines, hlines, hall⟩ := h.complete
  unfold take at hs
  cases hl : s.inputList with
  | nil => simp [hl] at hs
  | cons input rest =>
    rw [hl] at hs hlines
    cases hlines with
    | @cons _ cs _ lines hmessage hrest =>
      obtain ⟨hnul, tail, rfl⟩ := hmessage
      obtain rfl := Option.some.inj hs
      refine ⟨h.typed, h.honoured, ?_⟩
      rw [← hall]
      simp only [strlen_terminated hnul]
      by_cases hlt : len < cs.length
      · obtain ⟨tail', hshift⟩ := @shift_terminated cs tail len hlt
        rw [if_pos hlt, hshift, min_eq_left hlt.le]
        refine ⟨cs.drop len :: lines, .cons ⟨fun hm => hnul (List.mem_of_mem_drop hm), tail', rfl⟩ hrest, ?_⟩
        rw [List.take_append_of_le_length hlt.le, List.flatten_cons, List.flatten_cons, List.append_assoc,
          ← List.append_assoc (cs.take len), List.take_append_drop]
      · rw [if_neg hlt, min_eq_right (Nat.le_of_not_lt hlt), List.take_left]
        exact ⟨lines, hrest, by rw [List.flatten_cons, List.append_assoc]⟩

theorem delivers_enter (h : Delivers s) (hs : enter s t len = some s') : Delivers s' := by
  unfold enter at hs
  split_ifs at hs
  · obtain rfl := Option.some.inj hs
    exact ⟨h.typed, h.honoured, h.complete⟩
  · exact delivers_take h hs

theorem delivers_step {a : Action} (h : Delivers s) (hg : Spaceless s a) (hs : step junk s a = some s') :
    Delivers s' := by
  cases a with
  | key scancode => exact delivers_key h hg hs
  | multitaskingInit =>
    obtain rfl := Option.some.inj hs
    exact ⟨h.typed, h.honoured, h.complete⟩
  | writeStdout =>
    obtain rfl := Option.some.inj hs
    exact ⟨h.typed, Nat.zero_le _, h.complete⟩
  | read t len =>
    simp only [step, syscallReadStdin] at hs
    split_ifs at hs
    · obtain rfl := Option.some.inj hs
      exact ⟨h.typed, h.honoured, h.complete⟩
    · refine delivers_enter ?_ hs
      exact ⟨h.typed, h.honoured, h.complete⟩
  | resume t =>
    simp only [step] at hs
    cases ht : s.phase t with
    | granted len =>
      rw [ht] at hs
      exact delivers_enter h hs
    | notified len =>
      rw [ht] at hs
      exact delivers_take h hs
    | out => simp [ht] at hs
    | queued len => simp [ht] at hs
    | registered len => simp [ht] at hs

theorem delivers_init {s₀ : State} (h₀ : init junk = some s₀) : Delivers s₀ := by
  obtain ⟨buffer, hnew, rfl⟩ := Option.map_eq_some_iff.mp h₀
  obtain ⟨fresh, hfresh, hholds⟩ := holds_new junk
  obtain rfl := Option.some.inj (hfresh.symm.trans hnew)
  exact ⟨hholds, Nat.zero_le _, [], .nil, rfl⟩

theorem texts_of_messages {inputs lines : List (List UInt8)} (h : List.Forall₂ Message inputs lines) :
    inputs.map text = lines := by
  induction h with
  | nil => rfl
  | cons hmessage _ ih =>
    obtain ⟨hnul, tail, rfl⟩ := hmessage
    rw [List.map_cons, text_terminated hnul, ih]

/-- As long as the space bar is not pressed with Shift, the reads return a prefix of the completed
lines, what is missing is in the messages, and the line that is typed is in the buffer. -/
theorem delivers_run {s₀ : State} {as : List Action} (h₀ : init junk = some s₀)
    (hg : Meets (step junk) Spaceless s₀ as) (hs : exec (step junk) s₀ as = some s) :
    s.returned <+: s.completed ∧
    s.returned ++ (s.inputList.map text).flatten = s.completed ∧
    text s.terminalBuffer.buffer = s.pending ∧ s.keyboardInputSize ≤ s.pending.length := by
  have h := exec_invariant (fun _ _ _ h hg ht => delivers_step h hg ht) (delivers_init h₀) hg hs
  obtain ⟨lines, hlines, hall⟩ := h.complete
  exact ⟨⟨lines.flatten, hall⟩, texts_of_messages hlines ▸ hall, h.typed.text, h.honoured⟩

/-- `a`, Backspace, `b`, Enter. -/
def typedRun : List Action := [.multitaskingInit, .key 30, .key 14, .key 48, .key 28, .read 1 1]

theorem delivers_run_typed : ∃ s₀ s, init (fun _ => 7) = some s₀ ∧ exec (step fun _ => 7) s₀ typedRun = some s ∧
    s.returned = [98] ∧ s.returned <+: s.completed := by
  have hmeets : ∀ s, Meets (step fun _ => 7) Spaceless s typedRun := fun s =>
    ⟨trivial, fun _ _ => ⟨nofun, fun _ _ => ⟨nofun, fun _ _ => ⟨nofun, fun _ _ => ⟨nofun, fun _ _ =>
      ⟨trivial, fun _ _ => trivial⟩⟩⟩⟩⟩⟩
  exact ⟨_, _, rfl, rfl, rfl, (@delivers_run (fun _ => 7) _ _ typedRun rfl (hmeets _) rfl).1⟩

/-- Shift and the space bar, Enter, `b`, Enter, and two reads: the first line is lost. -/
def shiftedRun : List Action := [.multitaskingInit, .key 42, .key 57, .key 170, .key 30, .key 28, .key 48,
  .key 28, .read 1 9, .read 1 9]

theorem shifted_space_lost : ∃ s₀ s, init (fun _ => 7) = some s₀ ∧
    exec (step fun _ => 7) s₀ shiftedRun = some s ∧ s.completed = [0, 97, 10, 98, 10] ∧
    s.returned = [98, 10] ∧ ¬ s.returned <+: s.completed :=
  ⟨_, _, rfl, rfl, rfl, rfl, by decide⟩

end Eedox.TerminalInput
