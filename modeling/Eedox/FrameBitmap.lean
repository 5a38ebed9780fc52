import Eedox.Library.Runs
import Eedox.Paging

namespace Eedox.FrameBitmap

open Library.Runs Bitset Paging

/-- `written` lists the bytes, counted from `start`, that the setter has stored to, and `value` is what a
set of frames holds at each index after the same operations. -/
structure State where
  glbFrames : BitsetT
  pages : ℕ → PageT
  written : List ℕ
  value : ℕ → Bool

inductive Operation
  | set (index : ℕ) (val : Bool)
  | alloc (page : ℕ) (isWritable isKernel : Bool)
  | free (page : ℕ)

def store (s : State) (index : ℕ) (val : Bool) : State :=
  { s with glbFrames := bitsetSet s.glbFrames index val, written := s.written ++ [index / 8] }

/-- Without a free frame the index is -1, taken as an unsigned word. -/
def allocFrame (s : State) (page : ℕ) (isWritable isKernel : Bool) : State :=
  match bitsetFirstUnset s.glbFrames with
  | none => store s (2 ^ 32 - 1) true
  | some idx =>
    let s := store s idx true
    { s with pages := Function.update s.pages page { s.pages page with
      frame := idx % 2 ^ 20, present := true, rw := isWritable, user := !isKernel } }

/-- The field of 20 bits is signed. -/
def signedFrame (frame : ℕ) : ℕ := if frame < 2 ^ 19 then frame else 2 ^ 32 - 2 ^ 20 + frame

def freeFrame (s : State) (page : ℕ) : State :=
  if (s.pages page).frame ≠ 0 then
    let s := store s (signedFrame (s.pages page).frame) false
    { s with pages := Function.update s.pages page { s.pages page with frame := 0, present := false } }
  else s

def leastUnset (value : ℕ → Bool) (len : ℕ) : Option ℕ := (List.range len).find? fun i => !value i

/-- The operation on the set of frames. -/
def onSet (s : State) : Operation → ℕ → Bool
  | .set index val => Function.update s.value index val
  | .alloc _ _ _ =>
    match leastUnset s.value s.glbFrames.len with
    | some i => Function.update s.value i true
    | none => s.value
  | .free page =>
    if (s.pages page).frame ≠ 0 then Function.update s.value (s.pages page).frame false else s.value

def perform (s : State) : Operation → State
  | .set index val => store s index val
  | .alloc page isWritable isKernel => allocFrame s page isWritable isKernel
  | .free page => freeFrame s page

def next (s : State) (op : Operation) : State := { perform s op with value := onSet s op }

def step (s : State) (op : Operation) : Option State :=
  match op with
  | .set index _ => if index < s.glbFrames.len then some (next s op) else none
  | _ => some (next s op)

def boot (memory : BitsetT) (len : ℕ) : State := ⟨bitsetInit memory len, fun _ => zeroPage, [], fun _ => false⟩

/-- The bitmap is the set of frames. -/
def Agrees (s : State) : Prop :=
  (∀ i < s.glbFrames.len, bitsetGet s.glbFrames i = s.value i) ∧
  bitsetFirstUnset s.glbFrames = leastUnset s.value s.glbFrames.len

/-- The step leads to a bitmap that is the set of frames, and an allocation writes only where there is a
frame left. -/
def Right (s : State) (op : Operation) : Prop := ∀ t, step s op = some t → Agrees t ∧
  ∀ page isWritable isKernel, op = .alloc page isWritable isKernel →
    leastUnset s.value s.glbFrames.len = none → t.written = s.written

/-- Nothing that is set is cleared, and no frame is asked for when all are in use. -/
def Clearless (s : State) : Operation → Prop
  | .set index val => index < s.glbFrames.len → val = true ∨ s.value index = false
  | .alloc _ _ _ => ∃ i < s.glbFrames.len, s.value i = false
  | .free page => (s.pages page).frame = 0 ∨ s.value (s.pages page).frame = false

structure Inv (s : State) : Prop where
  bytes : s.glbFrames.len % 8 = 0
  positive : 0 < s.glbFrames.len
  addressed : s.glbFrames.len < 2 ^ 32
  framed : ∀ page, (s.pages page).frame < s.glbFrames.len
  agrees : Agrees s

variable {s t : State} {op : Operation} {value : ℕ → Bool} {len : ℕ}

theorem bitsetSet_false (bs : BitsetT) (index : ℕ) : bitsetSet bs index false = bs := by
  have hbyte : bs.start (index / 8) ||| (if false = true then mask index else 0) = bs.start (index / 8) := by
    rw [if_neg Bool.false_ne_true, UInt8.or_zero]
  rw [bitsetSet, hbyte, Function.update_eq_self]

theorem leastUnset_eq_none : leastUnset value len = none ↔ ∀ i < len, value i = true := by
  simp [leastUnset, List.find?_eq_none]

theorem leastUnset_eq_some {k : ℕ} : leastUnset value len = some k ↔
    k < len ∧ value k = false ∧ ∀ j < k, value j = true := by
  unfold leastUnset
  rw [List.find?_range_eq_some]
  simp only [Bool.not_eq_true', List.mem_range, Bool.not_not]
  tauto

/-- The scan of a bitmap that agrees with the set at each index finds the least index that is not set. -/
theorem firstUnset_eq {bs : BitsetT} (h8 : bs.len % 8 = 0) (h : ∀ i < bs.len, bitsetGet bs i = value i) :
    bitsetFirstUnset bs = leastUnset value bs.len := by
  cases hfirst : bitsetFirstUnset bs with
  | none =>
    rw [eq_comm, leastUnset_eq_none]
    intro i hi
    rw [← h i hi]
    exact bitsetFirstUnset_none hfirst i (by omega)
  | some k =>
    obtain ⟨hk, hunset, hbelow⟩ := bitsetFirstUnset_some hfirst
    rw [eq_comm, leastUnset_eq_some]
    refine ⟨hk, (h k hk).symm.trans hunset, fun j hj => ?_⟩
    rw [← h j (by omega)]
    exact hbelow j hj

theorem agrees_iff (h8 : s.glbFrames.len % 8 = 0) :
    Agrees s ↔ ∀ i < s.glbFrames.len, bitsetGet s.glbFrames i = s.value i :=
  ⟨And.left, fun h => ⟨h, firstUnset_eq h8 h⟩⟩

theorem perform_len (s : State) (op : Operation) : (perform s op).glbFrames.len = s.glbFrames.len := by
  cases op with
  | set index val => rfl
  | alloc page isWritable isKernel =>
    simp only [perform, allocFrame]
    cases bitsetFirstUnset s.glbFrames <;> rfl
  | free page =>
    simp only [perform, freeFrame]
    split_ifs <;> rfl

theorem next_agrees (h8 : s.glbFrames.len % 8 = 0) (op : Operation) : Agrees (next s op) ↔
    ∀ i < s.glbFrames.len, bitsetGet (perform s op).glbFrames i = onSet s op i := by
  have hlen : (next s op).glbFrames.len = s.glbFrames.len := perform_len s op
  rw [agrees_iff (by rw [hlen, h8]), hlen]
  exact Iff.rfl

/-- Where the bitmap is left alone, clearing an index of the set is right only where it was not in it. -/
theorem agrees_clear {f : ℕ} (h : ∀ i < s.glbFrames.len, bitsetGet s.glbFrames i = s.value i)
    (hf : f < s.glbFrames.len) :
    (∀ i < s.glbFrames.len, bitsetGet s.glbFrames i = Function.update s.value f false i) ↔
      s.value f = false := by
  constructor
  · intro hclear
    rw [← h f hf, hclear f hf, Function.update_self]
  · intro hfalse
    rw [← hfalse, Function.update_eq_self]
    exact h

theorem agrees_mark {f : ℕ} (h : ∀ i < s.glbFrames.len, bitsetGet s.glbFrames i = s.value i) :
    ∀ i < s.glbFrames.len, bitsetGet (bitsetSet s.glbFrames f true) i = Function.update s.value f true i := by
  intro i hi
  rw [bitsetGet_set, h i hi]
  by_cases hif : i = f
  · rw [hif, Function.update_self, decide_eq_true rfl, Bool.true_or]
  · rw [Function.update_of_ne hif, decide_eq_false hif, Bool.false_or]

theorem right_set {index : ℕ} {val : Bool} (h : Inv s) :
    Right s (.set index val) ↔ Clearless s (.set index val) := by
  have hget := h.agrees.1
  by_cases hi : index < s.glbFrames.len
  · have hright : Right s (.set index val) ↔ Agrees (next s (.set index val)) := by
      simp [Right, step, hi]
    rw [hright, next_agrees h.bytes]
    cases val with
    | true => exact iff_of_true (agrees_mark hget) fun _ => Or.inl rfl
    | false =>
      simp only [perform, store, bitsetSet_false, onSet, Clearless, hi, Bool.false_eq_true, false_or,
        true_implies]
      exact agrees_clear hget hi
  · refine iff_of_true (fun t ht => ?_) fun hlt => absurd hlt hi
    simp [step, hi] at ht

theorem right_alloc {page : ℕ} {isWritable isKernel : Bool} (h : Inv s) :
    Right s (.alloc page isWritable isKernel) ↔ Clearless s (.alloc page isWritable isKernel) := by
  have hget := h.agrees.1
  have hfirst := h.agrees.2
  cases hleast : leastUnset s.value s.glbFrames.len with
  | none =>
    have hfull : ¬ Clearless s (.alloc page isWritable isKernel) := by
      rintro ⟨i, hi, hunset⟩
      rw [leastUnset_eq_none.mp hleast i hi] at hunset
      cases hunset
    refine iff_of_false (fun hright => ?_) hfull
    have hwritten := (hright _ rfl).2 page isWritable isKernel rfl hleast
    rw [hleast] at hfirst
    simp only [next, perform, allocFrame, hfirst, store] at hwritten
    simpa using congrArg List.length hwritten
  | some k =>
    obtain ⟨hk, hunset, -⟩ := leastUnset_eq_some.mp hleast
    refine iff_of_true (fun t ht => ?_) ⟨k, hk, hunset⟩
    obtain rfl := Option.some.inj ht
    refine ⟨(next_agrees h.bytes _).mpr ?_, fun _ _ _ _ hnone => ?_⟩
    · simp only [perform, allocFrame, hfirst, hleast, onSet, store]
      exact agrees_mark hget
    · rw [hleast] at hnone
      cases hnone

theorem right_free {page : ℕ} (h : Inv s) : Right s (.free page) ↔ Clearless s (.free page) := by
  have hget := h.agrees.1
  have hright : Right s (.free page) ↔ Agrees (next s (.free page)) := by
    simp [Right, step]
  rw [hright, next_agrees h.bytes]
  simp only [perform, freeFrame, onSet, Clearless]
  by_cases hframe : (s.pages page).frame = 0
  · simp only [hframe, ne_eq, not_true_eq_false, if_false, true_or, iff_true]
    exact hget
  · rw [if_pos hframe, if_pos hframe]
    simp only [store, bitsetSet_false, hframe, false_or]
    exact agrees_clear hget (h.framed page)

theorem right_iff (h : Inv s) (op : Operation) : Right s op ↔ Clearless s op := by
  cases op with
  | set index val => exact right_set h
  | alloc page isWritable isKernel => exact right_alloc h
  | free page => exact right_free h

theorem step_eq_some (h : step s op = some t) : next s op = t := by
  cases op with
  | set index val =>
    simp only [step] at h
    split_ifs at h
    exact Option.some.inj h
  | alloc page isWritable isKernel => exact Option.some.inj h
  | free page => exact Option.some.inj h

theorem framed_next (h : Inv s) (op : Operation) (page : ℕ) :
    ((next s op).pages page).frame < s.glbFrames.len := by
  have hold := h.framed page
  cases op with
  | set index val => exact hold
  | alloc p isWritable isKernel =>
    simp only [next, perform, allocFrame]
    cases hfirst : bitsetFirstUnset s.glbFrames with
    | none => exact hold
    | some idx =>
      have hidx := (bitsetFirstUnset_some hfirst).1
      have hmod := Nat.mod_le idx (2 ^ 20)
      by_cases hp : page = p
      · simp only [hp, Function.update_self]
        exact hmod.trans_lt hidx
      · simp only [Function.update_of_ne hp, store]
        exact hold
  | free p =>
    simp only [next, perform, freeFrame]
    split_ifs with hframe
    · by_cases hp : page = p
      · simp only [hp, Function.update_self]
        exact h.positive
      · simp only [Function.update_of_ne hp, store]
        exact hold
    · exact hold

theorem inv_step (h : Inv s) (hg : Clearless s op) (ht : step s op = some t) : Inv t := by
  have hagrees := ((right_iff h op).mpr hg t ht).1
  obtain rfl := step_eq_some ht
  have hlen : (next s op).glbFrames.len = s.glbFrames.len := perform_len s op
  refine ⟨?_, ?_, ?_, fun page => ?_, hagrees⟩
  · rw [hlen]
    exact h.bytes
  · rw [hlen]
    exact h.positive
  · rw [hlen]
    exact h.addressed
  · rw [hlen]
    exact framed_next h op page

theorem inv_boot (memory : BitsetT) (h8 : len % 8 = 0) (hpos : 0 < len) (hlt : len < 2 ^ 32) :
    Inv (boot memory len) := by
  refine ⟨h8, hpos, hlt, fun page => hpos, (agrees_iff h8).mpr fun i hi => ?_⟩
  change i < len at hi
  exact bitsetGet_init memory (by omega)

/-- The bitmap is the set of frames all through a run if and only if the run clears nothing and asks for
no frame when all are in use. -/
theorem refines_set_iff (memory : BitsetT) {len : ℕ} (h8 : len % 8 = 0) (hpos : 0 < len)
    (hlt : len < 2 ^ 32) (ops : List Operation) :
    (Agrees (boot memory len) ∧ ∀ before op s, before ++ [op] <+: ops →
      exec step (boot memory len) before = some s → Right s op) ↔
    Meets step Clearless (boot memory len) ops := by
  have hboot := inv_boot memory h8 hpos hlt
  rw [and_iff_right hboot.agrees]
  exact (meets_iff_steps (fun _ _ _ => inv_step) (fun s op h => right_iff h op) hboot).symm

def blank : BitsetT := ⟨fun _ => 7, 0⟩

theorem refines_set_iff_marks : Meets step Clearless (boot blank 8) [.set 3 true] ∧
    (Agrees (boot blank 8) ∧ ∀ before op s, before ++ [op] <+: [.set 3 true] →
      exec step (boot blank 8) before = some s → Right s op) := by
  have hmeets : Meets step Clearless (boot blank 8) [.set 3 true] :=
    ⟨fun _ => Or.inl rfl, fun _ _ => trivial⟩
  exact ⟨hmeets, (refines_set_iff blank (by decide) (by decide) (by decide) _).mpr hmeets⟩

/-- A bit that is set and then cleared is still set, and the frame of a page stays in use when the page
is freed. -/
theorem stays_set :
    bitsetGet (bitsetSet (bitsetSet (bitsetInit blank 8) 3 true) 3 false) 3 = true ∧
    ∃ s, exec step (boot blank 16) [.alloc 0 true true, .alloc 1 true false, .free 1] = some s ∧
      s.value 1 = false ∧ bitsetFirstUnset s.glbFrames = some 2 := by
  refine ⟨by decide, _, rfl, ?_, ?_⟩ <;> decide

end Eedox.FrameBitmap
