import Mathlib.Data.List.Basic
import Mathlib.Logic.Function.Basic

namespace Eedox.Library.Ia32

abbrev Word := BitVec 32

abbrev Memory := Word → Word

inductive Reg
  | eax | ecx | edx | ebx | esp | ebp | esi | edi
  deriving DecidableEq

inductive Seg
  | ds | es | fs | gs
  deriving DecidableEq

/-- The processor with the stack that its task state segment names, the words of the memory, and what else there is.
The accesses of one stack are four bytes apart, so every address stands for a word of its own. -/
structure Machine (W : Type) where
  reg : Reg → Word
  seg : Seg → BitVec 16
  cs : BitVec 16
  ss : BitVec 16
  eip : Word
  eflags : Word
  esp0 : Word
  ss0 : BitVec 16
  mem : Memory
  world : W

/-- What an interrupt routine is written with. `F` names the routines that it calls. -/
inductive Instr (F : Type)
  | cli | sti
  | pushImm (w : Word)
  | push (r : Reg)
  | pop (r : Reg)
  | pusha | popa
  | movAxSeg (s : Seg)
  | movAxImm (h : BitVec 16)
  | movSegAx (s : Seg)
  | add (r : Reg) (w : Word)
  | call (f : F)
  | iret

def low (w : Word) : BitVec 16 := w.setWidth 16

/-- The word with its low half replaced. -/
def withLow (w : Word) (h : BitVec 16) : Word := BitVec.ofNat 32 (w.toNat / 0x10000 * 0x10000 + h.toNat)

/-- The privilege level that a selector asks for. -/
def rpl (s : BitVec 16) : ℕ := s.toNat % 4

namespace Machine

variable {W : Type}

def setReg (m : Machine W) (r : Reg) (w : Word) : Machine W := { m with reg := Function.update m.reg r w }

def setSeg (m : Machine W) (s : Seg) (h : BitVec 16) : Machine W := { m with seg := Function.update m.seg s h }

def pushWord (m : Machine W) (w : Word) : Machine W :=
  { m.setReg .esp (m.reg .esp - 4) with mem := Function.update m.mem (m.reg .esp - 4) w }

def top (m : Machine W) : Word := m.mem (m.reg .esp)

def drop (m : Machine W) : Machine W := m.setReg .esp (m.reg .esp + 4)

def popTo (m : Machine W) (r : Reg) : Machine W := m.drop.setReg r m.top

def pusha (m : Machine W) : Machine W :=
  [Reg.eax, .ecx, .edx, .ebx, .esp, .ebp, .esi, .edi].foldl (fun n r => n.pushWord (m.reg r)) m

/-- A word is popped to a register or passed over. -/
def load (m : Machine W) : Option Reg → Machine W
  | some r => m.popTo r
  | none => m.drop

/-- The word for `esp` is passed over. -/
def popa (m : Machine W) : Machine W :=
  [some Reg.edi, some .esi, some .ebp, none, some .ebx, some .edx, some .ecx, some .eax].foldl load m

/-- Back to a less privileged level, the stack comes from the frame too. -/
def iret (m : Machine W) : Machine W :=
  let m₁ := m.drop
  let m₂ := m₁.drop
  let m₃ := m₂.drop
  let m' := { m₃ with eip := m.top, cs := low m₁.top, eflags := m₂.top }
  if rpl m.cs < rpl m'.cs then { m'.setReg .esp m₃.top with ss := low m₃.drop.top } else m'

end Machine

open Machine

variable {W F : Type}

def interruptFlag : Word := 0x200

/-- One instruction. What `add` does to the arithmetic flags is left out. -/
def Instr.exec (callee : F → Machine W → Option (Machine W)) (m : Machine W) : Instr F → Option (Machine W)
  | .cli => some { m with eflags := m.eflags &&& ~~~interruptFlag }
  | .sti => some { m with eflags := m.eflags ||| interruptFlag }
  | .pushImm w => some (m.pushWord w)
  | .push r => some (m.pushWord (m.reg r))
  | .pop r => some (m.popTo r)
  | .pusha => some m.pusha
  | .popa => some m.popa
  | .movAxSeg s => some (m.setReg .eax (withLow (m.reg .eax) (m.seg s)))
  | .movAxImm h => some (m.setReg .eax (withLow (m.reg .eax) h))
  | .movSegAx s => some (m.setSeg s (low (m.reg .eax)))
  | .add r w => some (m.setReg r (m.reg r + w))
  | .call f => callee f m
  | .iret => some m.iret

def run (callee : F → Machine W → Option (Machine W)) (m : Machine W) : List (Instr F) → Option (Machine W)
  | [] => some m
  | i :: is => (i.exec callee m).bind fun n => run callee n is

section Run

variable (callee : F → Machine W → Option (Machine W)) (m : Machine W) (is : List (Instr F))

theorem run_cli : run callee m (.cli :: is) =
    run callee { m with eflags := m.eflags &&& ~~~interruptFlag } is := rfl

theorem run_pushImm (w : Word) : run callee m (.pushImm w :: is) = run callee (m.pushWord w) is := rfl

theorem run_push (r : Reg) : run callee m (.push r :: is) = run callee (m.pushWord (m.reg r)) is := rfl

theorem run_pop (r : Reg) : run callee m (.pop r :: is) = run callee (m.popTo r) is := rfl

theorem run_pusha : run callee m (.pusha :: is) = run callee m.pusha is := rfl

theorem run_popa : run callee m (.popa :: is) = run callee m.popa is := rfl

theorem run_movAxSeg (s : Seg) : run callee m (.movAxSeg s :: is) =
    run callee (m.setReg .eax (withLow (m.reg .eax) (m.seg s))) is := rfl

theorem run_movAxImm (x : BitVec 16) : run callee m (.movAxImm x :: is) =
    run callee (m.setReg .eax (withLow (m.reg .eax) x)) is := rfl

end Run

/-- The exceptions for which the processor pushes an error code. -/
def pushesError (vec : ℕ) : Bool := vec ∈ [8, 10, 11, 12, 13, 14, 17]

/-- What the processor pushes for an interrupt, the last word first. -/
def frame (m : Machine W) (err : Option Word) : List Word :=
  err.toList ++ [m.eip, m.cs.setWidth 32, m.eflags] ++
    if rpl m.cs = 0 then [] else [m.reg .esp, m.ss.setWidth 32]

/-- An interrupt through a gate to level 0: the stack is changed where the level is, and the flags TF, IF, NT, RF and VM
are cleared. -/
def enter (m : Machine W) (offset : Word) (selector : BitVec 16) (err : Option Word) : Machine W :=
  let m₁ := if rpl m.cs = 0 then m else { m.setReg .esp m.esp0 with ss := m.ss0 }
  let m₂ := (frame m err).foldr (fun w n => n.pushWord w) m₁
  { m₂ with cs := selector, eip := offset, eflags := m.eflags &&& 0xfffcbcff }

section C

/-- The address of the `i`-th word that is pushed on a stack. -/
def slot (base : Word) (i : ℕ) : Word := base - BitVec.ofNat 32 (4 * i)

/-- What compiled C code leaves in the registers that a caller may not rely on, and below its caller's stack. -/
structure Clobber where
  eax : Word
  ecx : Word
  edx : Word
  eflags : Word
  below : ℕ → Word

def readWords (mem : Memory) (a : Word) : ℕ → List Word
  | 0 => []
  | n + 1 => mem a :: readWords mem (a + 4) n

def writeWords (mem : Memory) (a : Word) : List Word → Memory
  | [] => mem
  | w :: ws => Function.update (writeWords mem (a + 4) ws) a w

def scribble (mem : Memory) (esp : Word) (below : ℕ → Word) : ℕ → Memory
  | 0 => mem
  | n + 1 => Function.update (scribble mem esp below n) (slot esp (n + 1)) (below n)

/-- The call of a C function with a pointer to `count` words, which it reads and writes. It leaves the pointer as it is,
and its own stack takes `depth` words. -/
def ccall (count depth : ℕ) (leaves : Machine W → Clobber) (f : List Word → W → Option (List Word × W))
    (m : Machine W) : Option (Machine W) :=
  (f (readWords m.mem m.top count) m.world).map fun (ws, world) =>
    let c := leaves m
    { ((m.setReg .eax c.eax).setReg .ecx c.ecx).setReg .edx c.edx with
      eflags := c.eflags, world := world
      mem := scribble (writeWords m.mem m.top ws) (m.reg .esp) c.below depth }

end C

section Slots

theorem slot_zero (base : Word) : slot base 0 = base := by simp [slot]

theorem slot_succ (base : Word) (i : ℕ) : slot base (i + 1) = slot base i - 4 := by
  simp only [slot]
  rw [show 4 * (i + 1) = 4 * i + 4 by omega, BitVec.ofNat_add]
  bv_omega

theorem slot_add (base : Word) (i j : ℕ) : slot base (i + j) + BitVec.ofNat 32 (4 * j) = slot base i := by
  simp only [slot]
  rw [show 4 * (i + j) = 4 * i + 4 * j by omega, BitVec.ofNat_add]
  bv_omega

/-- Stacks stay below a size of 2³⁰ words. -/
def room : ℕ := 0x40000000

theorem slot_inj {base : Word} {i j : ℕ} (hi : i < room) (hj : j < room) (h : slot base i = slot base j) : i = j := by
  simp only [slot, room] at *
  have hoffset := (BitVec.sub_right_inj _).mp h
  have heq := congrArg BitVec.toNat hoffset
  simp only [BitVec.toNat_ofNat] at heq
  omega

end Slots

/-- The words of a stack, the last pushed first. -/
def Holds (mem : Memory) (base : Word) : List Word → Prop
  | [] => True
  | w :: ws => mem (slot base (ws.length + 1)) = w ∧ Holds mem base ws

/-- The addresses of a stack that is `depth` words deep. -/
def Under (base : Word) (depth : ℕ) (a : Word) : Prop := 0 < (base - a).toNat ∧ (base - a).toNat ≤ 4 * depth

instance (base : Word) (depth : ℕ) (a : Word) : Decidable (Under base depth a) :=
  inferInstanceAs (Decidable (_ ∧ _))

theorem under_slot {base : Word} {depth i : ℕ} (hi : 0 < i) (hle : i ≤ depth) (hd : depth < room) :
    Under base depth (slot base i) := by
  have hdist : base - slot base i = BitVec.ofNat 32 (4 * i) := by
    simp only [slot]
    bv_omega
  rw [Under, hdist, BitVec.toNat_ofNat]
  simp only [room] at hd
  omega

theorem holds_above {mem : Memory} {base : Word} {ws : List Word} {i : ℕ} {w : Word} (h : Holds mem base ws)
    (hlen : ws.length < i) (hi : i < room) : Holds (Function.update mem (slot base i) w) base ws := by
  induction ws with
  | nil => trivial
  | cons v ws ih =>
    rw [List.length_cons] at hlen
    refine ⟨?_, ih h.2 (by omega)⟩
    have hne : slot base (ws.length + 1) ≠ slot base i := by
      intro heq
      have hsame := slot_inj (by omega) hi heq
      omega
    exact (Function.update_of_ne hne w mem).trans h.1

/-- The stack on `base` holds `ws`, and outside it the memory is `mem₀`. -/
structure Stacked (base : Word) (depth : ℕ) (mem₀ : Memory) (m : Machine W) (ws : List Word) : Prop where
  esp : m.reg .esp = slot base ws.length
  holds : Holds m.mem base ws
  frame : ∀ a, ¬ Under base depth a → m.mem a = mem₀ a

section Stacked

variable {base : Word} {depth : ℕ} {mem₀ : Memory} {m : Machine W} {ws us : List Word} {w : Word} {r : Reg}

theorem stacked_congr {n : Machine W} (h : Stacked base depth mem₀ m ws) (hesp : n.reg .esp = m.reg .esp)
    (hmem : n.mem = m.mem) : Stacked base depth mem₀ n ws :=
  ⟨hesp.trans h.esp, hmem ▸ h.holds, hmem ▸ h.frame⟩

theorem stacked_setReg (h : Stacked base depth mem₀ m ws) (hr : r ≠ .esp) :
    Stacked base depth mem₀ (m.setReg r w) ws :=
  stacked_congr h (Function.update_of_ne hr.symm _ _) rfl

theorem frame_update {mem : Memory} (h : ∀ a, ¬ Under base depth a → mem a = mem₀ a) {i : ℕ} (hi : 0 < i)
    (hle : i ≤ depth) (hd : depth < room) (w : Word) :
    ∀ a, ¬ Under base depth a → Function.update mem (slot base i) w a = mem₀ a := by
  intro a ha
  have hne : a ≠ slot base i := by
    rintro rfl
    exact ha (under_slot hi hle hd)
  exact (Function.update_of_ne hne w mem).trans (h a ha)

theorem stacked_push (h : Stacked base depth mem₀ m ws) (hlen : ws.length < depth) (hd : depth < room) :
    Stacked base depth mem₀ (m.pushWord w) (w :: ws) := by
  have hslot : m.reg .esp - 4 = slot base (ws.length + 1) := by rw [h.esp, slot_succ]
  refine ⟨?_, ?_, ?_⟩
  · rw [List.length_cons, ← hslot]
    exact Function.update_self Reg.esp (m.reg .esp - 4) m.reg
  · simp only [pushWord, hslot]
    exact ⟨Function.update_self (slot base (ws.length + 1)) w m.mem, holds_above h.holds (by omega) (by omega)⟩
  · simp only [pushWord, hslot]
    exact frame_update h.frame (by omega) (by omega) hd w

theorem stacked_pushes (us : List Word) (h : Stacked base depth mem₀ m ws) (hlen : us.length + ws.length ≤ depth)
    (hd : depth < room) : Stacked base depth mem₀ (us.foldr (fun w n => n.pushWord w) m) (us ++ ws) := by
  induction us with
  | nil => exact h
  | cons u us ih =>
    rw [List.length_cons] at hlen
    have hbelow : (us ++ ws).length < depth := by
      rw [List.length_append]
      omega
    exact stacked_push (ih (by omega)) hbelow hd

theorem pushes_reg (us : List Word) (m : Machine W) (hr : r ≠ .esp) :
    (us.foldr (fun w n => n.pushWord w) m).reg r = m.reg r := by
  induction us with
  | nil => rfl
  | cons u us ih => exact (Function.update_of_ne hr _ _).trans ih

/-- What instructions on registers, data segments and the stack leave alone. -/
structure SameTask (m n : Machine W) : Prop where
  cs : n.cs = m.cs
  esp0 : n.esp0 = m.esp0
  ss0 : n.ss0 = m.ss0
  world : n.world = m.world

theorem SameTask.trans {m n k : Machine W} (h : SameTask m n) (h' : SameTask n k) : SameTask m k :=
  ⟨h'.cs.trans h.cs, h'.esp0.trans h.esp0, h'.ss0.trans h.ss0, h'.world.trans h.world⟩

theorem sameTask_setReg (m : Machine W) (r : Reg) (w : Word) : SameTask m (m.setReg r w) := ⟨rfl, rfl, rfl, rfl⟩

theorem sameTask_seg (m : Machine W) (seg : Seg → BitVec 16) : SameTask m { m with seg := seg } := ⟨rfl, rfl, rfl, rfl⟩

theorem sameTask_pushWord (m : Machine W) (w : Word) : SameTask m (m.pushWord w) := ⟨rfl, rfl, rfl, rfl⟩

theorem pushes_only (us : List Word) (m : Machine W) : us.foldr (fun w n => n.pushWord w) m =
    { m with reg := (us.foldr (fun w n => n.pushWord w) m).reg, mem := (us.foldr (fun w n => n.pushWord w) m).mem } := by
  induction us with
  | nil => rfl
  | cons u us ih =>
    rw [List.foldr_cons, ih]
    rfl

theorem stacked_top (h : Stacked base depth mem₀ m (w :: ws)) : m.top = w := by
  rw [top, h.esp]
  exact h.holds.1

theorem stacked_drop (h : Stacked base depth mem₀ m (w :: ws)) : Stacked base depth mem₀ m.drop ws := by
  refine ⟨?_, h.holds.2, h.frame⟩
  have hesp : m.drop.reg .esp = m.reg .esp + 4 := by simp [drop, setReg]
  rw [hesp, h.esp, List.length_cons]
  exact slot_add base ws.length 1

theorem stacked_popTo (h : Stacked base depth mem₀ m (w :: ws)) (hr : r ≠ .esp) :
    Stacked base depth mem₀ (m.popTo r) ws ∧ m.popTo r = m.drop.setReg r w := by
  rw [popTo, stacked_top h]
  exact ⟨stacked_setReg (stacked_drop h) hr, rfl⟩

/-- The words of `pusha`, the last first. -/
def saved (m : Machine W) : List Word :=
  [m.reg .edi, m.reg .esi, m.reg .ebp, m.reg .esp, m.reg .ebx, m.reg .edx, m.reg .ecx, m.reg .eax]

theorem pusha_eq (m : Machine W) : m.pusha = (saved m).foldr (fun w n => n.pushWord w) m := rfl

/-- The registers after the words `us` have been popped. -/
def assign : List (Option Reg) → List Word → (Reg → Word) → Reg → Word
  | some r :: rs, u :: us, g => assign rs us (Function.update g r u)
  | none :: rs, _ :: us, g => assign rs us g
  | _, _, g => g

theorem assign_congr {rs : List (Option Reg)} {us : List Word} {g g' : Reg → Word} (h : ∀ r, r ≠ .esp → g r = g' r)
    (r : Reg) (hr : r ≠ .esp) : assign rs us g r = assign rs us g' r := by
  induction rs generalizing us g g' with
  | nil => exact h r hr
  | cons s rs ih =>
    cases us with
    | nil => cases s <;> exact h r hr
    | cons u us =>
      cases s with
      | none => exact ih h
      | some s =>
        refine ih fun q hq => ?_
        by_cases hs : q = s
        · rw [hs, Function.update_self, Function.update_self]
        · rw [Function.update_of_ne hs, Function.update_of_ne hs]
          exact h q hq

theorem stacked_loads (rs : List (Option Reg)) (us : List Word) (hrs : some .esp ∉ rs) (hlen : rs.length = us.length)
    (h : Stacked base depth mem₀ m (us ++ ws)) : Stacked base depth mem₀ (rs.foldl load m) ws ∧
      (∀ r, r ≠ .esp → (rs.foldl load m).reg r = assign rs us m.reg r) ∧
      rs.foldl load m = { m with reg := (rs.foldl load m).reg } := by
  induction rs generalizing us m with
  | nil =>
    obtain rfl := List.length_eq_zero_iff.mp hlen.symm
    exact ⟨h, fun _ _ => rfl, rfl⟩
  | cons r rs ih =>
    obtain ⟨u, us, rfl⟩ := List.exists_cons_of_length_pos (l := us) (by rw [← hlen, List.length_cons]; omega)
    have hrest : some .esp ∉ rs := fun hmem => hrs (List.mem_cons_of_mem _ hmem)
    have hdrop : ∀ q, q ≠ Reg.esp → m.drop.reg q = m.reg q := fun q hq => Function.update_of_ne hq _ m.reg
    cases r with
    | none =>
      obtain ⟨hs, hreg, heq⟩ := ih us hrest (Nat.succ.inj hlen) (stacked_drop h)
      refine ⟨hs, fun q hq => (hreg q hq).trans (assign_congr hdrop q hq), heq⟩
    | some r =>
      have hr : r ≠ .esp := by
        rintro rfl
        exact hrs List.mem_cons_self
      obtain ⟨hpop, hval⟩ := stacked_popTo h hr
      obtain ⟨hs, hreg, heq⟩ := ih us hrest (Nat.succ.inj hlen) hpop
      refine ⟨hs, fun q hq => (hreg q hq).trans ?_, heq⟩
      rw [hval]
      refine assign_congr (fun q hq => ?_) q hq
      by_cases hs : q = r
      · rw [hs]
        exact (Function.update_self r u m.drop.reg).trans (Function.update_self r u m.reg).symm
      · exact (Function.update_of_ne hs u m.drop.reg).trans ((hdrop q hq).trans (Function.update_of_ne hs u m.reg).symm)

/-- An interrupt at a less privileged level finds the stack of the task state segment empty. -/
theorem stacked_enter (offset : Word) (selector : BitVec 16) {err : Option Word} (hcs : rpl m.cs ≠ 0)
    (hlen : (frame m err).length ≤ depth) (hd : depth < room) :
    Stacked m.esp0 depth m.mem (enter m offset selector err) (frame m err) := by
  have hempty : Stacked m.esp0 depth m.mem { m.setReg .esp m.esp0 with ss := m.ss0 } [] :=
    ⟨by simp [setReg, slot_zero], trivial, fun _ _ => rfl⟩
  have hpushed := stacked_pushes (frame m err) hempty (by rw [List.length_nil]; omega) hd
  rw [List.append_nil] at hpushed
  rw [enter, if_neg hcs]
  exact stacked_congr hpushed rfl rfl

theorem enter_reg (offset : Word) (selector : BitVec 16) (err : Option Word) (hcs : rpl m.cs ≠ 0) (hr : r ≠ .esp) :
    (enter m offset selector err).reg r = m.reg r := by
  rw [enter, if_neg hcs]
  exact (pushes_reg (frame m err) _ hr).trans (Function.update_of_ne hr _ _)

theorem enter_only (offset : Word) (selector : BitVec 16) (err : Option Word) (hcs : rpl m.cs ≠ 0) :
    enter m offset selector err = { m with
      reg := (enter m offset selector err).reg, cs := selector, ss := m.ss0, eip := offset
      eflags := m.eflags &&& 0xfffcbcff, mem := (enter m offset selector err).mem } := by
  rw [enter, if_neg hcs]
  conv_lhs => rw [pushes_only]
  rfl

theorem iret_outer {eip cs eflags esp ss : Word} (h : Stacked base depth mem₀ m (eip :: cs :: eflags :: esp :: ss :: ws))
    (hlevel : rpl m.cs < rpl (low cs)) : m.iret = { m with
      reg := Function.update m.reg .esp esp, cs := low cs, ss := low ss, eip := eip, eflags := eflags } := by
  have h₁ := stacked_drop h
  have h₂ := stacked_drop h₁
  have h₃ := stacked_drop h₂
  simp only [iret, stacked_top h, stacked_top h₁, stacked_top h₂, stacked_top h₃, stacked_top (stacked_drop h₃)]
  rw [if_pos hlevel]
  simp only [setReg, drop, Function.update_idem]

theorem stacked_scribble (h : Stacked base depth mem₀ m ws) (below : ℕ → Word) {n : ℕ}
    (hlen : ws.length + n ≤ depth) (hd : depth < room) :
    Stacked base depth mem₀ { m with mem := scribble m.mem (m.reg .esp) below n } ws := by
  induction n with
  | zero => exact h
  | succ n ih =>
    obtain ⟨hesp, hholds, hframe⟩ := ih (by omega)
    have hslot : slot (m.reg .esp) (n + 1) = slot base (ws.length + (n + 1)) := by
      rw [h.esp, ← slot_add base ws.length (n + 1)]
      simp only [slot]
      bv_omega
    refine ⟨hesp, ?_, ?_⟩
    · simp only [scribble, hslot]
      exact holds_above hholds (by omega) (by omega)
    · simp only [scribble, hslot]
      exact frame_update hframe (by omega) hlen hd _

theorem readWords_holds {mem : Memory} (h : Holds mem base (us ++ ws)) :
    readWords mem (slot base (us.length + ws.length)) us.length = us := by
  induction us with
  | nil => rfl
  | cons u us ih =>
    have hlen : (u :: us).length + ws.length = us.length + ws.length + 1 := by
      rw [List.length_cons]
      omega
    have hhead : mem (slot base (us.length + ws.length + 1)) = u := by
      rw [← List.length_append]
      exact h.1
    rw [List.length_cons, readWords, ← List.length_cons, hlen, hhead]
    exact congrArg (u :: ·) ((congrArg (readWords mem · us.length) (slot_add base _ 1)).trans (ih h.2))

theorem holds_replace {mem : Memory} {v : Word} (vs : List Word) (h : Holds mem base (vs ++ v :: ws))
    (hlen : (vs ++ v :: ws).length < room) :
    Holds (Function.update mem (slot base (ws.length + 1)) w) base (vs ++ w :: ws) := by
  induction vs with
  | nil => exact ⟨Function.update_self (slot base (ws.length + 1)) w mem, holds_above h.2 (by omega) hlen⟩
  | cons u vs ih =>
    simp only [List.cons_append, List.length_cons, List.length_append] at hlen
    have hne : slot base ((vs ++ w :: ws).length + 1) ≠ slot base (ws.length + 1) := by
      intro heq
      have hsame := slot_inj (by simp only [List.length_append, List.length_cons]; omega) (by omega) heq
      simp only [List.length_append, List.length_cons] at hsame
      omega
    refine ⟨?_, ih h.2 (by simp only [List.length_append, List.length_cons]; omega)⟩
    change Function.update mem _ w (slot base ((vs ++ w :: ws).length + 1)) = u
    have hold : mem (slot base ((vs ++ v :: ws).length + 1)) = u := h.1
    simp only [List.length_append, List.length_cons] at hold hne ⊢
    exact (Function.update_of_ne hne w mem).trans hold

theorem holds_writeWords {mem : Memory} {us' : List Word} (vs : List Word) (h : Holds mem base (vs ++ (us ++ ws)))
    (hlen : us'.length = us.length) (hroom : (vs ++ (us ++ ws)).length < room) :
    Holds (writeWords mem (slot base (us.length + ws.length)) us') base (vs ++ (us' ++ ws)) := by
  induction us' generalizing us vs with
  | nil =>
    obtain rfl := List.length_eq_zero_iff.mp hlen.symm
    exact h
  | cons u' us' ih =>
    obtain ⟨u, us, rfl⟩ := List.exists_cons_of_length_pos (l := us) (by rw [← hlen, List.length_cons]; omega)
    have hlen' : us'.length = us.length := Nat.succ.inj hlen
    have happ : ∀ zs : List Word, ∀ z, vs ++ (z :: zs ++ ws) = (vs ++ [z]) ++ (zs ++ ws) := by simp
    rw [happ] at h hroom
    have hrest := ih (vs ++ [u]) h hlen' hroom
    have hat : slot base ((u :: us).length + ws.length) + 4 = slot base (us.length + ws.length) := by
      rw [List.length_cons, show us.length + 1 + ws.length = us.length + ws.length + 1 by omega]
      exact slot_add base _ 1
    have htop : slot base ((u :: us).length + ws.length) = slot base ((us' ++ ws).length + 1) := by
      rw [List.length_cons, List.length_append, hlen']
      congr 1
      omega
    rw [writeWords, hat, htop]
    rw [← happ] at hrest
    refine holds_replace vs hrest ?_
    simp only [List.length_append, List.length_cons, List.length_nil, hlen'] at hroom ⊢
    omega

theorem frame_writeWords {mem : Memory} (h : ∀ a, ¬ Under base depth a → mem a = mem₀ a) {i : ℕ} (us : List Word)
    (hi : us.length ≤ i) (hle : i ≤ depth) (hd : depth < room) :
    ∀ a, ¬ Under base depth a → writeWords mem (slot base i) us a = mem₀ a := by
  induction us generalizing i with
  | nil => exact h
  | cons u us ih =>
    rw [List.length_cons] at hi
    obtain ⟨j, rfl⟩ := Nat.exists_eq_add_of_le' (show 1 ≤ i by omega)
    have hat : slot base (j + 1) + 4 = slot base j := slot_add base j 1
    rw [writeWords, hat]
    exact frame_update (ih (by omega) (by omega)) (by omega) hle hd u

/-- A C function that is given a pointer to the words behind the pointer works on just these. -/
theorem stacked_ccall {p : Word} {d : ℕ} {f : List Word → W → Option (List Word × W)} (leaves : Machine W → Clobber)
    (h : Stacked base depth mem₀ m (p :: (us ++ ws))) (hp : p = slot base (us.length + ws.length))
    (hsize : ∀ us' w', f us m.world = some (us', w') → us'.length = us.length)
    (hdepth : us.length + ws.length + 1 + d ≤ depth) (hd : depth < room) :
    (f us m.world = none → ccall us.length d leaves f m = none) ∧
      ∀ us' w', f us m.world = some (us', w') → ∃ n, ccall us.length d leaves f m = some n ∧
        Stacked base depth mem₀ n (p :: (us' ++ ws)) ∧
        n = { m with reg := n.reg, eflags := n.eflags, mem := n.mem, world := w' } := by
  have hread : readWords m.mem m.top us.length = us := by
    rw [stacked_top h, hp]
    exact readWords_holds h.holds.2
  refine ⟨fun hnone => ?_, fun us' w' hsome => ?_⟩
  · rw [ccall, hread, hnone, Option.map_none]
  · have hlen := hsize us' w' hsome
    have hwritten : Stacked base depth mem₀ { m with mem := writeWords m.mem m.top us' } (p :: (us' ++ ws)) := by
      rw [stacked_top h, hp]
      refine ⟨?_, ?_, frame_writeWords h.frame us' (by omega) (by omega) hd⟩
      · rw [h.esp]
        simp only [List.length_cons, List.length_append, hlen]
      · have hroom : (p :: (us ++ ws)).length < room := by
          simp only [List.length_cons, List.length_append]
          omega
        rw [← hp]
        exact hp ▸ holds_writeWords [p] h.holds hlen hroom
    have hscribbled := stacked_scribble hwritten (leaves m).below (n := d)
      (by simp only [List.length_cons, List.length_append]; omega) hd
    rw [ccall, hread, hsome, Option.map_some]
    refine ⟨_, rfl, stacked_congr hscribbled ?_ rfl, rfl⟩
    simp [setReg]

end Stacked

end Eedox.Library.Ia32
