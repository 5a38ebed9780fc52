import Eedox.Library.Ia32
import Eedox.Library.Runs

namespace Eedox.Interrupts

open Library.Ia32 Library.Runs Machine

structure Idtrec where
  offset1 : BitVec 16
  selector : BitVec 16
  zero : BitVec 8
  typeAttr : BitVec 8
  offset2 : BitVec 16

def igateTypeInterrupt : BitVec 8 := 0x8E

/-- The handler is divided as an `int`. -/
def createIdtRec (handler : Word) (type : BitVec 8) : Idtrec where
  offset1 := BitVec.ofInt 16 (handler.toInt.tmod 65536)
  selector := 0x08
  zero := 0
  typeAttr := type ||| 0x60
  offset2 := BitVec.ofInt 16 (handler.toInt.tdiv 65536)

inductive Label
  | interruptHandler (n : ℕ)
  | eachIrqHandler (n : ℕ)
  deriving DecidableEq

/-- The two variables of function pointers in `ihandle.s`. -/
inductive Handler
  | interruptHandler
  | irqHandler

def segData : BitVec 16 := 0x10

/-- What the common handlers do after the call. -/
def restore : List (Instr Handler) :=
  [.pop .esp, .pop .eax, .movSegAx .ds, .movSegAx .es, .movSegAx .fs, .movSegAx .gs, .popa, .add .esp 8, .sti, .iret]

/-- `common_interrupt_handler` and `common_irq_handler`. -/
def commonHandler (h : Handler) : List (Instr Handler) :=
  [.pusha, .movAxSeg .ds, .push .eax, .movAxImm segData, .movSegAx .ds, .movSegAx .es, .movSegAx .fs, .movSegAx .gs,
    .push .esp, .call h] ++ restore

/-- The vectors of `ERR_INT_HANLDLER`. -/
def errorVectors : List ℕ := [8, 10, 11, 12, 13, 14]

def text : Label → List (Instr Handler)
  | .interruptHandler n =>
    if n ∈ errorVectors then [.cli, .pushImm (BitVec.ofNat 32 n)] ++ commonHandler .interruptHandler
    else [.cli, .pushImm 0, .pushImm (BitVec.ofNat 32 n)] ++ commonHandler .interruptHandler
  | .eachIrqHandler n => [.cli, .pushImm 0, .pushImm (BitVec.ofNat 32 n)] ++ commonHandler .irqHandler

/-- The routine behind each vector that the table has. -/
inductive Gate : ℕ → Label → Prop
  | trap {n : ℕ} (h : n ∈ List.range 19 ++ [0x80]) : Gate n (.interruptHandler n)
  | irq {n : ℕ} (h : n < 16) : Gate (32 + n) (.eachIrqHandler n)

/-- Where the linker has put the routines: in the lower half of the memory, as `link.ld` has it. -/
structure Linked where
  address : Label → Word
  code : Word → Option (List (Instr Handler))
  placed : ∀ {vec : ℕ} {l : Label}, Gate vec l → code (address l) = some (text l)
  lower : ∀ {vec : ℕ} {l : Label}, Gate vec l → (address l).toNat < 0x80000000

def store (idt : ℕ → Idtrec) (recs : List (ℕ × Word)) : ℕ → Idtrec :=
  recs.foldl (fun idt r => Function.update idt r.1 (createIdtRec r.2 igateTypeInterrupt)) idt

def trapRecs (L : Linked) : List (ℕ × Word) :=
  (List.range 19 ++ [0x80]).map fun n => (n, L.address (.interruptHandler n))

def hardintRecs (L : Linked) : List (ℕ × Word) :=
  (List.range 16).map fun n => (32 + n, L.address (.eachIrqHandler n))

def idtRecords (L : Linked) : ℕ → Idtrec := store (store (fun _ => ⟨0, 0, 0, 0, 0⟩) (trapRecs L)) (hardintRecs L)

structure Registers where
  ds : Word
  edi : Word
  esi : Word
  ebp : Word
  esp : Word
  ebx : Word
  edx : Word
  ecx : Word
  eax : Word
  intNo : Word
  errCode : Word
  eip : Word
  cs : Word
  eflags : Word
  useresp : Word
  ss : Word

def Registers.words (r : Registers) : List Word :=
  [r.ds, r.edi, r.esi, r.ebp, r.esp, r.ebx, r.edx, r.ecx, r.eax, r.intNo, r.errCode, r.eip, r.cs, r.eflags, r.useresp,
    r.ss]

def ofWords : List Word → Option Registers
  | [ds, edi, esi, ebp, esp, ebx, edx, ecx, eax, intNo, errCode, eip, cs, eflags, useresp, ss] =>
    some ⟨ds, edi, esi, ebp, esp, ebx, edx, ecx, eax, intNo, errCode, eip, cs, eflags, useresp, ss⟩
  | _ => none

variable {W : Type}

/-- The handlers in C. One that panics does not return. `leaves` and `depth` tell what the compiled code does to the
registers that it need not keep and to the stack below its caller's. -/
structure Kernel (W : Type) where
  intHandlers : ℕ → Option (Registers → W → Option (Registers × W))
  intHandlerCommon : Registers → W → Option (Registers × W)
  outb : BitVec 16 → BitVec 8 → W → W
  leaves : Machine W → Clobber
  depth : ℕ

def interruptHandler (K : Kernel W) (regs : Registers) (w : W) : Option (Registers × W) :=
  (K.intHandlers regs.intNo.toNat).getD K.intHandlerCommon regs w

def irqHandler (K : Kernel W) (regs : Registers) (w : W) : Option (Registers × W) :=
  let w := if 8 ≤ regs.intNo then K.outb 0xA0 0x20 w else w
  interruptHandler K { regs with intNo := regs.intNo + 32 } (K.outb 0x20 0x20 w)

def Handler.function (K : Kernel W) : Handler → Registers → W → Option (Registers × W)
  | .interruptHandler => Interrupts.interruptHandler K
  | .irqHandler => Interrupts.irqHandler K

def onWords (f : Registers → W → Option (Registers × W)) (words : List Word) (w : W) : Option (List Word × W) :=
  (ofWords words).bind fun regs => (f regs w).map fun (regs, w) => (regs.words, w)

def callee (K : Kernel W) (h : Handler) : Machine W → Option (Machine W) :=
  ccall 16 K.depth K.leaves (onWords (h.function K))

def Idtrec.offset (r : Idtrec) : Word := BitVec.ofNat 32 (r.offset2.toNat * 65536 + r.offset1.toNat)

/-- A present gate for interrupts that software may use from every level. -/
def Idtrec.usable (r : Idtrec) : Bool := r.typeAttr = 0xEE

/-- Where the table has no gate, the run ends. -/
def interrupt (L : Linked) (K : Kernel W) (m : Machine W) (vec : ℕ) (err : Option Word) : Option (Machine W) :=
  let r := idtRecords L vec
  if r.usable then (L.code r.offset).bind fun is => run (callee K) (enter m r.offset r.selector err) is else none

section Gates

theorem offset_createIdtRec {handler : Word} (h : handler.toNat < 0x80000000) (type : BitVec 8) :
    (createIdtRec handler type).offset = handler := by
  have hint : handler.toInt = handler.toNat := by
    rw [BitVec.toInt_eq_toNat_cond, if_pos (by omega)]
  apply BitVec.eq_of_toNat_eq
  simp only [Idtrec.offset, createIdtRec, hint, BitVec.toNat_ofNat, BitVec.toNat_ofInt]
  rw [Int.tmod_eq_emod_of_nonneg (by omega), Int.tdiv_eq_ediv_of_nonneg (by omega)]
  omega

theorem store_other {idt : ℕ → Idtrec} {recs : List (ℕ × Word)} {vec : ℕ} (h : vec ∉ recs.map Prod.fst) :
    store idt recs vec = idt vec := by
  induction recs generalizing idt with
  | nil => rfl
  | cons r recs ih =>
    rw [List.map_cons, List.mem_cons, not_or] at h
    exact (ih h.2).trans (Function.update_of_ne h.1 _ _)

theorem store_mem {idt : ℕ → Idtrec} {recs : List (ℕ × Word)} (hnodup : (recs.map Prod.fst).Nodup) {vec : ℕ}
    {handler : Word} (h : (vec, handler) ∈ recs) : store idt recs vec = createIdtRec handler igateTypeInterrupt := by
  induction recs generalizing idt with
  | nil => cases h
  | cons r recs ih =>
    rw [List.map_cons, List.nodup_cons] at hnodup
    rcases List.mem_cons.mp h with rfl | hmem
    · exact (store_other hnodup.1).trans (Function.update_self vec _ idt)
    · exact ih hnodup.2 hmem

theorem idtRecords_gate (L : Linked) {vec : ℕ} {l : Label} (h : Gate vec l) :
    idtRecords L vec = createIdtRec (L.address l) igateTypeInterrupt := by
  have htraps : (trapRecs L).map Prod.fst = List.range 19 ++ [0x80] := by simp [trapRecs, Function.comp_def]
  have hirqs : (hardintRecs L).map Prod.fst = (List.range 16).map (32 + ·) := by simp [hardintRecs, Function.comp_def]
  cases h with
  | trap htrap =>
    have hapart : ∀ n ∈ List.range 19 ++ [0x80], n ∉ (List.range 16).map (32 + ·) := by decide
    rw [idtRecords, store_other (by rw [hirqs]; exact hapart vec htrap)]
    exact store_mem (by rw [htraps]; decide) (List.mem_map.mpr ⟨vec, htrap, rfl⟩)
  | @irq n h =>
    exact store_mem (by rw [hirqs]; decide) (List.mem_map.mpr ⟨n, List.mem_range.mpr h, rfl⟩)

theorem interrupt_gate (L : Linked) (K : Kernel W) (m : Machine W) {vec : ℕ} {l : Label} (h : Gate vec l)
    (err : Option Word) : interrupt L K m vec err = run (callee K) (enter m (L.address l) 0x08 err) (text l) := by
  have hoffset := offset_createIdtRec (L.lower h) igateTypeInterrupt
  rw [interrupt, idtRecords_gate L h]
  have husable : (createIdtRec (L.address l) igateTypeInterrupt).usable = true := rfl
  simp only [husable, if_true, hoffset, L.placed h, Option.bind_some]
  rfl

end Gates

section Frame

/-- The registers of a user program. Its memory is a part of the world, which the handlers work on too. -/
structure View where
  reg : Reg → Word
  seg : Seg → BitVec 16
  cs : BitVec 16
  ss : BitVec 16
  eip : Word
  eflags : Word

def view (m : Machine W) : View := ⟨m.reg, m.seg, m.cs, m.ss, m.eip, m.eflags⟩

def View.registers (v : View) (esp0 n err : Word) : Registers where
  ds := withLow (v.reg .eax) (v.seg .ds)
  edi := v.reg .edi
  esi := v.reg .esi
  ebp := v.reg .ebp
  esp := slot esp0 7
  ebx := v.reg .ebx
  edx := v.reg .edx
  ecx := v.reg .ecx
  eax := v.reg .eax
  intNo := n
  errCode := err
  eip := v.eip
  cs := v.cs.setWidth 32
  eflags := v.eflags
  useresp := v.reg .esp
  ss := v.ss.setWidth 32

/-- What the handler is given for an interrupt of `m`. -/
def registers (m : Machine W) (n err : Word) : Registers := (view m).registers m.esp0 n err

/-- The general registers that the handler leaves in the structure. -/
def Registers.reg (r : Registers) : Reg → Word
  | .eax => r.eax | .ecx => r.ecx | .edx => r.edx | .ebx => r.ebx
  | .esp => r.useresp | .ebp => r.ebp | .esi => r.esi | .edi => r.edi

/-- The program goes on with what the handler has left in the structure. Only `ds` has been saved, so it is in all four
segment registers. -/
structure Resumed (m m' : Machine W) (depth : ℕ) (r : Registers) (w : W) : Prop where
  reg : m'.reg = r.reg
  seg : m'.seg = fun _ => low r.ds
  cs : m'.cs = low r.cs
  ss : m'.ss = low r.ss
  eip : m'.eip = r.eip
  eflags : m'.eflags = r.eflags
  esp0 : m'.esp0 = m.esp0
  ss0 : m'.ss0 = m.ss0
  mem : ∀ a, ¬ Under m.esp0 depth a → m'.mem a = m.mem a
  world : m'.world = w

variable {base : Word} {depth : ℕ} {mem₀ : Memory} {m : Machine W} {ws : List Word}

theorem length_words (r : Registers) : r.words.length = 16 := rfl

theorem ofWords_words (r : Registers) : ofWords r.words = some r := rfl

theorem onWords_words (f : Registers → W → Option (Registers × W)) (r : Registers) (w : W) :
    onWords f r.words w = (f r w).map fun (regs, w) => (regs.words, w) := by
  rw [onWords, ofWords_words, Option.bind_some]

/-- `pop esp` of the pointer to the words behind it. -/
theorem stacked_popEsp {p : Word} (h : Stacked base depth mem₀ m (p :: ws)) (hp : p = slot base ws.length) :
    Stacked base depth mem₀ (m.popTo .esp) ws := by
  have hdrop := stacked_drop h
  refine ⟨?_, hdrop.holds, hdrop.frame⟩
  rw [popTo, stacked_top h, ← hp]
  simp [setReg]

/-- `add esp, 8`. -/
theorem stacked_add {u v : Word} (h : Stacked base depth mem₀ m (u :: v :: ws)) :
    Stacked base depth mem₀ (m.setReg .esp (m.reg .esp + 8)) ws := by
  refine ⟨?_, h.holds.2.2, h.frame⟩
  have hesp : (m.setReg .esp (m.reg .esp + 8)).reg .esp = m.reg .esp + 8 := by simp [setReg]
  rw [hesp, h.esp]
  exact slot_add base ws.length 2

section Run

variable (K : Kernel W) (m : Machine W) (is : List (Instr Handler))

/-- All four segment registers are loaded with `ax`. -/
theorem run_movSegs : run (callee K) m (.movSegAx .ds :: .movSegAx .es :: .movSegAx .fs :: .movSegAx .gs :: is) =
    run (callee K) { m with seg := fun _ => low (m.reg .eax) } is := by
  have hseg : Function.update (Function.update (Function.update (Function.update m.seg .ds (low (m.reg .eax)))
      .es (low (m.reg .eax))) .fs (low (m.reg .eax))) .gs (low (m.reg .eax)) = fun _ => low (m.reg .eax) := by
    funext s
    cases s <;> rfl
  simp only [run, Instr.exec, Option.bind_some, setSeg, hseg]

theorem run_leave : run (callee K) m [.add .esp 8, .sti, .iret] =
    some (({ m.setReg .esp (m.reg .esp + 8) with eflags := m.eflags ||| interruptFlag } : Machine W).iret) := by
  simp only [run, Instr.exec, Option.bind_some]
  rfl

end Run

theorem restore_stacked {m₀ : Machine W} (K : Kernel W) {r : Registers} {p : Word}
    (h : Stacked m₀.esp0 depth m₀.mem m (p :: r.words)) (hp : p = slot m₀.esp0 r.words.length) (hcs : m.cs = 0x08)
    (hesp0 : m.esp0 = m₀.esp0) (hss0 : m.ss0 = m₀.ss0) (hlevel : 0 < rpl (low r.cs)) :
    ∃ m', run (callee K) m restore = some m' ∧ Resumed m₀ m' depth r m.world := by
  obtain ⟨h₂, e₂⟩ := stacked_popTo (r := .eax) (stacked_popEsp h hp) (by decide)
  generalize hm₂ : (m.popTo .esp).popTo .eax = m₂ at h₂ e₂
  have heax : m₂.reg .eax = r.ds := by
    rw [e₂]
    simp [setReg]
  have hrest₂ : m₂ = { m with reg := m₂.reg } := by
    rw [← hm₂]
    rfl
  let m₃ : Machine W := { m₂ with seg := fun _ => low (m₂.reg .eax) }
  have hrest₃ : m₃ = { m with reg := m₂.reg, seg := fun _ => low r.ds } := by
    change { m₂ with seg := fun _ => low (m₂.reg .eax) } = _
    rw [heax]
    exact congrArg (fun n : Machine W => { n with seg := fun _ => low r.ds }) hrest₂
  have h₃ : Stacked m₀.esp0 depth m₀.mem m₃ _ := stacked_congr h₂ rfl rfl
  obtain ⟨h₄, hreg, hrest₄⟩ := stacked_loads
    [some .edi, some .esi, some .ebp, none, some .ebx, some .edx, some .ecx, some .eax]
    [r.edi, r.esi, r.ebp, r.esp, r.ebx, r.edx, r.ecx, r.eax] (by decide) rfl h₃
  have hpopa : [some Reg.edi, some .esi, some .ebp, none, some .ebx, some .edx, some .ecx, some .eax].foldl load m₃ =
      m₃.popa := rfl
  rw [hpopa] at h₄ hreg hrest₄
  generalize hm₄ : m₃.popa = m₄ at h₄ hreg hrest₄
  have hrest : m₄ = { m with reg := m₄.reg, seg := fun _ => low r.ds } :=
    hrest₄.trans (congrArg (fun n : Machine W => { n with reg := m₄.reg }) hrest₃)
  have h₅ := stacked_add h₄
  let m₆ : Machine W := { m₄.setReg .esp (m₄.reg .esp + 8) with eflags := m₄.eflags ||| interruptFlag }
  have h₆ : Stacked m₀.esp0 depth m₀.mem m₆ _ := stacked_congr h₅ rfl rfl
  have hcs₆ : m₆.cs = 0x08 := by
    change m₄.cs = 0x08
    rw [hrest]
    exact hcs
  have hiret := iret_outer h₆ (by rw [hcs₆]; exact hlevel)
  have hrun : run (callee K) m restore = some m₆.iret := by
    rw [restore, run_pop, run_pop, hm₂, run_movSegs, run_popa, hm₄, run_leave]
  refine ⟨m₆.iret, hrun, ?_⟩
  rw [hiret]
  refine ⟨?_, ?_, rfl, rfl, rfl, rfl, ?_, ?_, h₆.frame, ?_⟩
  · funext q
    by_cases hq : q = .esp
    · rw [hq]
      exact Function.update_self Reg.esp r.useresp m₆.reg
    · refine (Function.update_of_ne hq r.useresp m₆.reg).trans ?_
      refine (Function.update_of_ne hq (m₄.reg .esp + 8) m₄.reg).trans ((hreg q hq).trans ?_)
      cases q <;> first | exact absurd rfl hq | rfl
  · change m₄.seg = _
    rw [hrest]
  · change m₄.esp0 = _
    rw [hrest]
    exact hesp0
  · change m₄.ss0 = _
    rw [hrest]
    exact hss0
  · change m₄.world = _
    rw [hrest]

/-- From `pusha` to the call, for an interrupt whose number and error code are on the stack. -/
theorem entry_stacked {m₀ : Machine W} (K : Kernel W) (h : Handler) {n err : Word}
    (hstack : Stacked m₀.esp0 depth m₀.mem m
      [n, err, m₀.eip, m₀.cs.setWidth 32, m₀.eflags, m₀.reg .esp, m₀.ss.setWidth 32])
    (hreg : ∀ r, r ≠ .esp → m.reg r = m₀.reg r) (hseg : m.seg = m₀.seg) (hdepth : 17 ≤ depth) (hd : depth < room) :
    ∃ m', run (callee K) m (commonHandler h) = (callee K h m').bind (fun m => run (callee K) m restore) ∧
      Stacked m₀.esp0 depth m₀.mem m'
        (slot m₀.esp0 (registers m₀ n err).words.length :: (registers m₀ n err).words) ∧
      SameTask m m' := by
  have hlen : m.reg .esp = slot m₀.esp0 7 := hstack.esp
  have h₁ := stacked_pushes (saved m) hstack (by
    simp only [saved, List.length_cons, List.length_nil]
    omega) hd
  have honly := pushes_only (saved m) m
  have heax₁ := pushes_reg (saved m) m (show Reg.eax ≠ .esp by decide)
  have hpusha (is : List (Instr Handler)) := run_pusha (callee K) m is
  simp only [pusha_eq] at hpusha
  generalize (saved m).foldr (fun w n => n.pushWord w) m = m₁ at h₁ honly heax₁ hpusha
  have hseg₁ : m₁.seg = m₀.seg := by
    rw [honly]
    exact hseg
  let m₂ := m₁.setReg .eax (withLow (m₁.reg .eax) (m₁.seg .ds))
  have h₂ : Stacked m₀.esp0 depth m₀.mem m₂ _ := stacked_setReg h₁ (by decide)
  have heax : m₂.reg .eax = withLow (m₀.reg .eax) (m₀.seg .ds) := by
    rw [← hreg .eax (by decide), ← hseg₁, ← heax₁]
    exact Function.update_self Reg.eax _ m₁.reg
  let m₃ := m₂.pushWord (m₂.reg .eax)
  have h₃ : Stacked m₀.esp0 depth m₀.mem m₃ (registers m₀ n err).words := by
    have hpushed := stacked_push h₂ (w := m₂.reg .eax) (by
      simp only [saved, List.length_cons, List.length_append, List.length_nil]
      omega) hd
    have hwords : m₂.reg .eax :: (saved m ++ [n, err, m₀.eip, m₀.cs.setWidth 32, m₀.eflags, m₀.reg .esp,
        m₀.ss.setWidth 32]) = (registers m₀ n err).words := by
      rw [heax, saved, hreg .edi (by decide), hreg .esi (by decide), hreg .ebp (by decide), hlen,
        hreg .ebx (by decide), hreg .edx (by decide), hreg .ecx (by decide), hreg .eax (by decide)]
      rfl
    exact hwords ▸ hpushed
  let m₄ := m₃.setReg .eax (withLow (m₃.reg .eax) segData)
  have h₄ : Stacked m₀.esp0 depth m₀.mem m₄ _ := stacked_setReg h₃ (by decide)
  let m₅ : Machine W := { m₄ with seg := fun _ => low (m₄.reg .eax) }
  have h₅ : Stacked m₀.esp0 depth m₀.mem m₅ _ := stacked_congr h₄ rfl rfl
  have h₆ := stacked_push h₅ (w := m₅.reg .esp) (by
    simp only [Registers.words, List.length_cons, List.length_nil]
    omega) hd
  have hp : m₅.reg .esp = slot m₀.esp0 (registers m₀ n err).words.length := h₅.esp
  have hsame₁ : SameTask m m₁ := ⟨by rw [honly], by rw [honly], by rw [honly], by rw [honly]⟩
  have hsame₃ : SameTask m₁ m₃ := (sameTask_setReg m₁ .eax _).trans (sameTask_pushWord m₂ _)
  have hsame₅ : SameTask m₃ m₅ := (sameTask_setReg m₃ .eax _).trans (sameTask_seg m₄ _)
  refine ⟨m₅.pushWord (m₅.reg .esp), ?_, hp ▸ h₆,
    ((hsame₁.trans hsame₃).trans hsame₅).trans (sameTask_pushWord m₅ _)⟩
  rw [commonHandler, List.cons_append, hpusha, List.cons_append, run_movAxSeg, List.cons_append, run_push,
    List.cons_append, run_movAxImm]
  simp only [List.cons_append, List.nil_append]
  rw [run_movSegs, run_push, run, Instr.exec]

/-- From `pusha` to `iret`, for an interrupt whose number and error code are on the stack. -/
theorem common_stacked {m₀ : Machine W} (K : Kernel W) (h : Handler) {n err : Word}
    (hstack : Stacked m₀.esp0 depth m₀.mem m
      [n, err, m₀.eip, m₀.cs.setWidth 32, m₀.eflags, m₀.reg .esp, m₀.ss.setWidth 32])
    (hreg : ∀ r, r ≠ .esp → m.reg r = m₀.reg r) (hseg : m.seg = m₀.seg) (hcs : m.cs = 0x08)
    (hesp0 : m.esp0 = m₀.esp0) (hss0 : m.ss0 = m₀.ss0) (hworld : m.world = m₀.world)
    (hdepth : 17 + K.depth ≤ depth) (hd : depth < room) :
    (h.function K (registers m₀ n err) m₀.world = none → run (callee K) m (commonHandler h) = none) ∧
      ∀ r w, h.function K (registers m₀ n err) m₀.world = some (r, w) → 0 < rpl (low r.cs) →
        ∃ m', run (callee K) m (commonHandler h) = some m' ∧ Resumed m₀ m' depth r w := by
  obtain ⟨m₆, hrun, h₆, hsame⟩ := entry_stacked K h hstack hreg hseg (by omega) hd
  have hworld₆ : m₆.world = m₀.world := hsame.world.trans hworld
  rw [← List.append_nil (registers m₀ n err).words] at h₆
  have hcall := stacked_ccall (d := K.depth) (f := onWords (h.function K)) K.leaves h₆
    (by rw [List.append_nil, List.length_nil, Nat.add_zero]) ?_ (by
      simp only [Registers.words, List.length_cons, List.length_nil]
      omega) hd
  · rw [length_words] at hcall
    refine ⟨fun hnone => ?_, fun r w hsome hlevel => ?_⟩
    · rw [hrun, callee, hcall.1 (by rw [onWords_words, hworld₆, hnone, Option.map_none]), Option.bind_none]
    · obtain ⟨m₇, hm₇, h₇, hrest₇⟩ := hcall.2 r.words w (by rw [onWords_words, hworld₆, hsome, Option.map_some])
      rw [List.append_nil, List.append_nil, length_words] at h₇
      have hcs₇ : m₇.cs = 0x08 := by
        rw [hrest₇]
        exact hsame.cs.trans hcs
      have hesp0₇ : m₇.esp0 = m₀.esp0 := by
        rw [hrest₇]
        exact hsame.esp0.trans hesp0
      have hss0₇ : m₇.ss0 = m₀.ss0 := by
        rw [hrest₇]
        exact hsame.ss0.trans hss0
      have hworld₇ : m₇.world = w := by rw [hrest₇]
      obtain ⟨m', hm', hresumed⟩ := restore_stacked K h₇ rfl hcs₇ hesp0₇ hss0₇ hlevel
      exact ⟨m', by rw [hrun, callee, hm₇, Option.bind_some, hm'], hworld₇ ▸ hresumed⟩
  · intro us' w' hus
    rw [onWords_words, Option.map_eq_some_iff] at hus
    obtain ⟨⟨r, w⟩, -, hr⟩ := hus
    obtain rfl := congrArg Prod.fst hr
    rw [length_words, length_words]

def Label.number : Label → ℕ
  | .interruptHandler n | .eachIrqHandler n => n

def Label.handler : Label → Handler
  | .interruptHandler _ => .interruptHandler
  | .eachIrqHandler _ => .irqHandler

/-- Whether the routine takes it that the processor has pushed an error code. -/
def Label.expectsError : Label → Bool
  | .interruptHandler n => n ∈ errorVectors
  | .eachIrqHandler _ => false

/-- What a routine pushes before the common part, the last word first. -/
def Label.pushed (l : Label) : List Word :=
  BitVec.ofNat 32 l.number :: if l.expectsError then [] else [0]

theorem run_text (K : Kernel W) (m : Machine W) (l : Label) : run (callee K) m (text l) =
    run (callee K) (l.pushed.foldr (fun w n => n.pushWord w) { m with eflags := m.eflags &&& ~~~interruptFlag })
      (commonHandler l.handler) := by
  have hpushes (l : Label) (m : Machine W) : l.pushed.foldr (fun w n => n.pushWord w) m =
      (if l.expectsError then m else m.pushWord 0).pushWord (BitVec.ofNat 32 l.number) := by
    rw [Label.pushed]
    split <;> rfl
  rw [hpushes]
  cases l with
  | interruptHandler n =>
    by_cases hn : n ∈ errorVectors
    · have hexpects : (Label.interruptHandler n).expectsError = true := decide_eq_true hn
      rw [hexpects, if_pos rfl, text, if_pos hn, List.cons_append, run_cli, List.cons_append, run_pushImm,
        List.nil_append]
      rfl
    · have hexpects : (Label.interruptHandler n).expectsError = false := decide_eq_false hn
      rw [hexpects, if_neg Bool.false_ne_true, text, if_neg hn, List.cons_append, run_cli, List.cons_append,
        run_pushImm, List.cons_append, run_pushImm, List.nil_append]
      rfl
  | eachIrqHandler n =>
    have hexpects : (Label.eachIrqHandler n).expectsError = false := rfl
    rw [hexpects, if_neg Bool.false_ne_true, text, List.cons_append, run_cli, List.cons_append, run_pushImm,
      List.cons_append, run_pushImm, List.nil_append]
    rfl

/-- An interrupt of a program at a less privileged level: the C handler gets the program's registers, and the program
goes on with the ones that it leaves. -/
theorem interrupt_served (L : Linked) (K : Kernel W) (m : Machine W) {vec : ℕ} {l : Label} (hgate : Gate vec l)
    {err : Option Word} (herr : err.isSome = l.expectsError) (hcs : rpl m.cs ≠ 0) (hdepth : 17 + K.depth ≤ depth)
    (hd : depth < room) :
    let regs := registers m (BitVec.ofNat 32 l.number) (err.getD 0)
    (l.handler.function K regs m.world = none → interrupt L K m vec err = none) ∧
      ∀ r w, l.handler.function K regs m.world = some (r, w) → 0 < rpl (low r.cs) →
        ∃ m', interrupt L K m vec err = some m' ∧ Resumed m m' depth r w := by
  intro regs
  have hframe : frame m err = err.toList ++ [m.eip, m.cs.setWidth 32, m.eflags, m.reg .esp, m.ss.setWidth 32] := by
    simp [frame, hcs]
  have hlen : (frame m err).length ≤ depth := by
    rw [hframe]
    cases err <;> simp <;> omega
  have hentered := stacked_enter (L.address l) 0x08 hcs hlen hd
  have hreg := fun (r : Reg) (hr : r ≠ .esp) => enter_reg (L.address l) 0x08 err hcs hr
  have honly := enter_only (L.address l) 0x08 err hcs
  rw [interrupt_gate L K m hgate]
  generalize enter m (L.address l) 0x08 err = m₁ at hentered hreg honly
  rw [run_text]
  let m₂ : Machine W := { m₁ with eflags := m₁.eflags &&& ~~~interruptFlag }
  have h₂ : Stacked m.esp0 depth m.mem m₂ (frame m err) := stacked_congr hentered rfl rfl
  have hwords : l.pushed ++ frame m err = [BitVec.ofNat 32 l.number, err.getD 0, m.eip, m.cs.setWidth 32, m.eflags,
      m.reg .esp, m.ss.setWidth 32] := by
    rw [hframe, Label.pushed, ← herr]
    cases err <;> rfl
  have h₃ := stacked_pushes l.pushed h₂ (by
    rw [← List.length_append, hwords]
    simp only [List.length_cons, List.length_nil]
    omega) hd
  rw [hwords] at h₃
  have hsecond : m₂ = { m with
      reg := m₂.reg, cs := 0x08, ss := m.ss0, eip := L.address l, eflags := m₂.eflags, mem := m₂.mem } :=
    congrArg (fun n : Machine W => { n with eflags := m₂.eflags, reg := m₂.reg, mem := m₂.mem }) honly
  have hpushed := pushes_only l.pushed m₂
  generalize hm₃ : l.pushed.foldr (fun w n => n.pushWord w) m₂ = m₃ at h₃ hpushed ⊢
  have hrest : m₃ = { m with
      reg := m₃.reg, cs := 0x08, ss := m.ss0, eip := L.address l, eflags := m₂.eflags, mem := m₃.mem } :=
    hpushed.trans (congrArg (fun n : Machine W => { n with reg := m₃.reg, mem := m₃.mem }) hsecond)
  have hkept : ∀ r, r ≠ .esp → m₃.reg r = m.reg r := by
    intro r hr
    rw [← hm₃]
    exact (pushes_reg l.pushed m₂ hr).trans (hreg r hr)
  exact common_stacked K l.handler h₃ hkept (by rw [hrest]) (by rw [hrest]) (by rw [hrest]) (by rw [hrest])
    (by rw [hrest]) hdepth hd

end Frame

section Programs

/-- The words of `KERNEL_STACK_SIZE`. -/
def kernelStackWords : ℕ := 0x800

/-- The next instruction of a program: a step of its own, `int` with the program counter behind it, or an exception. -/
inductive Move (W : Type)
  | next (v : View) (w : W)
  | software (vec : ℕ) (v : View) (w : W)
  | fault (vec : ℕ) (err : Word)

/-- The program goes on, or a device interrupts it. -/
inductive Event
  | go
  | irq (n : Fin 16)
  deriving DecidableEq

def enact (m : Machine W) (v : View) (w : W) : Machine W :=
  { m with reg := v.reg, seg := v.seg, cs := v.cs, ss := v.ss, eip := v.eip, eflags := v.eflags, world := w }

/-- The machine runs the program and takes its interrupts through the table and the assembly routines. -/
def step (L : Linked) (K : Kernel W) (program : View → W → Move W) (m : Machine W) : Event → Option (Machine W)
  | .go =>
    match program (view m) m.world with
    | .next v w => some (enact m v w)
    | .software vec v w => interrupt L K (enact m v w) vec none
    | .fault vec err => interrupt L K m vec (if pushesError vec then some err else none)
  | .irq n => if m.eflags &&& interruptFlag = 0 then none else interrupt L K m (32 + n) none

def Registers.view (r : Registers) : View := ⟨r.reg, fun _ => low r.ds, low r.cs, low r.ss, r.eip, r.eflags⟩

/-- The routine for a vector. -/
def gate (vec : ℕ) : Option Label :=
  if vec ∈ List.range 19 ++ [0x80] then some (.interruptHandler vec)
  else if 32 ≤ vec ∧ vec < 48 then some (.eachIrqHandler (vec - 32)) else none

variable (K : Kernel W) (esp0 : Word)

/-- The interrupt as one call of the handler in C. -/
def serve (v : View) (w : W) (vec : ℕ) (err : Option Word) : Option (View × W) :=
  (gate vec).bind fun l => (l.handler.function K (v.registers esp0 (BitVec.ofNat 32 l.number) (err.getD 0)) w).map
    fun (r, w) => (r.view, w)

/-- The program as it is meant: an interrupt is nothing but the call of its handler. -/
def act (program : View → W → Move W) : View × W → Event → Option (View × W)
  | (v, w), .go =>
    match program v w with
    | .next v w => some (v, w)
    | .software vec v w => serve K esp0 v w vec none
    | .fault vec err => serve K esp0 v w vec (if pushesError vec then some err else none)
  | (v, w), .irq n => if v.eflags &&& interruptFlag = 0 then none else serve K esp0 v w (32 + n) none

/-- The handler lets the program stay at a less privileged level. -/
def Kept (v : View) (w : W) (vec : ℕ) (err : Option Word) : Prop :=
  ∀ p ∈ serve K esp0 v w vec err, rpl p.1.cs ≠ 0

instance (v : View) (w : W) (vec : ℕ) (err : Option Word) : Decidable (Kept K esp0 v w vec err) :=
  inferInstanceAs (Decidable (∀ p ∈ serve K esp0 v w vec err, rpl p.1.cs ≠ 0))

/-- `int` does not go to a vector whose routine expects an error code, and there is no alignment check, for which the
processor pushes an error code that the routine does not expect. -/
def Move.Proper (v : View) (w : W) : Move W → Prop
  | .next v _ => rpl v.cs ≠ 0
  | .software vec v w => vec ∉ errorVectors ∧ rpl v.cs ≠ 0 ∧ Kept K esp0 v w vec none
  | .fault vec err => vec ≠ 17 ∧ Kept K esp0 v w vec (if pushesError vec then some err else none)

instance (v : View) (w : W) : (move : Move W) → Decidable (move.Proper K esp0 v w)
  | .next v _ => inferInstanceAs (Decidable (rpl v.cs ≠ 0))
  | .software vec v w => inferInstanceAs (Decidable (vec ∉ errorVectors ∧ rpl v.cs ≠ 0 ∧ Kept K esp0 v w vec none))
  | .fault vec err =>
    inferInstanceAs (Decidable (vec ≠ 17 ∧ Kept K esp0 v w vec (if pushesError vec then some err else none)))

def Proper (program : View → W → Move W) : View × W → Event → Prop
  | (v, w), .go => (program v w).Proper K esp0 v w
  | (v, w), .irq n => Kept K esp0 v w (32 + n) none

instance (program : View → W → Move W) : (s : View × W) → (event : Event) → Decidable (Proper K esp0 program s event)
  | (v, w), .go => inferInstanceAs (Decidable ((program v w).Proper K esp0 v w))
  | (v, w), .irq n => inferInstanceAs (Decidable (Kept K esp0 v w (32 + n) none))

variable {K esp0} {L : Linked} {m : Machine W} {vec : ℕ} {err : Option Word}

theorem gate_some {l : Label} (h : gate vec = some l) : Gate vec l := by
  unfold gate at h
  split_ifs at h with htrap hirq
  · obtain rfl := Option.some.inj h
    exact .trap htrap
  · obtain rfl := Option.some.inj h
    have hirqs := Gate.irq (n := vec - 32) (by omega)
    rwa [Nat.add_sub_cancel' hirq.1] at hirqs

theorem gate_none (h : gate vec = none) (err : Option Word) : interrupt L K m vec err = none := by
  unfold gate at h
  split_ifs at h with htrap hirq
  have hzero : idtRecords L vec = ⟨0, 0, 0, 0, 0⟩ := by
    rw [idtRecords, store_other, store_other]
    · simpa [trapRecs] using htrap
    · simp only [hardintRecs, List.map_map, List.mem_map, List.mem_range, Function.comp_apply, not_exists, not_and]
      omega
  rw [interrupt, hzero]
  rfl

theorem view_resumed {m m' : Machine W} {r : Registers} {w : W} (h : Resumed m m' kernelStackWords r w) :
    view m' = r.view := by
  simp only [view, Registers.view, h.reg, h.seg, h.cs, h.ss, h.eip, h.eflags]

/-- What interrupts do not touch: the stack that the task state segment names, and the memory but for that stack. -/
structure Untouched (m n : Machine W) : Prop where
  esp0 : n.esp0 = m.esp0
  mem : ∀ a, ¬ Under m.esp0 kernelStackWords a → n.mem a = m.mem a

/-- An interrupt through the table and the routines is the call of its handler. -/
theorem interrupt_serve (hdepth : 17 + K.depth ≤ kernelStackWords) (hcs : rpl m.cs ≠ 0)
    (herr : ∀ l, gate vec = some l → err.isSome = l.expectsError) (hkept : Kept K m.esp0 (view m) m.world vec err) :
    (interrupt L K m vec err).map (fun n => (view n, n.world)) = serve K m.esp0 (view m) m.world vec err ∧
      ∀ n, interrupt L K m vec err = some n → Untouched m n ∧ rpl n.cs ≠ 0 := by
  cases hgate : gate vec with
  | none =>
    rw [gate_none hgate, serve, hgate]
    exact ⟨rfl, fun n hn => by cases hn⟩
  | some l =>
    have hserved := interrupt_served L K m (gate_some hgate) (herr l hgate) hcs hdepth (by decide)
    have hregs : (view m).registers m.esp0 (BitVec.ofNat 32 l.number) (err.getD 0) =
        registers m (BitVec.ofNat 32 l.number) (err.getD 0) := rfl
    cases hcall : l.handler.function K (registers m (BitVec.ofNat 32 l.number) (err.getD 0)) m.world with
    | none =>
      rw [hserved.1 hcall, serve, hgate, Option.bind_some, hregs, hcall]
      exact ⟨rfl, fun n hn => by cases hn⟩
    | some p =>
      obtain ⟨r, w⟩ := p
      have hserve : serve K m.esp0 (view m) m.world vec err = some (r.view, w) := by
        rw [serve, hgate, Option.bind_some, hregs, hcall, Option.map_some]
      have hlevel : rpl (low r.cs) ≠ 0 := hkept _ hserve
      obtain ⟨m', hm', hresumed⟩ := hserved.2 r w hcall (Nat.pos_of_ne_zero hlevel)
      rw [hm', hserve, Option.map_some, view_resumed hresumed, hresumed.world]
      refine ⟨rfl, fun n hn => ?_⟩
      obtain rfl := Option.some.inj hn
      exact ⟨⟨hresumed.esp0, hresumed.mem⟩, hresumed.cs ▸ hlevel⟩

/-- One step of the machine is one step of the program as it is meant. -/
theorem step_act {program : View → W → Move W} (hdepth : 17 + K.depth ≤ kernelStackWords) (hcs : rpl m.cs ≠ 0)
    (event : Event) (hproper : Proper K m.esp0 program (view m, m.world) event) :
    (step L K program m event).map (fun n => (view n, n.world)) = act K m.esp0 program (view m, m.world) event ∧
      ∀ n, step L K program m event = some n → Untouched m n ∧ rpl n.cs ≠ 0 := by
  cases event with
  | irq n =>
    simp only [step, act]
    by_cases hoff : m.eflags &&& interruptFlag = 0
    · have hoff' : (view m).eflags &&& interruptFlag = 0 := hoff
      rw [if_pos hoff, if_pos hoff']
      exact ⟨rfl, fun n hn => by cases hn⟩
    · have hoff' : ¬ (view m).eflags &&& interruptFlag = 0 := hoff
      rw [if_neg hoff, if_neg hoff']
      refine interrupt_serve hdepth hcs (fun l hl => ?_) hproper
      have hirqs : ∀ n : Fin 16, gate (32 + n) = some (.eachIrqHandler n) := by decide
      rw [hirqs] at hl
      obtain rfl := Option.some.inj hl
      rfl
  | go =>
    simp only [Proper] at hproper
    simp only [step, act]
    cases hmove : program (view m) m.world with
    | next v w =>
      rw [hmove] at hproper
      refine ⟨rfl, fun n hn => ?_⟩
      obtain rfl := Option.some.inj hn
      exact ⟨⟨rfl, fun _ _ => rfl⟩, hproper⟩
    | software vec v w =>
      rw [hmove] at hproper
      obtain ⟨hvec, huser, hkept⟩ := hproper
      have herr : ∀ l, gate vec = some l → (none : Option Word).isSome = l.expectsError := by
        intro l hl
        cases gate_some hl with
        | trap h => exact (decide_eq_false hvec).symm
        | irq h => rfl
      obtain ⟨hmap, hkeeps⟩ := interrupt_serve (L := L) (m := enact m v w) hdepth huser herr hkept
      refine ⟨hmap, fun n hn => ?_⟩
      obtain ⟨⟨hesp0, hmem⟩, hcs'⟩ := hkeeps n hn
      exact ⟨⟨hesp0, hmem⟩, hcs'⟩
    | fault vec err =>
      rw [hmove] at hproper
      refine interrupt_serve hdepth hcs (fun l hl => ?_) hproper.2
      cases gate_some hl with
      | trap h =>
        have hsame : ∀ n ∈ List.range 19 ++ [0x80], n ≠ 17 → pushesError n = decide (n ∈ errorVectors) := by decide
        rw [Label.expectsError, ← hsame vec h hproper.1]
        cases pushesError vec <;> rfl
      | @irq n h =>
        have hnone : ∀ n < 16, pushesError (32 + n) = false := by decide
        rw [hnone n h]
        rfl

/-- The machine with its interrupt table, its assembly routines and its kernel stack does with a program, run by run,
what the program is meant to do, each interrupt being one call of its handler. Of the memory, the routines write nothing
but the kernel stack. -/
theorem interrupts_refine (L : Linked) (K : Kernel W) (program : View → W → Move W)
    (hdepth : 17 + K.depth ≤ kernelStackWords) (m : Machine W) (hcs : rpl m.cs ≠ 0) (events : List Event)
    (hproper : Meets (act K m.esp0 program) (Proper K m.esp0 program) (view m, m.world) events) :
    (exec (step L K program) m events).map (fun n => (view n, n.world)) =
        exec (act K m.esp0 program) (view m, m.world) events ∧
      ∀ n, exec (step L K program) m events = some n → Untouched m n := by
  induction events generalizing m with
  | nil =>
    refine ⟨rfl, fun n hn => ?_⟩
    obtain rfl := Option.some.inj hn
    exact ⟨rfl, fun _ _ => rfl⟩
  | cons event events ih =>
    obtain ⟨hmap, hkeeps⟩ := step_act (L := L) hdepth hcs event hproper.1
    rw [exec, exec, ← hmap]
    cases hstep : step L K program m event with
    | none => exact ⟨rfl, fun n hn => by cases hn⟩
    | some n =>
      obtain ⟨⟨hesp0, hmem⟩, hcs'⟩ := hkeeps n hstep
      rw [hstep, Option.map_some] at hmap
      have hrest := ih n hcs' (by
        rw [hesp0]
        exact hproper.2 _ hmap.symm)
      rw [hesp0] at hrest
      refine ⟨hrest.1, fun n' hn' => ?_⟩
      obtain ⟨hesp0', hmem'⟩ := hrest.2 n' hn'
      exact ⟨hesp0'.trans hesp0, fun a ha => (hmem' a (by rwa [hesp0])).trans (hmem a ha)⟩

section Sample

def addressSample : Label → Word
  | .interruptHandler n => BitVec.ofNat 32 (0x100000 + n)
  | .eachIrqHandler n => BitVec.ofNat 32 (0x100100 + n)

def codeSample (a : Word) : Option (List (Instr Handler)) :=
  some (text (if a.toNat < 0x100100 then .interruptHandler (a.toNat - 0x100000)
    else .eachIrqHandler (a.toNat - 0x100100)))

theorem toNat_trap {n : ℕ} (h : n ∈ List.range 19 ++ [0x80]) :
    n < 0x100 ∧ (addressSample (.interruptHandler n)).toNat = 0x100000 + n := by
  have hlt : ∀ n ∈ List.range 19 ++ [0x80], n < 0x100 := by decide
  have hn := hlt n h
  refine ⟨hn, ?_⟩
  rw [addressSample, BitVec.toNat_ofNat]
  omega

theorem toNat_irq {n : ℕ} (h : n < 16) : (addressSample (.eachIrqHandler n)).toNat = 0x100100 + n := by
  rw [addressSample, BitVec.toNat_ofNat]
  omega

theorem placed_sample {vec : ℕ} {l : Label} (h : Gate vec l) : codeSample (addressSample l) = some (text l) := by
  cases h with
  | trap h =>
    obtain ⟨hlt, haddress⟩ := toNat_trap h
    rw [codeSample, haddress, if_pos (by omega), Nat.add_sub_cancel_left]
  | irq h => rw [codeSample, toNat_irq h, if_neg (by omega), Nat.add_sub_cancel_left]

theorem lower_sample {vec : ℕ} {l : Label} (h : Gate vec l) : (addressSample l).toNat < 0x80000000 := by
  cases h with
  | trap h =>
    obtain ⟨hlt, haddress⟩ := toNat_trap h
    omega
  | irq h =>
    rw [toNat_irq h]
    omega

def linkedSample : Linked := ⟨addressSample, codeSample, placed_sample, lower_sample⟩

/-- The system call counts itself and returns the count. The devices have no handlers. -/
def kernelSample : Kernel ℕ where
  intHandlers n := if n = 0x80 then some fun r w => some ({ r with eax := BitVec.ofNat 32 (w + 1) }, w + 1) else none
  intHandlerCommon r w := some (r, w)
  outb _ _ w := w
  leaves _ := ⟨0xdead, 0xdead, 0xdead, 0, fun _ => 0xdead⟩
  depth := 32

/-- A system call at every second step. -/
def programSample (v : View) (w : ℕ) : Move ℕ :=
  if v.eip = 0x400000 then .software 0x80 { v with eip := 0x400002 } w else .next { v with eip := 0x400000 } w

def machineSample : Machine ℕ where
  reg _ := 7
  seg _ := 0x23
  cs := 0x1b
  ss := 0x23
  eip := 0x400000
  eflags := 0x202
  esp0 := 0xc0002000
  ss0 := 0x10
  mem _ := 0
  world := 0

theorem interrupts_refine_sample : (exec (step linkedSample kernelSample programSample) machineSample
      [.go, .irq 1, .go, .irq 14, .go]).map (fun n => (view n, n.world)) =
        exec (act kernelSample 0xc0002000 programSample) (view machineSample, 0) [.go, .irq 1, .go, .irq 14, .go] ∧
      ∀ n, exec (step linkedSample kernelSample programSample) machineSample [.go, .irq 1, .go, .irq 14, .go] = some n →
        Untouched machineSample n :=
  interrupts_refine linkedSample kernelSample programSample (by decide) machineSample (by decide)
    [.go, .irq 1, .go, .irq 14, .go] (by decide)

/-- The second system call has returned 2 to the program. -/
example : (exec (act kernelSample 0xc0002000 programSample) (view machineSample, 0)
    [.go, .irq 1, .go, .irq 14, .go]).map (fun p => (p.1.reg .eax, p.1.reg .ebx, p.2)) = some (2, 7, 2) := by
  decide

end Sample

end Programs

end Eedox.Interrupts
