import Eedox.ArgsVector
import Eedox.ProgSegments
import Eedox.Syscall

namespace Eedox.ExecArguments

open Util Library.Bytes Library.Words Library.Runs ArgsVector
open Prog (Space Loading Later progLoad sampleFile)
open Fs.TableBuffer (loadWord)
open Syscall (syscallTranslateFsErr)

def userStackSize : ℕ := 0x2000

structure Registers where
  ecx : ℕ
  esp : ℕ
  eip : ℕ
  useresp : ℕ

/-- The memory as `place_args_vector` goes through it. -/
def image (mem : ℕ → UInt8) : Mem := (List.range (2 ^ 32)).map mem

def stackPtr (regs : Registers) : ℕ := sub32 (add32 regs.esp userStackSize) 0x40

/-- `read` is what `exec_open` and `fs_read` have come to: an error, or the buffer with the program. -/
def syscallExec (s : Space) (kernelMemoryEnd : ℕ) (regs : Registers) :
    (read : Except ℤ ℕ) → Option (Space × Registers × ℤ)
  | .error err => some (s, regs, syscallTranslateFsErr err)
  | .ok program =>
    match progLoad s program kernelMemoryEnd with
    | (_, .endless) => none
    | (r, .failure) => some (r.space, regs, -9)
    | (r, .entry entry) =>
      (placeArgsVector (image r.space.mem) regs.ecx (stackPtr regs)).map fun (m, stackPtr) =>
        ({ r.space with mem := fun a => m.getD a 0 }, { regs with eip := entry, useresp := stackPtr }, 0)

/-- What a program finds at its start: the two parameters of `startup` lie above the return address. -/
structure Passed (m : Mem) (esp : ℕ) (strings : List Str) : Prop where
  argc : loadWord m (esp + 4) = some strings.length
  argv : ∃ vector, loadWord m (esp + 8) = some vector ∧
    (∀ i str, strings[i]? = some str → ∃ c tail, loadWord m (vector + 4 * i) = some c ∧
      m.drop c = str.chars ++ 0 :: tail) ∧
    loadWord m (vector + 4 * strings.length) = some 0

/-- The call returns 0, and the new program finds the arguments that the vector holds at the call. -/
def Passes (s : Space) (kernelMemoryEnd : ℕ) (regs : Registers) (program : ℕ) (args : List Arg) : Prop :=
  Vector (image s.mem) regs.ecx args → ∃ s' regs',
    syscallExec s kernelMemoryEnd regs (.ok program) = some (s', regs', 0) ∧
      Passed (image s'.mem) regs'.useresp (args.map Prod.snd)

/-- The vector and its strings fit on the user stack, and none of the strings lies where they will be. -/
structure Apart (stack : ℕ) (args : List Arg) : Prop where
  room : 75 + 4 * args.length + total args ≤ userStackSize - 0x40
  outside : ∀ a ∈ args, a.1 + a.2.chars.length + 1 ≤ stack - total args - 4 * args.length ∨ stack ≤ a.1

/-- The first word of the copies, which reads on into what lies above them where they are shorter. -/
def firstWord (mem : ℕ → UInt8) (stack : ℕ) (args : List Arg) : ℕ :=
  wordAt (bytesOf (blob args ++ (image mem).drop stack)) 0

variable {mem mem' : ℕ → UInt8} {m : Mem} {s : Space} {kernelMemoryEnd program argv stack entry : ℕ}
  {regs : Registers} {args args' : List Arg} {strings : List Str}

theorem length_image (mem : ℕ → UInt8) : (image mem).length = 2 ^ 32 := by
  rw [image, List.length_map, List.length_range]

theorem getElem?_image {a : ℕ} (h : a < 2 ^ 32) : (image mem)[a]? = some (mem a) := by
  rw [image, List.getElem?_map, List.getElem?_range h, Option.map_some]

theorem image_getD (h : m.length = 2 ^ 32) : image (fun a => m.getD a 0) = m := by
  apply List.ext_getElem?
  intro a
  rcases Nat.lt_or_ge a (2 ^ 32) with hlt | hge
  · rw [getElem?_image hlt, List.getD_eq_getElem?_getD, List.getElem?_eq_getElem (h ▸ hlt), Option.getD_some]
  · rw [List.getElem?_eq_none (by rw [length_image]; exact hge), List.getElem?_eq_none (h ▸ hge)]

/-- The bytes from an address on, read one by one. -/
theorem drop_image {bytes : List UInt8} {p : ℕ} (hle : p + bytes.length ≤ 2 ^ 32)
    (h : ∀ k < bytes.length, bytes[k]? = some (mem (p + k))) : ∃ tail, (image mem).drop p = bytes ++ tail := by
  refine ⟨((image mem).drop p).drop bytes.length, ?_⟩
  have htake : ((image mem).drop p).take bytes.length = bytes := by
    apply List.ext_getElem?
    intro k
    rcases Nat.lt_or_ge k bytes.length with hlt | hge
    · rw [List.getElem?_take_of_lt hlt, List.getElem?_drop, getElem?_image (by omega), h k hlt]
    · rw [List.getElem?_eq_none (by rw [List.length_take]; omega), List.getElem?_eq_none hge]
  conv_rhs => lhs; rw [← htake]
  rw [List.take_append_drop]

theorem getElem?_of_drop {bytes tail : List UInt8} {p k : ℕ} (h : (image mem).drop p = bytes ++ tail)
    (hk : k < bytes.length) : p + k < 2 ^ 32 ∧ bytes[k]? = some (mem (p + k)) := by
  have hget : ((image mem).drop p)[k]? = bytes[k]? := by rw [h, List.getElem?_append_left hk]
  rw [List.getElem?_drop, List.getElem?_eq_getElem hk] at hget
  obtain ⟨hlt, -⟩ := List.getElem?_eq_some_iff.mp hget
  rw [length_image] at hlt
  exact ⟨hlt, by rw [List.getElem?_eq_getElem hk, ← hget, getElem?_image hlt]⟩

/-- Bytes that stay as they are are found again. -/
theorem drop_kept {bytes : List UInt8} {p : ℕ} (h : ∃ tail, (image mem).drop p = bytes ++ tail)
    (hpos : 0 < bytes.length) (hsame : ∀ k < bytes.length, mem' (p + k) = mem (p + k)) :
    ∃ tail, (image mem').drop p = bytes ++ tail := by
  obtain ⟨tail, htail⟩ := h
  have hlast := (getElem?_of_drop htail (show bytes.length - 1 < bytes.length by omega)).1
  exact drop_image (by omega) fun k hk => by rw [hsame k hk, (getElem?_of_drop htail hk).2]

/-- A vector is kept with its bytes and those of its strings. -/
theorem vector_kept (h : Vector (image mem) argv args)
    (hwords : ∀ k < 4 * (args.length + 1), mem' (argv + k) = mem (argv + k))
    (hstrings : ∀ a ∈ args, ∀ k < a.2.chars.length + 1, mem' (a.1 + k) = mem (a.1 + k)) :
    Vector (image mem') argv args := by
  refine ⟨?_, h.addressed, fun a ha => ?_⟩
  · obtain ⟨tail, htail⟩ := h.pointers
    have hlen : (words (args.map Prod.fst) ++ wordBytes 0).length = 4 * (args.length + 1) := by
      rw [List.length_append, length_words, List.length_map, length_wordBytes]
      omega
    obtain ⟨rest, hrest⟩ := @drop_kept mem mem' (words (args.map Prod.fst) ++ wordBytes 0) argv
      ⟨tail, by rw [htail, List.append_assoc]⟩ (by omega) (by rw [hlen]; exact hwords)
    exact ⟨rest, by rw [hrest, List.append_assoc]⟩
  · obtain ⟨tail, htail⟩ := h.strings a ha
    obtain ⟨rest, hrest⟩ := @drop_kept mem mem' (a.2.chars ++ [0]) a.1
      ⟨tail, by rw [htail, List.append_assoc, List.singleton_append]⟩ (by simp) (by simpa using hstrings a ha)
    exact ⟨rest, by rw [hrest, List.append_assoc, List.singleton_append]⟩

/-- The word behind the vector is the start of the strings. -/
theorem loadWord_behind {pre bytes : List UInt8} (h : 4 ≤ bytes.length) :
    loadWord (pre ++ bytes) pre.length = some (wordAt (bytesOf bytes) 0) := by
  rw [loadWord, if_pos (by rw [List.length_append]; omega)]
  congr 1
  have hbyte : ∀ k, bytesOf (pre ++ bytes) (pre.length + k) = bytesOf bytes k := by
    intro k
    rw [bytesOf, bytesOf, List.getD_eq_getElem?_getD, List.getElem?_append_right (by omega),
      Nat.add_sub_cancel_left, List.getD_eq_getElem?_getD]
  rw [wordAt, wordAt, ← Nat.add_zero pre.length, hbyte]
  simp only [Nat.add_zero, Nat.zero_add, hbyte]

theorem syscallExec_some {esp : ℕ} (hload : (progLoad s program kernelMemoryEnd).2 = .entry entry)
    (hplace : placeArgsVector (image (progLoad s program kernelMemoryEnd).1.space.mem) regs.ecx (stackPtr regs) =
      some (m, esp)) (hlen : m.length = 2 ^ 32) :
    ∃ s' regs', syscallExec s kernelMemoryEnd regs (.ok program) = some (s', regs', 0) ∧
      image s'.mem = m ∧ regs'.useresp = esp := by
  refine ⟨{ (progLoad s program kernelMemoryEnd).1.space with mem := fun a => m.getD a 0 },
    { regs with eip := entry, useresp := esp }, ?_, image_getD hlen, rfl⟩
  rcases hr : progLoad s program kernelMemoryEnd with ⟨r, out⟩
  rw [hr] at hload hplace
  subst hload
  simp only [syscallExec, hr, hplace, Option.map_some]

theorem syscallExec_placed (hstack : regs.esp + userStackSize ≤ 2 ^ 32)
    (hload : (progLoad s program kernelMemoryEnd).2 = .entry entry)
    (hvector : Vector (image (progLoad s program kernelMemoryEnd).1.space.mem) regs.ecx args)
    (hapart : Apart (stackPtr regs) args) :
    ∃ s' regs' vector, syscallExec s kernelMemoryEnd regs (.ok program) = some (s', regs', 0) ∧
      Placed (image s'.mem) regs'.useresp (stackPtr regs) vector args ∧
      loadWord (image s'.mem) (vector + 4 * args.length) =
        some (firstWord (progLoad s program kernelMemoryEnd).1.space.mem (stackPtr regs) args) := by
  have hptr : stackPtr regs = regs.esp + userStackSize - 0x40 := by
    rw [userStackSize] at hstack ⊢
    rw [stackPtr, userStackSize, add32, sub32]
    omega
  have hroom := hapart.room
  rw [userStackSize] at hroom hptr hstack
  have himage := length_image (progLoad s program kernelMemoryEnd).1.space.mem
  obtain ⟨A₀, A₁, sp, hA₀, hsp, -, hsum, hplace⟩ := placeArgsVector_parts hvector
    (by rw [himage]; omega) (by omega) (by omega) hapart.outside
  have hshape : ∀ rest : Mem, A₀ ++ (wordBytes args.length ++ (wordBytes (sp + 12 + A₁.length) ++ (A₁ ++
      (words (addresses (sp + 12 + A₁.length + 4 * args.length) args) ++ rest)))) =
      (A₀ ++ (wordBytes args.length ++ (wordBytes (sp + 12 + A₁.length) ++ (A₁ ++
        words (addresses (sp + 12 + A₁.length + 4 * args.length) args))))) ++ rest := by
    intro rest
    simp only [List.append_assoc]
  have hpre : (A₀ ++ (wordBytes args.length ++ (wordBytes (sp + 12 + A₁.length) ++ (A₁ ++
      words (addresses (sp + 12 + A₁.length + 4 * args.length) args))))).length =
      sp + 12 + A₁.length + 4 * args.length := by
    simp only [List.length_append, length_wordBytes, length_words, length_addresses]
    omega
  have hplaced := placed_of_parts (B := (image (progLoad s program kernelMemoryEnd).1.space.mem).drop (stackPtr regs))
    hA₀ hsp hsum (by omega) rfl
  have hbehind := @loadWord_behind (A₀ ++ (wordBytes args.length ++ (wordBytes (sp + 12 + A₁.length) ++ (A₁ ++
    words (addresses (sp + 12 + A₁.length + 4 * args.length) args)))))
    (blob args ++ (image (progLoad s program kernelMemoryEnd).1.space.mem).drop (stackPtr regs))
    (by rw [List.length_append, List.length_drop, himage]; omega)
  rw [hpre, ← hshape] at hbehind
  obtain ⟨s', regs', hcall, hmem, hesp⟩ := syscallExec_some hload hplace (by
    simp only [List.length_append, length_wordBytes, length_words, length_addresses, length_blob,
      List.length_drop, himage]
    omega)
  refine ⟨s', regs', sp + 12 + A₁.length, hcall, ?_, ?_⟩
  · rw [hmem, hesp]
    exact hplaced
  · rw [hmem]
    exact hbehind

theorem passed_iff {esp vector w : ℕ} (h : Placed m esp stack vector args)
    (hw : loadWord m (vector + 4 * args.length) = some w) :
    Passed m esp strings ↔ args.map Prod.snd = strings ∧ w = 0 := by
  constructor
  · intro hp
    have hlen : args.length = strings.length := Option.some.inj (h.argc.symm.trans hp.argc)
    obtain ⟨v, hv, hpointed, hnull⟩ := hp.argv
    obtain rfl : vector = v := Option.some.inj (h.argv.symm.trans hv)
    refine ⟨List.ext_getElem (by rw [List.length_map, hlen]) fun i hi hi' => ?_, ?_⟩
    · rw [List.length_map] at hi
      obtain ⟨c, tail, hc, -, hchars⟩ := h.pointed i args[i] (List.getElem?_eq_getElem hi)
      obtain ⟨c', tail', hc', hchars'⟩ := hpointed i strings[i] (List.getElem?_eq_getElem hi')
      obtain rfl : c = c' := Option.some.inj (hc.symm.trans hc')
      rw [List.getElem_map]
      exact chars_eq (hchars.symm.trans hchars')
    · rw [← hlen, hw] at hnull
      exact Option.some.inj hnull
  · rintro ⟨rfl, rfl⟩
    refine ⟨by rw [h.argc, List.length_map], vector, h.argv, fun i str hi => ?_, by rw [List.length_map, hw]⟩
    rw [List.getElem?_map, Option.map_eq_some_iff] at hi
    obtain ⟨a, ha, rfl⟩ := hi
    obtain ⟨c, tail, hc, -, hchars⟩ := h.pointed i a ha
    exact ⟨c, tail, hc, hchars⟩

/-- A call that returns has gone through a vector. -/
theorem exists_vector {s' : Space} {regs' : Registers} {res : ℤ}
    (hload : (progLoad s program kernelMemoryEnd).2 = .entry entry)
    (h : syscallExec s kernelMemoryEnd regs (.ok program) = some (s', regs', res)) :
    ∃ args, Vector (image (progLoad s program kernelMemoryEnd).1.space.mem) regs.ecx args := by
  rcases hr : progLoad s program kernelMemoryEnd with ⟨r, out⟩
  rw [hr] at hload
  subst hload
  simp only [syscallExec, hr] at h
  obtain ⟨x, hplace, -⟩ := Option.map_eq_some_iff.mp h
  obtain ⟨⟨argList, size⟩, hgather, -⟩ := Option.bind_eq_some_iff.mp hplace
  obtain ⟨args, hpointers, hargs⟩ := gather_some hgather
  exact ⟨args, hpointers, fun a ha => (hargs a ha).1, fun a ha => (hargs a ha).2⟩

/-- The new program finds the arguments when the loaded file has left a vector of the same strings, and the
first bytes of these are zeros: no null pointer is stored behind the addresses of the copies. -/
theorem passes_iff (hstack : regs.esp + userStackSize ≤ 2 ^ 32)
    (hload : (progLoad s program kernelMemoryEnd).2 = .entry entry) (hvector : Vector (image s.mem) regs.ecx args)
    (hapart : ∀ args', Vector (image (progLoad s program kernelMemoryEnd).1.space.mem) regs.ecx args' →
      Apart (stackPtr regs) args') :
    Passes s kernelMemoryEnd regs program args ↔
      ∃ args', Vector (image (progLoad s program kernelMemoryEnd).1.space.mem) regs.ecx args' ∧
        args'.map Prod.snd = args.map Prod.snd ∧
        firstWord (progLoad s program kernelMemoryEnd).1.space.mem (stackPtr regs) args' = 0 := by
  constructor
  · intro h
    obtain ⟨s', regs', hcall, hpassed⟩ := h hvector
    obtain ⟨args', hvector'⟩ := exists_vector hload hcall
    obtain ⟨t, regs'', vector, hcall', hplaced, hbehind⟩ := syscallExec_placed hstack hload hvector' (hapart _ hvector')
    rw [hcall', Option.some.injEq, Prod.mk.injEq, Prod.mk.injEq] at hcall
    obtain ⟨rfl, rfl, -⟩ := hcall
    exact ⟨args', hvector', (passed_iff hplaced hbehind).mp hpassed⟩
  · rintro ⟨args', hvector', hsame, hword⟩ -
    obtain ⟨s', regs', vector, hcall, hplaced, hbehind⟩ := syscallExec_placed hstack hload hvector' (hapart _ hvector')
    exact ⟨s', regs', hcall, (passed_iff hplaced hbehind).mpr ⟨hsame, hword⟩⟩

section sample

/-- A program that calls `exec` with the vector at 0x600000, its only string behind it. The file at 0x200000
has one segment, at 0x500000, and the user stack ends at 0xC0004000. -/
def callerSpace (str : List UInt8) : Space :=
  { mem := fun a =>
      if a < 0x200000 then 0
      else if a < 0x600000 then (sampleFile [0, 0, 0x50, 0]).getD (a - 0x200000) 0
      else (words [0x600008] ++ wordBytes 0 ++ str ++ [0]).getD (a - 0x600000) 0
    frames := fun page => page < 0x700 || (0xC0000 ≤ page && page < 0xC0004)
    fresh := fun _ => 0
    free := 16
    brk := 0x601000
    touched := fun _ => false }

def callerRegs : Registers := ⟨0x600000, 0xC0001FE0, 0, 0⟩

def onlyArg (str : Str) : List Arg := [(0x600008, str)]

def letter : Str := ⟨[97], nul_a⟩

def noLetter : Str := ⟨[], nul_nil⟩

theorem vector_caller {str : Str} (hlen : str.chars.length < 0x1000) :
    Vector (image (callerSpace str.chars).mem) 0x600000 (onlyArg str) := by
  have hbytes : ∃ tail, (image (callerSpace str.chars).mem).drop 0x600000 =
      words [0x600008] ++ wordBytes 0 ++ str.chars ++ [0] ++ tail := by
    apply drop_image
    · simp only [List.length_append, length_words, length_wordBytes, List.length_singleton]
      omega
    · intro k hk
      have hmem : (callerSpace str.chars).mem (0x600000 + k) =
          (words [0x600008] ++ wordBytes 0 ++ str.chars ++ [0]).getD k 0 := by
        rw [callerSpace]
        simp only
        rw [if_neg (by omega), if_neg (by omega), Nat.add_sub_cancel_left]
      rw [hmem, List.getD_eq_getElem?_getD, List.getElem?_eq_getElem hk, Option.getD_some]
  obtain ⟨tail, htail⟩ := hbytes
  refine ⟨⟨str.chars ++ [0] ++ tail, ?_⟩, ?_, ?_⟩
  · rw [htail]
    simp only [onlyArg, List.map_cons, List.map_nil, List.append_assoc]
  · simp [onlyArg]
  · rw [onlyArg, List.forall_mem_singleton]
    refine ⟨tail, ?_⟩
    have hdrop : (image (callerSpace str.chars).mem).drop (0x600000 + 8) = str.chars ++ [0] ++ tail := by
      rw [← List.drop_drop, htail]
      rfl
    rw [hdrop, List.append_assoc, List.singleton_append]

theorem apart_caller {str : Str} (hlen : str.chars.length < 0x1000) :
    Apart (stackPtr callerRegs) (onlyArg str) := by
  have hptr : stackPtr callerRegs = 0xC0003FA0 := by decide
  refine ⟨?_, ?_⟩
  · rw [onlyArg, total_cons, total_nil, List.length_singleton, userStackSize]
    dsimp only
    omega
  · rw [hptr, onlyArg, List.forall_mem_singleton, total_cons, total_nil, List.length_singleton]
    dsimp only
    omega

/-- The load leaves the vector and a string of at most a letter. -/
theorem vector_loaded {str : Str} (hstr : str = letter ∨ str = noLetter) :
    Vector (image (progLoad (callerSpace str.chars) 0x200000 0x400000).1.space.mem) 0x600000 (onlyArg str) := by
  have hkept : ∀ k < 0x10, (progLoad (callerSpace str.chars) 0x200000 0x400000).1.space.mem (0x600000 + k) =
      (callerSpace str.chars).mem (0x600000 + k) := by
    rcases hstr with rfl | rfl
    · decide
    · decide
  have hlen : str.chars.length ≤ 1 := by
    rcases hstr with rfl | rfl
    · decide
    · decide
  refine vector_kept (vector_caller (show str.chars.length < 0x1000 by omega)) (fun k hk => hkept k ?_) ?_
  · rw [onlyArg, List.length_singleton] at hk
    omega
  · rw [onlyArg, List.forall_mem_singleton]
    intro k (hk : k < str.chars.length + 1)
    rw [Nat.add_assoc 0x600000 8 k]
    exact hkept _ (by omega)

theorem firstWord_noLetter {stack : ℕ} (h : stack + 3 ≤ 2 ^ 32) (hzero : ∀ k < 3, mem (stack + k) = 0) :
    firstWord mem stack (onlyArg noLetter) = 0 := by
  have hbyte : ∀ k < 3, bytesOf (0 :: (image mem).drop stack) (k + 1) = 0 := by
    intro k hk
    rw [bytesOf, List.getD_cons_succ, List.getD_eq_getElem?_getD, List.getElem?_drop, getElem?_image (by omega),
      Option.getD_some, hzero k hk]
  have hblob : blob (onlyArg noLetter) ++ (image mem).drop stack = 0 :: (image mem).drop stack := rfl
  rw [firstWord, hblob, wordAt, hbyte 0 (by omega), hbyte 1 (by omega), hbyte 2 (by omega)]
  rfl

theorem loaded_caller {str : Str} (hstr : str = letter ∨ str = noLetter) :
    (progLoad (callerSpace str.chars) 0x200000 0x400000).2 = .entry 0 := by
  rcases hstr with rfl | rfl
  · decide
  · decide

/-- With an empty string alone, and zeros at the end of the user stack, the vector is as promised. -/
theorem passes_noLetter : Passes (callerSpace noLetter.chars) 0x400000 callerRegs 0x200000 (onlyArg noLetter) := by
  have hloaded := vector_loaded (Or.inr rfl : noLetter = letter ∨ noLetter = noLetter)
  have hapart := apart_caller (show noLetter.chars.length < 0x1000 by decide)
  refine (passes_iff (by decide) (loaded_caller (Or.inr rfl)) (vector_caller (by decide)) ?_).mpr
    ⟨onlyArg noLetter, hloaded, rfl, ?_⟩
  · intro args' hvector
    rw [hvector.unique hloaded]
    exact hapart
  · have hptr : stackPtr callerRegs = 0xC0003FA0 := by decide
    rw [hptr]
    exact firstWord_noLetter (by decide) (by decide)

/-- With the argument `a` no null pointer ends the vector: its letter is found there. -/
theorem unterminated_letter : Vector (image (callerSpace letter.chars).mem) callerRegs.ecx (onlyArg letter) ∧
    (progLoad (callerSpace letter.chars) 0x200000 0x400000).2 = .entry 0 ∧
    ¬ Passes (callerSpace letter.chars) 0x400000 callerRegs 0x200000 (onlyArg letter) := by
  have hvector := vector_caller (show letter.chars.length < 0x1000 by decide)
  have hload := loaded_caller (Or.inl rfl : letter = letter ∨ letter = noLetter)
  refine ⟨hvector, hload, fun h => ?_⟩
  obtain ⟨s', regs', hcall, hpassed⟩ := h hvector
  obtain ⟨t, regs'', vector, hcall', hplaced, hbehind⟩ := syscallExec_placed (by decide) hload
    (vector_loaded (Or.inl rfl)) (apart_caller (by decide))
  rw [hcall', Option.some.injEq, Prod.mk.injEq, Prod.mk.injEq] at hcall
  obtain ⟨rfl, rfl, -⟩ := hcall
  have hzero := ((passed_iff hplaced hbehind).mp hpassed).2
  have hfirst : (bytesOf (blob (onlyArg letter) ++ (image
      (progLoad (callerSpace letter.chars) 0x200000 0x400000).1.space.mem).drop (stackPtr callerRegs)) 0).toNat =
        97 := rfl
  rw [firstWord, wordAt, hfirst] at hzero
  omega

end sample

end Eedox.ExecArguments
