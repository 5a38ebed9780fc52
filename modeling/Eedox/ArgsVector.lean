import Eedox.Kstring
import Eedox.Library.Words
import Mathlib.Algebra.GroupWithZero.Nat

namespace Eedox.ArgsVector

open Util Library.Bytes Library.Words
open Kstring (strcpy)
open Fs.TableBuffer (strlenIn strlenIn_terminated store store_append loadWord)

/-- The memory of the task, from the address 0 on. -/
abbrev Mem := List UInt8

/-- The loop that fills `arg_list` and adds up `args_size`, over the bytes from `argv` on. -/
def gather (m : Mem) : List UInt8 → Option (List ℕ × ℕ)
  | b0 :: b1 :: b2 :: b3 :: argv =>
    let arg := wordAt (bytesOf [b0, b1, b2, b3]) 0
    if arg = 0 then some ([], 0)
    else (strlenIn (m.drop arg)).bind fun len =>
      (gather m argv).map fun (argList, argsSize) => (arg :: argList, add32 (1 + len) argsSize)
  | _ => none

/-- The loop that pops `arg_list`, given from its end to its start. -/
def placeArgs : List ℕ → Mem → (args ptrs : ℕ) → Option (Mem × ℕ)
  | [], m, _, ptrs => some (m, ptrs)
  | arg :: argList, m, args, ptrs =>
    (strlenIn (m.drop arg)).bind fun arglen =>
      let args := sub32 args (arglen + 1)
      (strcpy m args (m.drop arg)).bind fun m =>
        (store m (add32 args arglen) [0]).bind fun m =>
          let ptrs := sub32 ptrs 4
          (store m ptrs (wordBytes args)).bind fun m => placeArgs argList m args ptrs

/-- The memory after the call and the new stack pointer. -/
def placeArgsVector (m : Mem) (argv stack : ℕ) : Option (Mem × ℕ) :=
  (gather m (m.drop argv)).bind fun (argList, argsSize) =>
    let ptrs := sub32 stack argsSize
    let newEsp := sub32 (sub32 (sub32 stack 8) (4 * (argList.length + 1))) argsSize
    let argc := argList.length
    (placeArgs argList.reverse m stack ptrs).bind fun (m, ptrs) =>
      let newEsp := newEsp - newEsp % 64
      (store m (newEsp + 4) (wordBytes argc)).bind fun m =>
        (store m (newEsp + 8) (wordBytes ptrs)).map fun m => (m, newEsp)

/-- A string with the address where the vector finds it. -/
abbrev Arg := ℕ × Str

def total (args : List Arg) : ℕ := (args.map fun a => a.2.chars.length + 1).sum

def blob (args : List Arg) : List UInt8 := args.flatMap fun a => a.2.chars ++ [0]

/-- Where the copies lie, one after the other from `base` on. -/
def addresses : ℕ → List Arg → List ℕ
  | _, [] => []
  | base, a :: args => base :: addresses (base + (a.2.chars.length + 1)) args

def words (ws : List ℕ) : List UInt8 := ws.flatMap wordBytes

variable {m A B : Mem} {args : List Arg} {p base : ℕ} {cs : List UInt8}

@[simp] theorem total_nil : total [] = 0 := rfl

@[simp] theorem total_cons (a : Arg) (args : List Arg) :
    total (a :: args) = a.2.chars.length + 1 + total args := by
  rw [total, List.map_cons, List.sum_cons, total]

theorem total_append (args rest : List Arg) : total (args ++ rest) = total args + total rest := by
  rw [total, List.map_append, List.sum_append, total, total]

theorem length_blob (args : List Arg) : (blob args).length = total args := by
  simp [blob, total, List.length_flatMap]

theorem length_addresses (base : ℕ) (args : List Arg) : (addresses base args).length = args.length := by
  induction args generalizing base with
  | nil => rfl
  | cons a args ih => rw [addresses, List.length_cons, ih, List.length_cons]

theorem addresses_append (base : ℕ) (args rest : List Arg) :
    addresses base (args ++ rest) = addresses base args ++ addresses (base + total args) rest := by
  induction args generalizing base with
  | nil => simp [addresses]
  | cons a args ih =>
    rw [List.cons_append, addresses, addresses, ih, List.cons_append, total_cons, Nat.add_assoc]

theorem length_words (ws : List ℕ) : (words ws).length = 4 * ws.length := by
  induction ws with
  | nil => rfl
  | cons w ws ih =>
    rw [words, List.flatMap_cons, List.length_append, length_wordBytes, ← words, ih, List.length_cons]
    omega

theorem words_append (ws vs : List ℕ) : words (ws ++ vs) = words ws ++ words vs := List.flatMap_append

/-- The words up to the null pointer are the vector. -/
theorem gather_eq {bytes tail : List UInt8} (hm : ∀ a ∈ args, (0 < a.1 ∧ a.1 < 2 ^ 32) ∧
      ∃ rest, m.drop a.1 = a.2.chars ++ 0 :: rest) (hlt : total args < 2 ^ 32)
    (hbytes : bytes = words (args.map Prod.fst) ++ (wordBytes 0 ++ tail)) :
    gather m bytes = some (args.map Prod.fst, total args) := by
  induction args generalizing bytes with
  | nil =>
    rw [hbytes]
    rfl
  | cons a args ih =>
    rw [List.forall_mem_cons] at hm
    rw [total_cons] at hlt
    obtain ⟨⟨⟨hpos, hword⟩, rest, hrest⟩, hm⟩ := hm
    have harg : wordAt (bytesOf [byteOf a.1 0, byteOf a.1 1, byteOf a.1 2, byteOf a.1 3]) 0 = a.1 := by
      have := wordAt_append [] [] a.1
      rw [Nat.mod_eq_of_lt hword] at this
      exact this
    have hgather := ih hm (by omega) rfl
    rw [hbytes, List.map_cons, words, List.flatMap_cons]
    simp only [wordBytes, List.cons_append, List.nil_append, gather, harg]
    rw [if_neg (by omega), hrest, strlenIn_terminated a.2.nul, Option.bind_some]
    rw [words, wordBytes] at hgather
    simp only [List.cons_append, List.nil_append] at hgather
    rw [hgather, Option.map_some, add32_of_lt (by omega), total_cons]
    simp only [Nat.add_comm 1]

theorem wordBytes_wordAt (b0 b1 b2 b3 : UInt8) :
    wordBytes (wordAt (bytesOf [b0, b1, b2, b3]) 0) = [b0, b1, b2, b3] := by
  have h0 := b0.toNat_lt
  have h1 := b1.toNat_lt
  have h2 := b2.toNat_lt
  have h3 := b3.toNat_lt
  have hword : wordAt (bytesOf [b0, b1, b2, b3]) 0 =
      b0.toNat + 2 ^ 8 * b1.toNat + 2 ^ 16 * b2.toNat + 2 ^ 24 * b3.toNat := by
    simp [wordAt, bytesOf]
  rw [hword, wordBytes, List.cons_eq_cons, List.cons_eq_cons, List.cons_eq_cons, List.cons_eq_cons]
  refine ⟨?_, ?_, ?_, ?_, rfl⟩
  all_goals
    rw [← UInt8.toNat_inj, toNat_byteOf]
    omega

/-- A string whose end is found. -/
theorem strlenIn_some {l : List UInt8} {len : ℕ} (h : strlenIn l = some len) :
    ∃ (str : Str) (tail : List UInt8), str.chars.length = len ∧ l = str.chars ++ 0 :: tail := by
  induction l generalizing len with
  | nil => cases h
  | cons c cs ih =>
    rw [strlenIn] at h
    split at h
    next hc =>
      obtain rfl := Option.some.inj h
      exact ⟨⟨[], List.not_mem_nil⟩, cs, rfl, by rw [hc, List.nil_append]⟩
    next hc =>
      obtain ⟨n, hn, rfl⟩ := Option.map_eq_some_iff.mp h
      obtain ⟨str, tail, rfl, rfl⟩ := ih hn
      refine ⟨⟨c :: str.chars, ?_⟩, tail, rfl, rfl⟩
      rw [List.mem_cons, not_or]
      exact ⟨Ne.symm hc, str.nul⟩

/-- What the loop has gone through is a vector of strings with a null pointer at its end. -/
theorem gather_some {bytes : List UInt8} {argList : List ℕ} {size : ℕ} (h : gather m bytes = some (argList, size)) :
    ∃ args : List Arg, (∃ tail, bytes = words (args.map Prod.fst) ++ (wordBytes 0 ++ tail)) ∧
      ∀ a ∈ args, (0 < a.1 ∧ a.1 < 2 ^ 32) ∧ ∃ tail, m.drop a.1 = a.2.chars ++ 0 :: tail := by
  fun_induction gather m bytes generalizing argList size with
  | case1 b0 b1 b2 b3 argv arg =>
    rename_i hzero
    refine ⟨[], ⟨argv, ?_⟩, fun a ha => absurd ha List.not_mem_nil⟩
    rw [← hzero, wordBytes_wordAt]
    rfl
  | case2 b0 b1 b2 b3 argv arg hpos =>
    rename_i ih
    obtain ⟨len, hlen, hrest⟩ := Option.bind_eq_some_iff.mp h
    obtain ⟨⟨argList', size'⟩, hgather, -⟩ := Option.map_eq_some_iff.mp hrest
    obtain ⟨str, tail, -, hstr⟩ := strlenIn_some hlen
    obtain ⟨args, ⟨rest, hbytes⟩, hargs⟩ := ih hgather
    refine ⟨(arg, str) :: args, ⟨rest, ?_⟩, List.forall_mem_cons.mpr ⟨⟨⟨by omega, wordAt_lt _ _⟩, tail, hstr⟩, hargs⟩⟩
    rw [List.map_cons, words, List.flatMap_cons, ← words, wordBytes_wordAt, List.append_assoc, ← hbytes]
    rfl
  | case3 => cases h

theorem cut (l : List UInt8) {k : ℕ} (hk : k ≤ l.length) : ∃ a b, l = a ++ b ∧ a.length = k :=
  ⟨l.take k, l.drop k, (List.take_append_drop k l).symm, List.length_take_of_le hk⟩

theorem drop_beyond {X : List UInt8} (h : A.length + X.length ≤ p) :
    (A ++ (X ++ B)).drop p = B.drop (p - (A.length + X.length)) := by
  have hnil : (A ++ X).drop p = [] := List.drop_eq_nil_of_le (by rw [List.length_append]; omega)
  rw [← List.append_assoc, List.drop_append, hnil, List.nil_append, List.length_append]

/-- A string outside the part of the memory that is written is read as before. -/
theorem drop_outside {X Y : List UInt8} (h : ∃ tail, (A ++ (X ++ B)).drop p = cs ++ 0 :: tail)
    (hlen : Y.length = X.length) (hout : p + cs.length + 1 ≤ A.length ∨ A.length + X.length ≤ p) :
    ∃ tail, (A ++ (Y ++ B)).drop p = cs ++ 0 :: tail := by
  obtain ⟨tail, htail⟩ := h
  rcases hout with hbelow | habove
  · rw [List.drop_append_of_le_length (by omega)] at htail ⊢
    have hprefix : cs ++ [0] <+: A.drop p := by
      have hall : cs ++ [0] <+: A.drop p ++ (X ++ B) := by
        rw [htail]
        exact ⟨tail, by rw [List.append_assoc, List.singleton_append]⟩
      apply List.prefix_of_prefix_length_le hall ⟨X ++ B, rfl⟩
      simp only [List.length_append, List.length_singleton, List.length_drop]
      omega
    obtain ⟨rest, hrest⟩ := hprefix
    exact ⟨rest ++ (Y ++ B), by rw [← hrest, List.append_assoc, List.append_assoc, List.singleton_append]⟩
  · exact ⟨tail, by rw [drop_beyond (by rw [hlen]; exact habove), hlen, ← drop_beyond habove, htail]⟩

/-- One turn of the loop: the copy goes below the ones that are there, and its address below the others. -/
theorem placeArgs_cons {P P' S S' old tail : List UInt8} {o : UInt8} {word : List UInt8} {arg ptrs dest : ℕ}
    {argList : List ℕ} (hnul : 0 ∉ cs) (harg : (A ++ (P ++ (word ++ (P' ++ (S ++ (old ++ o :: S')))) ++ B)).drop arg =
      cs ++ 0 :: tail) (hold : old.length = cs.length) (hword : word.length = 4)
    (hdest : dest = (A ++ (P ++ (word ++ (P' ++ S)))).length) (hptrs : ptrs = (A ++ P).length)
    (hlt : dest + cs.length + 1 < 2 ^ 32) :
    placeArgs (arg :: argList) (A ++ (P ++ (word ++ (P' ++ (S ++ (old ++ o :: S')))) ++ B))
        (dest + (cs.length + 1)) (ptrs + 4) =
      placeArgs argList (A ++ (P ++ (wordBytes dest ++ (P' ++ (S ++ (cs ++ 0 :: S')))) ++ B)) dest ptrs := by
  have hstr := store_append (A ++ (P ++ (word ++ (P' ++ S)))) (o :: S' ++ B) hold.symm
  have hend := @store_append (A ++ (P ++ (word ++ (P' ++ S))) ++ cs) (S' ++ B) [o] [0] rfl
  have hptr := store_append (A ++ P) (P' ++ (S ++ (cs ++ 0 :: S')) ++ B)
    (show (wordBytes dest).length = word.length by rw [hword, length_wordBytes])
  have hle : ptrs + 4 ≤ dest := by
    rw [hdest, hptrs]
    simp only [List.length_append]
    omega
  rw [← hdest] at hstr
  rw [List.length_append, ← hdest] at hend
  rw [← hptrs] at hptr
  simp only [List.append_assoc, List.cons_append, List.nil_append] at harg hstr hend hptr ⊢
  rw [placeArgs, harg, strlenIn_terminated hnul, Option.bind_some, sub32_of_le (by omega) (by omega),
    sub32_of_le (by omega) (by omega), Nat.add_sub_cancel, Nat.add_sub_cancel]
  dsimp only
  rw [add32_of_lt (by omega), strcpy, strlenIn_terminated hnul, Option.bind_some, List.take_left, hstr,
    Option.bind_some, hend, Option.bind_some, hptr, Option.bind_some]

theorem total_reverse (args : List Arg) : total args.reverse = total args := by
  induction args with
  | nil => rfl
  | cons a args ih =>
    rw [List.reverse_cons, total_append, ih, total_cons, total_cons, total_nil]
    omega

theorem blob_append (args rest : List Arg) : blob (args ++ rest) = blob args ++ blob rest := List.flatMap_append

/-- What the loop has placed after all turns: the vector of the addresses, and the strings. -/
theorem placeArgs_eq {rev : List Arg} {X P P' S S' : List UInt8} (hm : ∀ a ∈ rev,
      (∃ tail, (A ++ (X ++ B)).drop a.1 = a.2.chars ++ 0 :: tail) ∧
      (a.1 + a.2.chars.length + 1 ≤ A.length ∨ A.length + X.length ≤ a.1))
    (hP : P.length = 4 * rev.length) (hS : S.length = total rev)
    (hX : (P ++ (P' ++ (S ++ S'))).length = X.length) (hlt : A.length + X.length < 2 ^ 32)
    (hbase : base = (A ++ (P ++ P')).length) :
    placeArgs (rev.map Prod.fst) (A ++ (P ++ (P' ++ (S ++ S')) ++ B)) (base + S.length) (A ++ P).length =
      some (A ++ (words (addresses base rev.reverse) ++ (P' ++ (blob rev.reverse ++ S')) ++ B), A.length) := by
  induction rev generalizing P P' S S' with
  | nil =>
    obtain rfl := List.eq_nil_of_length_eq_zero hP
    obtain rfl := List.eq_nil_of_length_eq_zero hS
    rw [List.append_nil]
    rfl
  | cons a rest ih =>
    rw [List.forall_mem_cons] at hm
    obtain ⟨⟨hstr, hout⟩, hm⟩ := hm
    rw [List.length_cons] at hP
    rw [total_cons] at hS
    obtain ⟨P₁, word, rfl, hP₁⟩ := @cut P (4 * rest.length) (by omega)
    obtain ⟨S₁, last, rfl, hS₁⟩ := @cut S (total rest) (by omega)
    rw [List.length_append] at hP hS
    have hword : word.length = 4 := by omega
    obtain ⟨old, o, rfl⟩ : ∃ old o, last = old ++ [o] := by
      rcases List.eq_nil_or_concat last with rfl | ⟨old, o, rfl⟩
      · simp only [List.length_nil] at hS
        omega
      · exact ⟨old, o, List.concat_eq_append⟩
    have hold : old.length = a.2.chars.length := by
      rw [List.length_append, List.length_singleton] at hS
      omega
    have hdest : base + total rest = (A ++ (P₁ ++ (word ++ (P' ++ S₁)))).length := by
      rw [hbase, ← hS₁]
      simp only [List.length_append]
      omega
    have hX' := hX
    simp only [List.length_append, List.length_singleton] at hX'
    have hbase' := hbase
    simp only [List.length_append] at hbase'
    have hshape : P₁ ++ word ++ (P' ++ (S₁ ++ (old ++ [o]) ++ S')) =
        P₁ ++ (word ++ (P' ++ (S₁ ++ (old ++ o :: S')))) := by simp
    rw [hshape] at hX ⊢
    obtain ⟨tail, htail⟩ := drop_outside hstr hX hout
    have hturn := @placeArgs_cons A B a.2.chars P₁ P' S₁ S' old tail o word a.1 (A ++ P₁).length
      (base + total rest) (rest.map Prod.fst) a.2.nul htail hold hword hdest rfl (by omega)
    have hnext := @ih P₁ (wordBytes (base + total rest) ++ P') S₁ (a.2.chars ++ 0 :: S') hm hP₁ hS₁
      (by simp only [List.length_append, List.length_cons, length_wordBytes]; omega)
      (by simp only [List.length_append, length_wordBytes]; omega)
    have hargs : base + (S₁ ++ (old ++ [o])).length = base + total rest + (a.2.chars.length + 1) := by
      simp only [List.length_append, List.length_singleton]
      omega
    have hptrs : (A ++ (P₁ ++ word)).length = (A ++ P₁).length + 4 := by
      simp only [List.length_append]
      omega
    rw [List.map_cons, hargs, hptrs, hturn, ← hS₁]
    rw [← hS₁] at hnext
    simp only [List.append_assoc] at hnext ⊢
    rw [hnext, List.reverse_cons, addresses_append, words_append, blob_append, total_reverse, hS₁]
    simp [addresses, words, blob]

theorem loadWord_append (pre post : List UInt8) {w : ℕ} (hw : w < 2 ^ 32) :
    loadWord (pre ++ (wordBytes w ++ post)) pre.length = some w := by
  rw [loadWord, if_pos, wordAt_append, Nat.mod_eq_of_lt hw]
  simp only [List.length_append, length_wordBytes]
  omega

theorem words_split {ws : List ℕ} {i c : ℕ} (h : ws[i]? = some c) : ∃ pre post,
    words ws = pre ++ (wordBytes c ++ post) ∧ pre.length = 4 * i := by
  obtain ⟨hi, rfl⟩ := List.getElem?_eq_some_iff.mp h
  refine ⟨words (ws.take i), words (ws.drop (i + 1)), ?_, ?_⟩
  · have hsplit : words ws = words (ws.take i ++ (ws[i] :: ws.drop (i + 1))) := by
      rw [List.getElem_cons_drop, List.take_append_drop]
    rw [hsplit, words_append]
    rfl
  · rw [length_words, List.length_take_of_le hi.le]

/-- The copy of an argument is where the lengths of those before it say. -/
theorem blob_split {i c : ℕ} {a : Arg} (hc : (addresses base args)[i]? = some c) (ha : args[i]? = some a) :
    ∃ pre post, blob args = pre ++ (a.2.chars ++ 0 :: post) ∧ c = base + pre.length := by
  induction args generalizing base i with
  | nil => simp at ha
  | cons b args ih =>
    cases i with
    | zero =>
      obtain rfl := Option.some.inj ha
      obtain rfl := Option.some.inj hc
      exact ⟨[], blob args, by simp [blob], rfl⟩
    | succ i =>
      obtain ⟨pre, post, hblob, rfl⟩ := ih hc ha
      refine ⟨b.2.chars ++ [0] ++ pre, post, ?_, ?_⟩
      · rw [blob, List.flatMap_cons, ← blob, hblob, List.append_assoc (b.2.chars ++ [0])]
      · simp only [List.length_append, List.length_singleton]
        omega

/-- The copies with their lengths. -/
def copies (base : ℕ) (args : List Arg) : List (ℕ × ℕ) :=
  (addresses base args).zip (args.map fun a => a.2.chars.length + 1)

/-- Each range ends where the next one starts, or below. -/
def Below (r q : ℕ × ℕ) : Prop := r.1 + r.2 ≤ q.1

theorem copies_inside (base : ℕ) (args : List Arg) :
    ∀ r ∈ copies base args, base ≤ r.1 ∧ r.1 + r.2 ≤ base + total args := by
  induction args generalizing base with
  | nil => exact fun r hr => absurd hr List.not_mem_nil
  | cons a args ih =>
    intro r hr
    rw [total_cons]
    rcases List.mem_cons.mp hr with rfl | hr
    · simp only
      omega
    · have := ih _ r hr
      omega

theorem copies_apart (base : ℕ) (args : List Arg) : (copies base args).Pairwise Below := by
  induction args generalizing base with
  | nil => exact .nil
  | cons a args ih => exact .cons (fun r hr => (copies_inside _ args r hr).1) (ih _)

/-- The header words, the vector and the copies. -/
def ranges (sp vector : ℕ) (args : List Arg) : List (ℕ × ℕ) :=
  (sp + 4, 4) :: (sp + 8, 4) :: (vector, 4 * args.length) :: copies (vector + 4 * args.length) args

/-- What a program finds from its stack pointer on. -/
structure Placed (m : Mem) (sp stack vector : ℕ) (args : List Arg) : Prop where
  aligned : sp % 64 = 0
  argc : loadWord m (sp + 4) = some args.length
  argv : loadWord m (sp + 8) = some vector
  pointed : ∀ i a, args[i]? = some a → ∃ c tail, loadWord m (vector + 4 * i) = some c ∧
    (copies (vector + 4 * args.length) args)[i]? = some (c, a.2.chars.length + 1) ∧
    m.drop c = a.2.chars ++ 0 :: tail
  apart : (ranges sp vector args).Pairwise Below
  inside : ∀ r ∈ ranges sp vector args, sp ≤ r.1 ∧ r.1 + r.2 ≤ stack

/-- The memory after the call, from its parts. -/
theorem placed_of_parts {sp stack : ℕ} {A₀ A₁ : Mem} (hA₀ : A₀.length = sp + 4) (hsp : sp % 64 = 0)
    (hstack : sp + 12 + A₁.length + 4 * args.length + total args = stack) (hlt : stack < 2 ^ 32)
    (hm : m = A₀ ++ (wordBytes args.length ++ (wordBytes (sp + 12 + A₁.length) ++ (A₁ ++
      (words (addresses (sp + 12 + A₁.length + 4 * args.length) args) ++ (blob args ++ B)))))) :
    Placed m sp stack (sp + 12 + A₁.length) args := by
  have hinside := copies_inside (sp + 12 + A₁.length + 4 * args.length) args
  refine ⟨hsp, ?_, ?_, fun i a ha => ?_, ?_, fun r hr => ?_⟩
  · rw [hm, ← hA₀]
    exact loadWord_append _ _ (by omega)
  · have hword := @loadWord_append (A₀ ++ wordBytes args.length) (A₁ ++
      (words (addresses (sp + 12 + A₁.length + 4 * args.length) args) ++ (blob args ++ B)))
      (sp + 12 + A₁.length) (by omega)
    rw [List.length_append, length_wordBytes, hA₀, List.append_assoc] at hword
    rw [hm]
    exact hword
  · have hi := (List.getElem?_eq_some_iff.mp ha).1
    have hlen := length_addresses (sp + 12 + A₁.length + 4 * args.length) args
    obtain ⟨c, hc⟩ : ∃ c, (addresses (sp + 12 + A₁.length + 4 * args.length) args)[i]? = some c :=
      ⟨_, List.getElem?_eq_getElem (hlen.symm ▸ hi)⟩
    obtain ⟨pre, post, hwords, hpre⟩ := words_split hc
    obtain ⟨pre', post', hblob, hc'⟩ := blob_split hc ha
    have hcopy : (copies (sp + 12 + A₁.length + 4 * args.length) args)[i]? = some (c, a.2.chars.length + 1) := by
      rw [copies, List.getElem?_zip_eq_some]
      exact ⟨hc, by rw [List.getElem?_map, ha, Option.map_some]⟩
    have hle := hinside _ (List.mem_of_getElem? hcopy)
    refine ⟨c, post' ++ B, ?_, hcopy, ?_⟩
    · have hword := @loadWord_append (A₀ ++ (wordBytes args.length ++ (wordBytes (sp + 12 + A₁.length) ++
        (A₁ ++ pre)))) (post ++ (blob args ++ B)) c (by omega)
      have hplace : (A₀ ++ (wordBytes args.length ++ (wordBytes (sp + 12 + A₁.length) ++
          (A₁ ++ pre)))).length = sp + 12 + A₁.length + 4 * i := by
        simp only [List.length_append, length_wordBytes]
        omega
      rw [hplace] at hword
      rw [hm, hwords]
      simpa only [List.append_assoc] using hword
    · have hplace : (A₀ ++ (wordBytes args.length ++ (wordBytes (sp + 12 + A₁.length) ++
          (A₁ ++ (words (addresses (sp + 12 + A₁.length + 4 * args.length) args) ++ pre'))))).length = c := by
        rw [hc']
        simp only [List.length_append, length_wordBytes, length_words, hlen]
        omega
      have hshape : m = (A₀ ++ (wordBytes args.length ++ (wordBytes (sp + 12 + A₁.length) ++
          (A₁ ++ (words (addresses (sp + 12 + A₁.length + 4 * args.length) args) ++ pre'))))) ++
          (a.2.chars ++ 0 :: (post' ++ B)) := by
        rw [hm, hblob]
        simp only [List.append_assoc, List.cons_append]
      rw [hshape, ← hplace, List.drop_left]
  · refine .cons (fun r hr => ?_) (.cons (fun r hr => ?_) (.cons (fun r hr => ?_) (copies_apart _ args)))
    · rw [Below]
      rcases List.mem_cons.mp hr with rfl | hr
      · simp only
        omega
      · rcases List.mem_cons.mp hr with rfl | hr
        · simp only
          omega
        · have := hinside r hr
          simp only
          omega
    · rw [Below]
      rcases List.mem_cons.mp hr with rfl | hr
      · simp only
        omega
      · have := hinside r hr
        simp only
        omega
    · exact (hinside r hr).1
  · rcases List.mem_cons.mp hr with rfl | hr
    · simp only
      omega
    · rcases List.mem_cons.mp hr with rfl | hr
      · simp only
        omega
      · rcases List.mem_cons.mp hr with rfl | hr
        · simp only
          omega
        · have := hinside r hr
          omega

/-- The memory holds a vector of strings that ends with a null pointer. -/
structure Vector (m : Mem) (argv : ℕ) (args : List Arg) : Prop where
  pointers : ∃ tail, m.drop argv = words (args.map Prod.fst) ++ (wordBytes 0 ++ tail)
  addressed : ∀ a ∈ args, 0 < a.1 ∧ a.1 < 2 ^ 32
  strings : ∀ a ∈ args, ∃ tail, m.drop a.1 = a.2.chars ++ 0 :: tail

theorem words_unique {ws vs : List ℕ} {tail tail' : List UInt8} (hws : ∀ w ∈ ws, 0 < w ∧ w < 2 ^ 32)
    (hvs : ∀ v ∈ vs, 0 < v ∧ v < 2 ^ 32)
    (h : words ws ++ (wordBytes 0 ++ tail) = words vs ++ (wordBytes 0 ++ tail')) : ws = vs := by
  have hfirst : ∀ (w : ℕ) (rest : List UInt8), w < 2 ^ 32 → wordAt (bytesOf (wordBytes w ++ rest)) 0 = w := by
    intro w rest hw
    have hword := wordAt_append [] rest w
    rw [Nat.mod_eq_of_lt hw] at hword
    exact hword
  induction ws generalizing vs with
  | nil => cases vs with
    | nil => rfl
    | cons v vs =>
      have hv := (List.forall_mem_cons.mp hvs).1
      rw [words, words, List.flatMap_cons, List.flatMap_nil, List.nil_append, List.append_assoc] at h
      have hzero := congrArg (fun l => wordAt (bytesOf l) 0) h
      simp only [hfirst 0 _ (by omega), hfirst v _ hv.2] at hzero
      omega
  | cons w ws ih =>
    rw [List.forall_mem_cons] at hws
    rw [words, List.flatMap_cons, List.append_assoc] at h
    cases vs with
    | nil =>
      have hzero := congrArg (fun l => wordAt (bytesOf l) 0) h
      rw [words, List.flatMap_nil, List.nil_append] at hzero
      simp only [hfirst 0 _ (by omega), hfirst w _ hws.1.2] at hzero
      omega
    | cons v vs =>
      rw [List.forall_mem_cons] at hvs
      rw [words, List.flatMap_cons, List.append_assoc] at h
      have hword := congrArg (fun l => wordAt (bytesOf l) 0) h
      simp only [hfirst w _ hws.1.2, hfirst v _ hvs.1.2] at hword
      rw [hword, List.append_cancel_left_eq] at h
      rw [hword, ih hws.2 hvs.2 h]

theorem chars_eq {str str' : Str} {tail tail' : List UInt8} (h : str.chars ++ 0 :: tail = str'.chars ++ 0 :: tail') :
    str = str' := by
  rw [Str.ext_iff, ← text_terminated str.nul tail, h, text_terminated str'.nul]

/-- The memory holds one vector at an address at most. -/
theorem Vector.unique {argv : ℕ} {args' : List Arg} (h : Vector m argv args) (h' : Vector m argv args') :
    args = args' := by
  obtain ⟨tail, htail⟩ := h.pointers
  obtain ⟨tail', htail'⟩ := h'.pointers
  have hwords : args.map Prod.fst = args'.map Prod.fst := by
    apply words_unique (List.forall_mem_map.mpr h.addressed) (List.forall_mem_map.mpr h'.addressed)
    rw [← htail, htail']
  have hlen := congrArg List.length hwords
  rw [List.length_map, List.length_map] at hlen
  apply List.ext_getElem hlen
  intro i hi hi'
  have hfst := congrArg (fun ws => ws[i]?) hwords
  simp only [List.getElem?_map, List.getElem?_eq_getElem hi, List.getElem?_eq_getElem hi', Option.map_some,
    Option.some.injEq] at hfst
  obtain ⟨rest, hrest⟩ := h.strings _ (List.getElem_mem hi)
  obtain ⟨rest', hrest'⟩ := h'.strings _ (List.getElem_mem hi')
  rw [hfst, hrest'] at hrest
  exact Prod.ext hfst (chars_eq hrest).symm

/-- The two header words, when there is room for them. -/
theorem store_header {sp n vector : ℕ} (hroom : sp + 12 ≤ A.length) (R : Mem) :
    ∃ A₀ A₁ : Mem, A₀.length = sp + 4 ∧ sp + 12 + A₁.length = A.length ∧
      ((store (A ++ R) (sp + 4) (wordBytes n)).bind fun m => store m (sp + 8) (wordBytes vector)) =
        some (A₀ ++ (wordBytes n ++ (wordBytes vector ++ (A₁ ++ R)))) := by
  obtain ⟨A₀, rest, rfl, hA₀⟩ := @cut A (sp + 4) (by omega)
  rw [List.length_append] at hroom
  obtain ⟨h₁, rest, rfl, hh₁⟩ := @cut rest 4 (by omega)
  rw [List.length_append] at hroom
  obtain ⟨h₂, A₁, rfl, hh₂⟩ := @cut rest 4 (by omega)
  have hargc := store_append A₀ (h₂ ++ (A₁ ++ R)) (show (wordBytes n).length = h₁.length from hh₁.symm)
  have hargv := store_append (A₀ ++ wordBytes n) (A₁ ++ R) (show (wordBytes vector).length = h₂.length from hh₂.symm)
  rw [hA₀] at hargc
  rw [List.length_append, hA₀, length_wordBytes] at hargv
  refine ⟨A₀, A₁, hA₀, by simp only [List.length_append]; omega, ?_⟩
  simp only [List.append_assoc] at hargc hargv ⊢
  rw [hargc, Option.bind_some, hargv]

/-- The memory after the call: what lies from the old stack pointer on follows the last string. -/
theorem placeArgsVector_parts {m : Mem} {argv stack : ℕ} {args : List Arg} (hvector : Vector m argv args)
    (hlen : stack ≤ m.length) (hlt : stack < 2 ^ 32) (hroom : 12 + 4 * args.length + total args ≤ stack)
    (hout : ∀ a ∈ args, a.1 + a.2.chars.length + 1 ≤ stack - total args - 4 * args.length ∨ stack ≤ a.1) :
    ∃ (A₀ A₁ : Mem) (sp : ℕ), A₀.length = sp + 4 ∧ sp % 64 = 0 ∧ A₁.length < 64 ∧
      sp + 12 + A₁.length + 4 * args.length + total args = stack ∧
      placeArgsVector m argv stack = some (A₀ ++ (wordBytes args.length ++ (wordBytes (sp + 12 + A₁.length) ++
        (A₁ ++ (words (addresses (sp + 12 + A₁.length + 4 * args.length) args) ++
          (blob args ++ m.drop stack))))), sp) := by
  obtain ⟨A, rest, rfl, hA⟩ := @cut m (stack - total args - 4 * args.length) (by omega)
  rw [List.length_append] at hlen
  obtain ⟨X, B, rfl, hX⟩ := @cut rest (4 * args.length + total args) (by omega)
  obtain ⟨P, S, rfl, hP⟩ := @cut X (4 * args.length) (by omega)
  rw [List.length_append] at hX
  have hrev : ∀ a ∈ args.reverse, (∃ tail, (A ++ (P ++ S ++ B)).drop a.1 = a.2.chars ++ 0 :: tail) ∧
      (a.1 + a.2.chars.length + 1 ≤ A.length ∨ A.length + (P ++ S).length ≤ a.1) := by
    intro a ha
    have ha' := List.mem_reverse.mp ha
    refine ⟨hvector.strings a ha', ?_⟩
    have := hout a ha'
    rw [List.length_append]
    omega
  obtain ⟨tail, htail⟩ := hvector.pointers
  have hgather := gather_eq (fun a ha => ⟨hvector.addressed a ha, hvector.strings a ha⟩) (by omega) htail
  have hplace := @placeArgs_eq A B (A.length + 4 * args.length) args.reverse (P ++ S) P [] S [] hrev
    (by rw [List.length_reverse, hP]) (by rw [total_reverse]; omega) (by simp) (by rw [List.length_append]; omega)
    (by simp only [List.length_append, List.length_nil]; omega)
  have htop : A.length + 4 * args.length + S.length = stack := by omega
  have hptrs : (A ++ P).length = sub32 stack (total args) := by
    rw [List.length_append, sub32_of_le (by omega) hlt]
    omega
  have hesp : sub32 (sub32 (sub32 stack 8) (4 * (args.length + 1))) (total args) = A.length - 12 := by
    rw [@sub32_of_le stack 8 (by omega) hlt, @sub32_of_le (stack - 8) _ (by omega) (by omega),
      sub32_of_le (by omega) (by omega)]
    omega
  have hB : (A ++ (P ++ S ++ B)).drop stack = B := by
    rw [← List.append_assoc, List.drop_left' (by simp only [List.length_append]; omega)]
  simp only [List.nil_append, List.append_nil, List.append_assoc, List.reverse_reverse, htop, hptrs,
    List.map_reverse] at hplace
  obtain ⟨A₀, A₁, hA₀, hA₁, hheader⟩ := @store_header A (A.length - 12 - (A.length - 12) % 64) args.length
    A.length (by omega) (words (addresses (A.length + 4 * args.length) args) ++ (blob args ++ B))
  have hstored := congrArg (Option.map fun m => (m, A.length - 12 - (A.length - 12) % 64)) hheader
  rw [Option.map_bind, Option.map_some] at hstored
  refine ⟨A₀, A₁, A.length - 12 - (A.length - 12) % 64, hA₀, by omega, by omega, by omega, ?_⟩
  rw [placeArgsVector, hgather, Option.bind_some]
  dsimp only
  rw [List.length_map, hesp, hB, hA₁, List.append_assoc, hplace, Option.bind_some]
  exact hstored

/-- The vector is laid out below the old stack pointer, and the new one is a multiple of 64. -/
theorem placeArgsVector_placed {m : Mem} {argv stack : ℕ} {args : List Arg} (hvector : Vector m argv args)
    (hlen : stack ≤ m.length) (hlt : stack < 2 ^ 32) (hroom : 12 + 4 * args.length + total args ≤ stack)
    (hout : ∀ a ∈ args, a.1 + a.2.chars.length + 1 ≤ stack - total args - 4 * args.length ∨ stack ≤ a.1) :
    ∃ m' sp, placeArgsVector m argv stack = some (m', sp) ∧ m'.length = m.length ∧ sp ≤ stack ∧
      Placed m' sp stack (stack - total args - 4 * args.length) args := by
  obtain ⟨A₀, A₁, sp, hA₀, hsp, -, hstack, hplace⟩ := placeArgsVector_parts hvector hlen hlt hroom hout
  have hbase : sp + 12 + A₁.length = stack - total args - 4 * args.length := by omega
  refine ⟨_, sp, hplace, ?_, by omega, ?_⟩
  · simp only [List.length_append, length_wordBytes, length_words, length_addresses, length_blob, List.length_drop]
    omega
  · rw [← hbase]
    exact placed_of_parts hA₀ hsp hstack hlt rfl

/-- The program `ls` with no argument, its name placed above the stack. -/
theorem placeArgsVector_placed_ls :
    ∃ m' sp, placeArgsVector (.replicate 64 0 ++ (words [72] ++ (wordBytes 0 ++ [108, 115, 0]))) 64 64 =
      some (m', sp) ∧ m'.length = 75 ∧ sp ≤ 64 ∧ Placed m' sp 64 57 [(72, ⟨[108, 115], by decide⟩)] := by
  refine @placeArgsVector_placed (.replicate 64 0 ++ (words [72] ++ (wordBytes 0 ++ [108, 115, 0]))) 64 64
    [(72, ⟨[108, 115], by decide⟩)] ⟨⟨[108, 115, 0], rfl⟩, ?_, ?_⟩ (by decide) (by decide) (by decide) ?_
  · simp
  · simp only [List.forall_mem_singleton]
    exact ⟨[], rfl⟩
  · simp

end Eedox.ArgsVector
