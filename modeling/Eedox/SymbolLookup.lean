import Eedox.Trace
import Mathlib.Data.List.GetD
import Mathlib.Tactic.IntervalCases

namespace Eedox.SymbolLookup

open Trace Library.Bytes Library.Words

variable {buffer bytes text : List UInt8} {index count off i j k : ℕ} {mem mem' : ℕ → UInt8} {table table' : Table}
  {line : NmLine} {done lines : List NmLine} {base eip : ℕ}

/-- The text and its NUL. -/
def StringAt (mem : ℕ → UInt8) (off : ℕ) (text : List UInt8) : Prop := slice mem off (text.length + 1) = text ++ [0]

theorem bytesOf_extend (buffer : List UInt8) (n : ℕ) : bytesOf (extend buffer n) = bytesOf buffer := by
  funext k
  unfold bytesOf extend
  by_cases hk : k < buffer.length
  · rw [List.getD_append _ _ _ _ hk]
  · have hout : buffer.getD k 0 = 0 := List.getD_eq_default _ _ (by omega)
    rw [List.getD_append_right _ _ _ _ (by omega), hout, List.getD_eq_getElem?_getD, List.getElem?_replicate]
    split_ifs <;> rfl

theorem bytesOf_slice (mem : ℕ → UInt8) {n : ℕ} (hk : k < n) : bytesOf (slice mem 0 n) k = mem k := by
  rw [bytesOf_eq (by rwa [length_slice]), getElem_slice, Nat.zero_add]

theorem length_writeBytes (buffer : List UInt8) (index : ℕ) (bytes : List UInt8) :
    (writeBytes buffer index bytes).length = max buffer.length (index + bytes.length) := by
  have hlen : (extend buffer (index + bytes.length)).length = max buffer.length (index + bytes.length) := by
    rw [extend, List.length_append, List.length_replicate]
    omega
  rw [writeBytes, length_overlay (by omega), hlen]
  omega

theorem bytesOf_writeBytes (buffer : List UInt8) (index : ℕ) (bytes : List UInt8) :
    bytesOf (writeBytes buffer index bytes) = blit (bytesOf buffer) index (bytesOf bytes) bytes.length := by
  have hover := @overlay_slice (bytesOf (extend buffer (index + bytes.length)))
    (extend buffer (index + bytes.length)).length index bytes
    (by rw [extend, List.length_append, List.length_replicate]; omega)
  rw [slice_bytesOf, bytesOf_extend] at hover
  have hlen := length_writeBytes buffer index bytes
  funext k
  rw [writeBytes] at hlen ⊢
  by_cases hk : k < max (extend buffer (index + bytes.length)).length (index + bytes.length)
  · rw [hover, bytesOf_slice _ hk]
  · rw [blit_outside (by omega), bytesOf, List.getD_eq_default _ _ (by rw [hover, length_slice]; omega), bytesOf,
      List.getD_eq_default]
    rw [hover, length_slice] at hlen
    omega

theorem blit_wordBytes (mem : ℕ → UInt8) (k value : ℕ) :
    blit mem k (bytesOf (wordBytes value)) 4 = putWord mem k value := by
  funext j
  unfold blit putWord
  split_ifs with hj
  · obtain ⟨d, rfl⟩ : ∃ d, j = k + d := ⟨j - k, by omega⟩
    rw [Nat.add_sub_cancel_left]
    have hd : d < 4 := by omega
    interval_cases d <;> rfl
  · rfl

theorem bytesOf_writeDword (buffer : List UInt8) (index value : ℕ) :
    bytesOf (writeDword buffer index value) = putWord (bytesOf buffer) index value := by
  rw [writeDword, bytesOf_writeBytes, length_wordBytes, blit_wordBytes]

/-- A text lies behind the records, inside what has been written. -/
structure Placed (count : ℕ) (table : Table) (off : ℕ) (text : List UInt8) : Prop where
  behind : 4 + 12 * count ≤ off
  before : off + text.length + 1 ≤ table.symIndex
  written : off + text.length + 1 ≤ table.buffer.length
  string : StringAt (bytesOf table.buffer) off text

/-- The record of a line with its texts. -/
structure Written (count : ℕ) (table : Table) (index : ℕ) (line : NmLine) : Prop where
  ptr : recPtr (bytesOf table.buffer) index = line.address
  name : ∃ off, recName (bytesOf table.buffer) index = off % 2 ^ 32 ∧ Placed count table off line.name
  file : ∀ path, line.file = some path →
    ∃ off, recAddress (bytesOf table.buffer) index = off % 2 ^ 32 ∧ Placed count table off (baseName path)

/-- The records of these lines have been written, and the slots behind them are empty. -/
structure Filled (count : ℕ) (done : List NmLine) (table : Table) : Prop where
  recIndex : table.recIndex = 4 + 12 * done.length
  symIndex : 4 + 12 * count ≤ table.symIndex
  counted : symtableCount (bytesOf table.buffer) = count % 2 ^ 32
  empty : ∀ k, 4 + 12 * done.length ≤ k → k < 4 + 12 * count → bytesOf table.buffer k = 0
  records : ∀ index line, done[index]? = some line → Written count table index line

theorem StringAt.congr (h : StringAt mem off text) (hsame : ∀ j, off ≤ j → j < off + text.length + 1 → mem' j = mem j) :
    StringAt mem' off text := by
  rw [StringAt, slice_congr fun j hj hj' => hsame j hj (by omega)]
  exact h

theorem Placed.lift (h : Placed count table off text) (hsym : table.symIndex ≤ table'.symIndex)
    (hlen : table.buffer.length ≤ table'.buffer.length)
    (hsame : ∀ j, 4 + 12 * count ≤ j → j < table.symIndex → bytesOf table'.buffer j = bytesOf table.buffer j) :
    Placed count table' off text where
  behind := h.behind
  before := h.before.trans hsym
  written := h.written.trans hlen
  string := by
    have hbehind := h.behind
    have hbefore := h.before
    exact h.string.congr fun j hj hj' => hsame j (by omega) (by omega)

theorem Written.lift (h : Written count table index line) (hsym : table.symIndex ≤ table'.symIndex)
    (hlen : table.buffer.length ≤ table'.buffer.length)
    (hrec : ∀ j, 4 + 12 * index ≤ j → j < 4 + 12 * index + 12 → bytesOf table'.buffer j = bytesOf table.buffer j)
    (hsame : ∀ j, 4 + 12 * count ≤ j → j < table.symIndex → bytesOf table'.buffer j = bytesOf table.buffer j) :
    Written count table' index line where
  ptr := (wordAt_congr fun j hj hj' => hrec j hj (by omega)).trans h.ptr
  name := by
    obtain ⟨off, hname, hplaced⟩ := h.name
    exact ⟨off, (wordAt_congr fun j hj hj' => hrec j (by omega) (by omega)).trans hname, hplaced.lift hsym hlen hsame⟩
  file path hpath := by
    obtain ⟨off, hfile, hplaced⟩ := h.file path hpath
    exact ⟨off, (wordAt_congr fun j hj hj' => hrec j (by omega) (by omega)).trans hfile, hplaced.lift hsym hlen hsame⟩

/-- A text goes behind everything that the records and the other texts take. -/
theorem alloc_placed (hsym : 4 + 12 * count ≤ table.symIndex) (text : List UInt8) :
    Placed count (table.alloc text).1 (table.alloc text).2 text ∧ (table.alloc text).1.recIndex = table.recIndex ∧
      table.symIndex ≤ (table.alloc text).1.symIndex ∧ table.buffer.length ≤ (table.alloc text).1.buffer.length ∧
      ∀ j, j < table.symIndex → bytesOf (table.alloc text).1.buffer j = bytesOf table.buffer j := by
  have hlen := length_writeBytes table.buffer table.symIndex (text ++ [0])
  rw [List.length_append, List.length_singleton] at hlen
  refine ⟨⟨hsym, Nat.le_refl _, ?_, ?_⟩, rfl, Nat.le_add_right _ _, ?_, fun j hj => ?_⟩
  · change table.symIndex + text.length + 1 ≤ (writeBytes table.buffer table.symIndex (text ++ [0])).length
    omega
  · change slice (bytesOf (writeBytes table.buffer table.symIndex (text ++ [0]))) table.symIndex (text.length + 1) = _
    rw [bytesOf_writeBytes, show text.length + 1 = (text ++ [0]).length by simp]
    refine slice_eq fun d hd => ?_
    rw [blit_inside (by omega) (by omega), Nat.add_sub_cancel_left, bytesOf_eq hd]
  · change table.buffer.length ≤ (writeBytes table.buffer table.symIndex (text ++ [0])).length
    omega
  · change bytesOf (writeBytes table.buffer table.symIndex (text ++ [0])) j = _
    rw [bytesOf_writeBytes, blit_outside (Or.inl hj)]

theorem bytesOf_addrec (table : Table) (ptr name address : ℕ) : bytesOf (table.addrec ptr name address).buffer =
    putWord (putWord (putWord (bytesOf table.buffer) table.recIndex ptr) (table.recIndex + 4) name)
      (table.recIndex + 8) address := by
  simp only [Table.addrec, bytesOf_writeDword]

theorem length_addrec (table : Table) (ptr name address : ℕ) :
    table.buffer.length ≤ (table.addrec ptr name address).buffer.length := by
  simp only [Table.addrec, writeDword, length_writeBytes]
  omega

theorem bytesOf_addrec_outside {ptr name address : ℕ} (h : j < table.recIndex ∨ table.recIndex + 12 ≤ j) :
    bytesOf (table.addrec ptr name address).buffer j = bytesOf table.buffer j := by
  rw [bytesOf_addrec, putWord_of_disjoint (by omega), putWord_of_disjoint (by omega), putWord_of_disjoint (by omega)]

theorem bytesOf_addrec_words {ptr name address : ℕ} :
    wordAt (bytesOf (table.addrec ptr name address).buffer) table.recIndex = ptr % 2 ^ 32 ∧
      wordAt (bytesOf (table.addrec ptr name address).buffer) (table.recIndex + 4) = name % 2 ^ 32 ∧
      wordAt (bytesOf (table.addrec ptr name address).buffer) (table.recIndex + 8) = address % 2 ^ 32 := by
  rw [bytesOf_addrec]
  refine ⟨?_, ?_, wordAt_putWord _ _ _⟩
  · rw [wordAt_putWord_of_disjoint (by omega), wordAt_putWord_of_disjoint (by omega), wordAt_putWord]
  · rw [wordAt_putWord_of_disjoint (by omega), wordAt_putWord]

/-- The file's text, when there is one, goes where a name's does. -/
theorem allocFile_placed (hsym : 4 + 12 * count ≤ table.symIndex) (file : Option (List UInt8)) :
    (∀ path, file = some path → Placed count (allocFile table file).1 (allocFile table file).2 (baseName path)) ∧
      (allocFile table file).1.recIndex = table.recIndex ∧ table.symIndex ≤ (allocFile table file).1.symIndex ∧
      table.buffer.length ≤ (allocFile table file).1.buffer.length ∧
      ∀ j, j < table.symIndex → bytesOf (allocFile table file).1.buffer j = bytesOf table.buffer j := by
  cases file with
  | none => exact ⟨fun path h => (nomatch h), rfl, le_rfl, le_rfl, fun _ _ => rfl⟩
  | some path =>
    obtain ⟨hplaced, hrest⟩ := alloc_placed hsym (baseName path)
    refine ⟨fun path' h => ?_, hrest⟩
    obtain rfl := Option.some.inj h
    exact hplaced

/-- One turn of the main loop on a line that is listed. -/
theorem addLine_filled (h : Filled count done table) (hroom : done.length < count) (hlisted : Listed line) :
    Filled count (done ++ [line]) (addLine table line) := by
  obtain ⟨hfile, hrec1, hsym1, hlen1, hsame1⟩ := allocFile_placed h.symIndex line.file
  generalize htable1 : (allocFile table line.file).1 = table1 at hfile hrec1 hsym1 hlen1 hsame1
  generalize haddress : (allocFile table line.file).2 = address at hfile
  obtain ⟨hname, hrec2, hsym2, hlen2, hsame2⟩ := alloc_placed (h.symIndex.trans hsym1) line.name
  generalize htable2 : (table1.alloc line.name).1 = table2 at hname hrec2 hsym2 hlen2 hsame2
  generalize hoff : (table1.alloc line.name).2 = off at hname
  have hline : addLine table line = table2.addrec line.address off address := by
    rw [addLine, if_pos hlisted, ← htable2, ← hoff, ← htable1, ← haddress]
  have hrec : table2.recIndex = 4 + 12 * done.length := by rw [hrec2, hrec1, h.recIndex]
  have hlen3 := length_addrec table2 line.address off address
  have hsymIndex := h.symIndex
  have hlater (j : ℕ) (hj : 4 + 12 * count ≤ j) :
      bytesOf (table2.addrec line.address off address).buffer j = bytesOf table2.buffer j :=
    bytesOf_addrec_outside (Or.inr (by omega))
  have hkept (j : ℕ) (hj : j < table.symIndex) (hout : j < table2.recIndex ∨ table2.recIndex + 12 ≤ j) :
      bytesOf (table2.addrec line.address off address).buffer j = bytesOf table.buffer j := by
    rw [bytesOf_addrec_outside hout, hsame2 j (by omega), hsame1 j hj]
  rw [hline]
  refine ⟨?_, ?_, ?_, fun k hk hk' => ?_, fun index l hl => ?_⟩
  · rw [List.length_append, List.length_singleton]
    change table2.recIndex + 12 = _
    omega
  · change _ ≤ table2.symIndex
    omega
  · rw [← h.counted]
    exact wordAt_congr fun j hj hj' => hkept j (by omega) (Or.inl (by omega))
  · rw [List.length_append, List.length_singleton] at hk
    rw [hkept k (by omega) (Or.inr (by omega)), h.empty k (by omega) hk']
  · by_cases hold : index < done.length
    · rw [List.getElem?_append_left hold] at hl
      refine (h.records index l hl).lift ?_ (by omega) (fun j hj hj' => hkept j (by omega) (Or.inl (by omega)))
        fun j hj hj' => hkept j hj' (Or.inr (by omega))
      change _ ≤ table2.symIndex
      omega
    · rw [List.getElem?_append_right (by omega), List.getElem?_singleton] at hl
      split_ifs at hl with hindex
      obtain rfl := Option.some.inj hl
      obtain rfl : index = done.length := by omega
      obtain ⟨hptr, hnameWord, haddressWord⟩ := @bytesOf_addrec_words table2 line.address off address
      rw [hrec] at hptr hnameWord haddressWord
      refine ⟨hptr.trans (Nat.mod_eq_of_lt line.word), ⟨off, hnameWord, ?_⟩,
        fun path hpath => ⟨address, haddressWord, ?_⟩⟩
      · exact hname.lift le_rfl hlen3 fun j hj _ => hlater j hj
      · refine (hfile path hpath).lift hsym2 (hlen2.trans hlen3) fun j hj hj' => ?_
        rw [hlater j hj, hsame2 j hj']

theorem filled_empty (count : ℕ) : Filled count [] (emptyTable count) := by
  have hbytes : bytesOf (emptyTable count).buffer = putWord (bytesOf []) 0 count := bytesOf_writeDword [] 0 count
  refine ⟨rfl, ?_, ?_, fun k hk _ => ?_, fun index l hl => ?_⟩
  · change 4 + 12 * count ≤ count * 12 + 4
    omega
  · rw [hbytes]
    exact wordAt_putWord _ 0 count
  · rw [hbytes, putWord_of_disjoint (Or.inr hk)]
    rfl
  · rw [List.getElem?_nil] at hl
    cases hl

theorem foldl_filled (h : Filled count done table) (hroom : done.length + lines.length ≤ count) :
    Filled count (done ++ lines.filter fun line => Listed line) (lines.foldl addLine table) := by
  induction lines generalizing done table with
  | nil => rwa [List.filter_nil, List.append_nil]
  | cons line lines ih =>
    rw [List.length_cons] at hroom
    rw [List.foldl_cons, List.filter_cons]
    by_cases hlisted : Listed line
    · rw [if_pos (decide_eq_true hlisted), ← List.singleton_append, ← List.append_assoc]
      refine ih (addLine_filled h (by omega) hlisted) ?_
      rw [List.length_append, List.length_singleton]
      omega
    · rw [addLine, if_neg hlisted, if_neg (by simpa using hlisted)]
      exact ih h (by omega)

/-- The symbols that have records, in their order. -/
def listed (lines : List NmLine) : List NmLine := lines.filter fun line => Listed line

theorem filled_filled (lines : List NmLine) : Filled lines.length (listed lines) (filled lines) :=
  foldl_filled (filled_empty lines.length) (Nat.zero_add lines.length).le

/-- The turns of `trace_init` move the texts' words and leave all else. -/
theorem traceInitUpTo_spec (base : ℕ) (mem : ℕ → UInt8) (n : ℕ) :
    (∀ k, (∀ i, i < n → k < 4 + 12 * i + 4 ∨ 4 + 12 * i + 12 ≤ k) → traceInitUpTo base mem n k = mem k) ∧
      ∀ i, i < n → recName (traceInitUpTo base mem n) i = add32 (recName mem i) base ∧
        recAddress (traceInitUpTo base mem n) i = add32 (recAddress mem i) base := by
  induction n with
  | zero => exact ⟨fun k _ => rfl, fun i hi => absurd hi (Nat.not_lt_zero i)⟩
  | succ n ih =>
    obtain ⟨hkept, hmoved⟩ := ih
    generalize hbefore : traceInitUpTo base mem n = before at hkept hmoved
    have hstep : traceInitUpTo base mem (n + 1) = putWord (putWord before (4 + 12 * n + 4) (add32 (recName mem n) base))
        (4 + 12 * n + 8) (add32 (recAddress mem n) base) := by
      have hname : recName before n = recName mem n :=
        wordAt_congr fun j hj hj' => hkept j fun i hi => by omega
      have haddress : recAddress (putWord before (4 + 12 * n + 4) (add32 (recName mem n) base)) n = recAddress mem n :=
        wordAt_congr fun j hj hj' => by
          rw [putWord_of_disjoint (by omega)]
          exact hkept j fun i hi => by omega
      simp only [traceInitUpTo, hbefore, haddress, hname]
    rw [hstep]
    constructor
    · intro k hk
      have hn := hk n (Nat.lt_succ_self n)
      rw [putWord_of_disjoint (by omega), putWord_of_disjoint (by omega)]
      exact hkept k fun i hi => hk i (Nat.lt_succ_of_lt hi)
    · intro i hi
      rcases Nat.lt_succ_iff_lt_or_eq.mp hi with hlt | rfl
      · have hold := hmoved i hlt
        constructor
        · rw [← hold.1, recName, wordAt_putWord_of_disjoint (by omega), wordAt_putWord_of_disjoint (by omega)]
          rfl
        · rw [← hold.2, recAddress, wordAt_putWord_of_disjoint (by omega), wordAt_putWord_of_disjoint (by omega)]
          rfl
      · constructor
        · rw [recName, wordAt_putWord_of_disjoint (by omega), wordAt_putWord]
          exact Nat.mod_mod _ _
        · rw [recAddress, wordAt_putWord]
          exact Nat.mod_mod _ _

/-- Where the search ends: it has passed addresses up to `eip` only, and the next one is larger. -/
theorem fnrecFindFrom_spec {turns : ℕ} (hturns : symtableCount mem ≤ index + turns) :
    index ≤ fnrecFindFrom mem eip turns index ∧
      (fnrecFindFrom mem eip turns index = index ∨ fnrecFindFrom mem eip turns index < symtableCount mem) ∧
      (∀ j, index < j → j ≤ fnrecFindFrom mem eip turns index → recPtr mem j ≤ eip) ∧
      (fnrecFindFrom mem eip turns index + 1 < symtableCount mem →
        eip < recPtr mem (fnrecFindFrom mem eip turns index + 1)) := by
  induction turns generalizing index with
  | zero =>
    rw [fnrecFindFrom]
    exact ⟨le_rfl, Or.inl rfl, fun j hj hj' => by omega, fun h => by omega⟩
  | succ turns ih =>
    rw [fnrecFindFrom]
    split_ifs with hnext
    · obtain ⟨hle, hlt, hpassed, hlast⟩ := @ih (index + 1) (by omega)
      refine ⟨by omega, Or.inr (by omega), fun j hj hj' => ?_, hlast⟩
      by_cases hfirst : j = index + 1
      · rw [hfirst]
        exact hnext.2
      · exact hpassed j (by omega) hj'
    · exact ⟨le_rfl, Or.inl rfl, fun j hj hj' => by omega, fun h => by
        by_contra hge
        exact hnext ⟨h, by omega⟩⟩

/-- The record holds the line's address, and its texts lie where it says. -/
structure RecordOf (base : ℕ) (mem : ℕ → UInt8) (index : ℕ) (line : NmLine) : Prop where
  ptr : recPtr mem index = line.address
  name : ∃ off, recName mem index = add32 off base ∧ StringAt mem off line.name
  file : ∀ path, line.file = some path → ∃ off, recAddress mem index = add32 off base ∧ StringAt mem off (baseName path)

/-- What the kernel finds in memory after `trace_init`. -/
def loaded (base : ℕ) (lines : List NmLine) : ℕ → UInt8 := traceInit base (bytesOf (output lines))

/-- The record found is that of the listed symbol with the greatest address up to `eip`. -/
def Found (base : ℕ) (lines : List NmLine) (eip : ℕ) : Prop :=
  ∃ line, (listed lines)[fnrecFind (loaded base lines) eip]? = some line ∧
    RecordOf base (loaded base lines) (fnrecFind (loaded base lines) eip) line ∧ line.address ≤ eip ∧
    ∀ other ∈ lines, Listed other → other.address ≤ eip → other.address ≤ line.address

/-- The records of a table that fits, as the kernel finds them. -/
theorem loaded_records (base : ℕ) (hfits : (filled lines).buffer.length ≤ 0x8000) (hsome : listed lines ≠ []) :
    symtableCount (loaded base lines) = lines.length ∧
      (∀ index line, (listed lines)[index]? = some line → RecordOf base (loaded base lines) index line) ∧
      ∀ index, (listed lines).length ≤ index → index < lines.length → recPtr (loaded base lines) index = 0 := by
  have hfilled := filled_filled lines
  have hbytes : bytesOf (output lines) = bytesOf (filled lines).buffer := bytesOf_extend _ _
  have hbound : 4 + 12 * lines.length ≤ 0x8000 := by
    obtain ⟨first, rest, hfirst⟩ := List.exists_cons_of_ne_nil hsome
    obtain ⟨off, -, hplaced⟩ := (hfilled.records 0 first (by rw [hfirst]; rfl)).name
    have hbehind := hplaced.behind
    have hwritten := hplaced.written
    omega
  have hcount : symtableCount (bytesOf (output lines)) = lines.length := by
    rw [hbytes, hfilled.counted]
    omega
  obtain ⟨hkept, hmoved⟩ := traceInitUpTo_spec base (bytesOf (output lines)) lines.length
  have hloaded : loaded base lines = traceInitUpTo base (bytesOf (output lines)) lines.length := by
    rw [loaded, traceInit, hcount]
  rw [← hloaded, hbytes] at hkept hmoved
  have hptr (index : ℕ) : recPtr (loaded base lines) index = recPtr (bytesOf (filled lines).buffer) index :=
    wordAt_congr fun j hj hj' => hkept j fun i _ => by omega
  have hstring {off : ℕ} {text : List UInt8} (hplaced : Placed lines.length (filled lines) off text) :
      StringAt (loaded base lines) off text := by
    have hbehind := hplaced.behind
    exact hplaced.string.congr fun j hj _ => hkept j fun i hi => by omega
  refine ⟨?_, fun index line hline => ?_, fun index hindex hlt => ?_⟩
  · have hsame : symtableCount (loaded base lines) = symtableCount (bytesOf (filled lines).buffer) :=
      wordAt_congr fun j _ hj => hkept j fun i _ => by omega
    rw [hsame, ← hbytes, hcount]
  · have hindex : index < lines.length :=
      (List.getElem?_eq_some_iff.mp hline).1.trans_le (List.length_filter_le _ _)
    have hwritten := hfilled.records index line hline
    obtain ⟨hname, haddress⟩ := hmoved index hindex
    refine ⟨(hptr index).trans hwritten.ptr, ?_, fun path hpath => ?_⟩
    · obtain ⟨off, hoff, hplaced⟩ := hwritten.name
      have hin := hplaced.written
      exact ⟨off, by rw [hname, hoff, Nat.mod_eq_of_lt (by omega)], hstring hplaced⟩
    · obtain ⟨off, hoff, hplaced⟩ := hwritten.file path hpath
      have hin := hplaced.written
      exact ⟨off, by rw [haddress, hoff, Nat.mod_eq_of_lt (by omega)], hstring hplaced⟩
  · have hempty (j : ℕ) (hj : 4 + 12 * index ≤ j) (hj' : j < 4 + 12 * index + 4) :
        bytesOf (filled lines).buffer j = bytesOf [] j := by
      rw [hfilled.empty j (by omega) (by omega)]
      rfl
    rw [hptr, recPtr, wordAt_congr hempty]
    rfl

/-- The search finds the symbol unless it runs on through the slots that no listed symbol has filled. -/
theorem fnrecFind_iff (base eip : ℕ) (lines : List NmLine) (hsorted : lines.Pairwise fun a b => a.address ≤ b.address)
    (hfits : (filled lines).buffer.length ≤ 0x8000) (hfirst : ∃ line ∈ lines, Listed line ∧ line.address ≤ eip) :
    Found base lines eip ↔
      (∀ line ∈ lines, Listed line) ∨ ∃ line ∈ lines, Listed line ∧ eip < line.address := by
  have hmem (line : NmLine) : line ∈ listed lines ↔ line ∈ lines ∧ Listed line := by
    rw [listed, List.mem_filter, decide_eq_true_iff]
  obtain ⟨start, hstart, hstartListed, hstartLe⟩ := hfirst
  have hsome : listed lines ≠ [] := List.ne_nil_of_mem ((hmem start).mpr ⟨hstart, hstartListed⟩)
  obtain ⟨hcount, hrecords, hempty⟩ := loaded_records base hfits hsome
  have hsorted' : (listed lines).Pairwise fun a b => a.address ≤ b.address := hsorted.filter _
  have hle {i j : ℕ} {a b : NmLine} (ha : (listed lines)[i]? = some a) (hb : (listed lines)[j]? = some b)
    (hij : i ≤ j) :
      a.address ≤ b.address := by
    rcases Nat.eq_or_lt_of_le hij with rfl | hlt
    · rw [ha] at hb
      rw [Option.some.inj hb]
    · obtain ⟨hi, rfl⟩ := List.getElem?_eq_some_iff.mp ha
      obtain ⟨hj, rfl⟩ := List.getElem?_eq_some_iff.mp hb
      exact List.pairwise_iff_getElem.mp hsorted' i j hi hj hlt
  have hshort : (listed lines).length ≤ lines.length := List.length_filter_le _ _
  have hsearch := @fnrecFindFrom_spec 0 (loaded base lines) eip (symtableCount (loaded base lines)) (by omega)
  rw [hcount] at hsearch
  have hfind : fnrecFind (loaded base lines) eip = fnrecFindFrom (loaded base lines) eip lines.length 0 := by
    rw [fnrecFind, hcount]
  rw [← hfind] at hsearch
  unfold Found
  generalize fnrecFind (loaded base lines) eip = found at hsearch
  obtain ⟨-, hlast, hpassed, hstop⟩ := hsearch
  -- a record that the search has reached holds an address up to `eip`
  have hreached {j : ℕ} {line : NmLine} (hline : (listed lines)[j]? = some line) (hj : j ≤ found) :
      line.address ≤ eip := by
    rcases Nat.eq_zero_or_pos j with rfl | hpos
    · obtain ⟨i, hi⟩ := List.mem_iff_getElem?.mp ((hmem start).mpr ⟨hstart, hstartListed⟩)
      exact (hle hline hi (Nat.zero_le i)).trans hstartLe
    · rw [← (hrecords j line hline).ptr]
      exact hpassed j hpos hj
  constructor
  · rintro ⟨line, hline, -, -, -⟩
    have hin : found < (listed lines).length := (List.getElem?_eq_some_iff.mp hline).1
    by_cases hall : (listed lines).length = lines.length
    · left
      intro other hother
      have heq : listed lines = lines := List.filter_eq_self.mpr (by
        exact List.length_filter_eq_length_iff.mp hall)
      exact ((hmem other).mp (by rwa [heq])).2
    · right
      have hnext := hstop (by omega)
      rcases Nat.eq_or_lt_of_le (Nat.succ_le_of_lt hin) with hend | hmore
      · rw [hempty (found + 1) (by omega) (by omega)] at hnext
        exact absurd hnext (Nat.not_lt_zero eip)
      · have hother := List.getElem?_eq_getElem hmore
        rw [(hrecords _ _ hother).ptr] at hnext
        obtain ⟨hmem', hlisted⟩ := (hmem _).mp (List.getElem_mem hmore)
        exact ⟨_, hmem', hlisted, hnext⟩
  · intro hcond
    have hin : found < (listed lines).length := by
      rcases hcond with hall | ⟨other, hother, hlisted, hlt⟩
      · have heq : listed lines = lines := List.filter_eq_self.mpr fun line hline => decide_eq_true (hall line hline)
        have hpos := List.length_pos_of_ne_nil hsome
        rw [heq] at hpos ⊢
        omega
      · obtain ⟨j, hj⟩ := List.mem_iff_getElem?.mp ((hmem other).mpr ⟨hother, hlisted⟩)
        have hbound := (List.getElem?_eq_some_iff.mp hj).1
        by_contra hout
        exact absurd (hreached hj (by omega)) (by omega)
    have hline := List.getElem?_eq_getElem hin
    refine ⟨_, hline, hrecords _ _ hline, hreached hline le_rfl, fun other hother hlisted hother' => ?_⟩
    obtain ⟨j, hj⟩ := List.mem_iff_getElem?.mp ((hmem other).mpr ⟨hother, hlisted⟩)
    by_cases hbefore : j ≤ found
    · exact hle hj hline hbefore
    · have hbound := (List.getElem?_eq_some_iff.mp hj).1
      have hnext := List.getElem?_eq_getElem (show found + 1 < (listed lines).length by omega)
      have hbeyond := hstop (by omega)
      rw [(hrecords _ _ hnext).ptr] at hbeyond
      have hmono := hle hnext hj (by omega)
      omega

/-- "c0100000 T a". -/
def textLine : NmLine := ⟨0xc0100000, 84, [97], none, by decide⟩

/-- "c0200000 D d". -/
def dataLine : NmLine := ⟨0xc0200000, 68, [100], none, by decide⟩

theorem fnrecFind_iff_textLine : Found 0xc000f000 [textLine] 0xc0100010 ↔
    (∀ line ∈ [textLine], Listed line) ∨ ∃ line ∈ [textLine], Listed line ∧ 0xc0100010 < line.address :=
  fnrecFind_iff 0xc000f000 0xc0100010 [textLine] (List.pairwise_singleton _ _) (by decide)
    ⟨textLine, List.mem_singleton_self _, by decide, by decide⟩

/-- The slot of a data symbol is empty, and the search ends there. -/
theorem skipped_slot_found : textLine.address ≤ dataLine.address ∧ Listed textLine ∧ textLine.address ≤ 0xc0100010 ∧
    (filled [textLine, dataLine]).buffer.length ≤ 0x8000 ∧ ¬ Found 0xc000f000 [textLine, dataLine] 0xc0100010 := by
  refine ⟨by decide, by decide, by decide, by decide, ?_⟩
  rintro ⟨line, hline, -⟩
  have hnone :
      (listed [textLine, dataLine])[fnrecFind (loaded 0xc000f000 [textLine, dataLine]) 0xc0100010]? = none := by
    decide
  rw [hnone] at hline
  cases hline

end Eedox.SymbolLookup
