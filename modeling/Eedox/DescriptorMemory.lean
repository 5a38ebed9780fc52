import Eedox.Syscall
import Eedox.Library.ArrayHeap
import Mathlib.Order.Bounds.Basic

namespace Eedox.DescriptorMemory

open Library.Runs Library.ArrayHeap
open Descriptor hiding FdTable fdTableCreate fdTableAdd fdTableDup fdTableRem fdTableClone fdTableClose

/-- `records` is the address of the block that holds the array. -/
structure FdTable where
  records : ℕ
  cap : ℕ
  size : ℕ

section model

variable (heap : Heap Fd) (table : FdTable)

/-- What `kmalloc` answers, should it be asked: an address, and what the block there holds. -/
structure Block where
  address : ℕ
  junk : ℕ → Fd

def kmalloc (block : Block) (n : ℕ) : Option (Heap Fd) := alloc heap block.address n block.junk

def fdTableCreate (block : Block) (initialSize : ℕ) : Option (Heap Fd × FdTable) :=
  (kmalloc heap block initialSize).map fun heap => (heap, ⟨block.address, initialSize, 0⟩)

/-- The loop of `fd_table_add`, with the `n` records from `index` on still to come. -/
def slot (index : ℕ) : (n : ℕ) → Option ℕ
  | 0 => some index
  | n + 1 => (load heap table.records index).bind fun fd => if fd.isopen then slot (index + 1) n else some index

def grow (block : Block) : Option (Heap Fd × FdTable) :=
  if table.cap = table.size then
    let cap := table.cap * 2
    (kmalloc heap block cap).bind fun heap =>
      (copy heap block.address table.records table.size).map fun heap =>
        (free heap table.records, ⟨block.address, cap, table.size⟩)
  else some (heap, table)

def fdTableAdd (block : Block) (fd : Fd) : Option (Heap Fd × FdTable × ℕ) :=
  (slot heap table 0 table.size).bind fun index =>
    (if index = table.size then
      (grow heap table block).map fun (heap, table) => (heap, { table with size := table.size + 1 })
    else some (heap, table)).bind fun (heap, table) =>
      (store heap table.records index { fd with isopen := true }).map fun heap => (heap, table, index)

/-- The index -1 when there is no such record. -/
def fdTableDup (o : Objects) (block : Block) (index : ℕ) : Option (Objects × Heap Fd × FdTable × ℤ) :=
  if index ≥ table.size then some (o, heap, table, -1)
  else
    (load heap table.records index).bind fun fd =>
      (fdTableAdd heap table block fd).map fun (heap, table, added) =>
        (fdTableCloneEntry o fd, heap, table, added)

def fdTableRem (index : ℕ) : Option (Heap Fd) :=
  (load heap table.records index).bind fun fd => store heap table.records index { fd with isopen := false }

/-- One turn of the loop of `fd_table_clone`. -/
def cloneRecord (new : ℕ) (s : Objects × Heap Fd) (i : ℕ) : Option (Objects × Heap Fd) :=
  (load s.2 table.records i).bind fun fd =>
    if fd.isopen then (store s.2 new i fd).map fun heap => (fdTableCloneEntry s.1 fd, heap)
    else
      (load s.2 new i).bind fun old =>
        (store s.2 new i { old with isopen := false }).map fun heap => (s.1, heap)

def fdTableClone (o : Objects) (block : Block) : Option (Objects × Heap Fd × FdTable) :=
  (kmalloc heap block table.cap).bind fun heap =>
    ((List.range table.size).foldlM (cloneRecord table block.address) (o, heap)).map fun (o, heap) =>
      (o, heap, ⟨block.address, table.cap, table.size⟩)

def fdTableClose (o : Objects) (fdId : ℕ) : Option (Objects × Heap Fd) :=
  if fdId ≥ table.size then some (o, heap)
  else
    (load heap table.records fdId).bind fun fd =>
      if !fd.isopen then some (o, heap)
      else (fdTableRem heap table fdId).map fun heap => (closeTarget o fd, heap)

end model

/-- The tables of all tasks, with the answer of the last call. -/
structure System where
  heap : Heap Fd
  objects : Objects
  tables : List FdTable
  answer : ℤ

inductive Call
  | add (fd : Fd)
  | dup (index : ℕ)
  | close (fdId : ℕ)
  | clone

/-- A call on the table of the task `t`. -/
structure Action where
  t : ℕ
  call : Call
  block : Block

def perform (s : System) (table : FdTable) (a : Action) : Option System :=
  match a.call with
  | .add fd => (fdTableAdd s.heap table a.block fd).map fun (heap, table, index) =>
    { s with heap := heap, tables := s.tables.set a.t table, answer := index }
  | .dup index => (fdTableDup s.heap table s.objects a.block index).map fun (o, heap, table, added) =>
    ⟨heap, o, s.tables.set a.t table, added⟩
  | .close fdId => (fdTableClose s.heap table s.objects fdId).map fun (o, heap) =>
    { s with heap := heap, objects := o }
  | .clone => (fdTableClone s.heap table s.objects a.block).map fun (o, heap, new) =>
    { s with heap := heap, objects := o, tables := s.tables ++ [new] }

def boot (objects : Objects) (cells : ℕ → ℕ → Fd) (block : Block) (initialSize : ℕ) : Option System :=
  (fdTableCreate (empty cells) block initialSize).map fun (heap, table) => ⟨heap, objects, [table], 0⟩

/-- What a table says: the open descriptors by their indices. -/
abbrev View := ℕ → Option Fd

def viewOf (cells : ℕ → Fd) (size : ℕ) : View := fun i =>
  if i < size ∧ (cells i).isopen = true then some (cells i) else none

def view (heap : Heap Fd) (table : FdTable) : View := viewOf (heap.cell table.records) table.size

def views (s : System) : List View := s.tables.map (view s.heap)

/-- `kmalloc` answers with a block that is not in use, and what is duplicated is open. -/
def allowed (s : System) (table : FdTable) (a : Action) : Bool :=
  decide (a.block.address ∉ s.heap.live) &&
    match a.call with
    | .dup index => (view s.heap table index).isSome
    | _ => true

def step (s : System) (a : Action) : Option System :=
  s.tables[a.t]?.bind fun table => if allowed s table a then perform s table a else none

/-- A call on the views of all tables: an entry is added at the least free index of its table, nothing
else changes, and a clone is one more view. -/
inductive Follows (vs : List View) (t : ℕ) (v : View) : Call → List View → ℤ → Prop
  | add (fd : Fd) (index : ℕ) (least : IsLeast {i | v i = none} index) :
    Follows vs t v (.add fd) (vs.set t (Function.update v index (some { fd with isopen := true }))) index
  | dup (index : ℕ) (fd : Fd) (added : ℕ) (found : v index = some fd) (least : IsLeast {i | v i = none} added) :
    Follows vs t v (.dup index) (vs.set t (Function.update v added (some fd))) added
  | close (fdId : ℕ) (answer : ℤ) : Follows vs t v (.close fdId) (vs.set t (Function.update v fdId none)) answer
  | clone (answer : ℤ) : Follows vs t v .clone (vs ++ [v]) answer

/-- The table has its block. -/
structure Owned (heap : Heap Fd) (table : FdTable) : Prop where
  live : table.records ∈ heap.live
  room : heap.room table.records = table.cap
  fits : table.size ≤ table.cap
  positive : 0 < table.cap

structure Inv (s : System) : Prop where
  owned : ∀ table ∈ s.tables, Owned s.heap table
  separate : ∀ (i j : ℕ) (a b : FdTable), s.tables[i]? = some a → s.tables[j]? = some b → a.records = b.records → i = j

variable {heap : Heap Fd} {table : FdTable} {block : Block} {s : System}

theorem view_eq_none {i : ℕ} : view heap table i = none ↔
    table.size ≤ i ∨ (heap.cell table.records i).isopen = false := by
  unfold view viewOf
  split_ifs with h
  · simp [h.1, h.2]
  · simp only [true_iff]
    by_cases hi : i < table.size
    · exact Or.inr (by simpa [hi] using h)
    · exact Or.inl (by omega)

/-- From an index below which all records are open, the loop stops at the least free one. -/
theorem slot_least (h : Owned heap table) {index n : ℕ} (hn : index + n = table.size)
    (hbelow : ∀ j < index, view heap table j ≠ none) :
    ∃ i, slot heap table index n = some i ∧ i ≤ table.size ∧ IsLeast {i | view heap table i = none} i := by
  induction n generalizing index with
  | zero =>
    refine ⟨index, rfl, by omega, view_eq_none.mpr (Or.inl (by omega)), fun j hj => ?_⟩
    by_contra hlt
    exact hbelow j (by omega) hj
  | succ n ih =>
    have hfits := h.fits
    rw [slot, load_live h.live (by rw [h.room]; omega), Option.bind_some]
    by_cases hopen : (heap.cell table.records index).isopen = true
    · rw [if_pos hopen]
      apply ih (by omega)
      intro j hj
      by_cases hjs : j = index
      · rw [hjs, Ne, view_eq_none, not_or]
        exact ⟨by omega, by simpa using hopen⟩
      · exact hbelow j (by omega)
    · rw [if_neg hopen]
      refine ⟨index, rfl, by omega, view_eq_none.mpr (Or.inr (by simpa using hopen)), fun j hj => ?_⟩
      by_contra hlt
      exact hbelow j (by omega) hj

/-- A table with room for one more record, which says the same, at the old place or at a new one. -/
theorem grow_owned (h : Owned heap table) (hb : block.address ∉ heap.live) :
    ∃ heap' table', grow heap table block = some (heap', table') ∧ Owned heap' table' ∧
      Frame heap heap' table.records ∧ table'.size = table.size ∧ table'.size < table'.cap ∧
      view heap' table' = view heap table ∧
      (table'.records = table.records ∨ table'.records ∉ heap.live) := by
  have hfits := h.fits
  have hpos := h.positive
  have hroom := h.room
  unfold grow
  by_cases hfull : table.cap = table.size
  · obtain ⟨h1, halloc, hframe1, hlive1, hroom1, -⟩ := alloc_fresh hb (table.cap * 2) block.junk
    obtain ⟨hlive, hcell, hold⟩ := hframe1 table.records h.live fun he => hb (he ▸ h.live)
    obtain ⟨h2, hcopy, hframe2, hlive2, hroom2, hcell2⟩ := copy_live hlive1
      (show table.size ≤ h1.room block.address by omega) hlive (show table.size ≤ h1.room table.records by omega)
    have hne : block.address ≠ table.records := fun he => hb (he ▸ h.live)
    refine ⟨free h2 table.records, ⟨block.address, table.cap * 2, table.size⟩, ?_, ?_, ?_, rfl, ?_, ?_,
      Or.inr hb⟩
    · rw [if_pos hfull]
      simp only [kmalloc, halloc, Option.bind_some, hcopy, Option.map_some]
    · refine ⟨List.mem_filter.mpr ⟨hlive2 ▸ hlive1, decide_eq_true hne⟩, ?_, ?_, ?_⟩
      · simp only [free, hroom2, hroom1]
      · simp only
        omega
      · simp only
        omega
    · exact ((hframe1.trans hframe2).absent hb _).trans (free_frame _ _)
    · simp only
      omega
    · funext i
      simp only [view, viewOf, free, hcell2]
      by_cases hi : i < table.size
      · simp only [hi, if_true, hcell]
      · simp only [hi, false_and, if_false]
  · rw [if_neg hfull]
    exact ⟨heap, table, rfl, h, Frame.refl _ _, rfl, by omega, rfl, Or.inl rfl⟩

theorem viewOf_update {cells : ℕ → Fd} {size i : ℕ} (hi : i < size) (fd : Fd) :
    viewOf (Function.update cells i fd) size =
      Function.update (viewOf cells size) i (if fd.isopen then some fd else none) := by
  funext j
  by_cases hj : j = i
  · subst hj
    simp [viewOf, hi]
  · simp [viewOf, hj]

theorem viewOf_size (cells : ℕ → Fd) (size : ℕ) (fd : Fd) :
    viewOf (Function.update cells size fd) (size + 1) =
      Function.update (viewOf cells size) size (if fd.isopen then some fd else none) := by
  funext j
  by_cases hj : j = size
  · subst hj
    simp [viewOf]
  · have hlt : j < size + 1 ↔ j < size := by omega
    simp [viewOf, hj, hlt]

theorem Owned.of_store {heap' : Heap Fd} (h : Owned heap table) (hlive : table.records ∈ heap'.live)
    (hroom : heap'.room table.records = heap.room table.records) : Owned heap' table :=
  ⟨hlive, hroom.trans h.room, h.fits, h.positive⟩

/-- The entry goes to the least free index, and the table says the same about all other ones. -/
theorem fdTableAdd_spec (h : Owned heap table) (hb : block.address ∉ heap.live) (fd : Fd) :
    ∃ heap' table' i, fdTableAdd heap table block fd = some (heap', table', i) ∧ Owned heap' table' ∧
      Frame heap heap' table.records ∧
      (table'.records = table.records ∨ table'.records ∉ heap.live) ∧
      IsLeast {i | view heap table i = none} i ∧
      view heap' table' = Function.update (view heap table) i (some { fd with isopen := true }) := by
  obtain ⟨i, hslot, hi, hleast⟩ := @slot_least heap table h 0 table.size (by omega) fun j hj => by omega
  unfold fdTableAdd
  rw [hslot, Option.bind_some]
  by_cases hend : i = table.size
  · obtain ⟨h1, t1, hgrow, hown, hframe, hsize, hlt, hview, hplace⟩ := grow_owned h hb
    obtain ⟨h2, hstore, hframe2, hlive, hroom, hcell⟩ :=
      store_live hown.live (show i < h1.room t1.records by rw [hown.room]; omega) { fd with isopen := true }
    have hframe' : Frame heap h2 table.records := by
      rcases hplace with hsame | hfresh
      · rw [hsame] at hframe2
        exact hframe.trans hframe2
      · intro q hq hne
        obtain ⟨hq1, hc1, hr1⟩ := hframe q hq hne
        obtain ⟨hq2, hc2, hr2⟩ := hframe2 q hq1 fun he => hfresh (he ▸ hq)
        exact ⟨hq2, hc2.trans hc1, hr2.trans hr1⟩
    refine ⟨h2, { t1 with size := t1.size + 1 }, i, ?_, ?_, hframe', hplace, hleast, ?_⟩
    · rw [if_pos hend, hgrow]
      simp only [Option.map_some, Option.bind_some, hstore]
    · exact ⟨hlive, hroom.trans hown.room, hlt, hown.positive⟩
    · rw [← hview]
      simp only [view, hcell, hend, ← hsize]
      exact viewOf_size _ _ { fd with isopen := true }
  · have hfits := h.fits
    obtain ⟨h2, hstore, hframe2, hlive, hroom, hcell⟩ :=
      store_live h.live (show i < heap.room table.records by rw [h.room]; omega) { fd with isopen := true }
    refine ⟨h2, table, i, ?_, h.of_store hlive hroom, hframe2, Or.inl rfl, hleast, ?_⟩
    · rw [if_neg hend]
      simp only [Option.bind_some, hstore, Option.map_some]
    · simp only [view, hcell]
      rw [viewOf_update (by omega), if_pos rfl]

theorem fdTableClose_spec (h : Owned heap table) (o : Objects) (fdId : ℕ) :
    ∃ o' heap', fdTableClose heap table o fdId = some (o', heap') ∧ Owned heap' table ∧
      Frame heap heap' table.records ∧ view heap' table = Function.update (view heap table) fdId none := by
  have hfits := h.fits
  have hsame (hnone : view heap table fdId = none) :
      view heap table = Function.update (view heap table) fdId none := by
    rw [← hnone, Function.update_eq_self]
  unfold fdTableClose
  by_cases hid : fdId ≥ table.size
  · rw [if_pos hid]
    exact ⟨o, heap, rfl, h, Frame.refl _ _, hsame (view_eq_none.mpr (Or.inl hid))⟩
  · have hroom : fdId < heap.room table.records := by
      rw [h.room]
      omega
    rw [if_neg hid, load_live h.live hroom, Option.bind_some]
    by_cases hopen : (heap.cell table.records fdId).isopen = true
    · obtain ⟨h2, hstore, hframe2, hlive, hroom2, hcell⟩ :=
        store_live h.live hroom { heap.cell table.records fdId with isopen := false }
      refine ⟨closeTarget o (heap.cell table.records fdId), h2, ?_, h.of_store hlive hroom2, hframe2, ?_⟩
      · rw [if_neg (by simp [hopen]), fdTableRem, load_live h.live hroom, Option.bind_some, hstore,
          Option.map_some]
      · simp only [view, hcell]
        rw [viewOf_update (by omega), if_neg Bool.false_ne_true]
    · rw [if_pos (by simpa using hopen)]
      exact ⟨o, heap, rfl, h, Frame.refl _ _, hsame (view_eq_none.mpr (Or.inr (by simpa using hopen)))⟩

theorem viewOf_succ (cells : ℕ → Fd) (size : ℕ) : viewOf cells (size + 1) =
    Function.update (viewOf cells size) size (if (cells size).isopen then some (cells size) else none) := by
  rw [← viewOf_size, Function.update_eq_self]

/-- What the loop has copied says the same as the records it has read. -/
theorem cloneRecords_spec {new n : ℕ} (o : Objects) (hnew : new ∈ heap.live)
    (hlive : table.records ∈ heap.live) (hne : new ≠ table.records) (hn : n ≤ heap.room new)
    (hn' : n ≤ heap.room table.records) :
    ∃ o' heap', (List.range n).foldlM (cloneRecord table new) (o, heap) = some (o', heap') ∧
      Frame heap heap' new ∧ new ∈ heap'.live ∧ heap'.room new = heap.room new ∧
      viewOf (heap'.cell new) n = viewOf (heap.cell table.records) n := by
  induction n with
  | zero => exact ⟨o, heap, rfl, Frame.refl _ _, hnew, rfl, funext fun i => by simp [viewOf]⟩
  | succ n ih =>
    obtain ⟨o1, h1, hloop, hframe, hnew1, hroom1, hview⟩ := ih (by omega) (by omega)
    obtain ⟨hlive1, hcell1, hroom1'⟩ := hframe table.records hlive hne.symm
    have hin : n < h1.room new := by omega
    have hload : load h1 table.records n = some (heap.cell table.records n) := by
      rw [load_live hlive1 (by omega), hcell1]
    rw [List.range_succ, List.foldlM_append, hloop]
    by_cases hopen : (heap.cell table.records n).isopen = true
    · obtain ⟨h2, hstore, hframe2, hnew2, hroom2, hcell2⟩ := store_live hnew1 hin (heap.cell table.records n)
      refine ⟨fdTableCloneEntry o1 (heap.cell table.records n), h2, ?_, hframe.trans hframe2, hnew2,
        hroom2.trans hroom1, ?_⟩
      · simp only [Option.bind_eq_bind, Option.bind_some, List.foldlM_cons, List.foldlM_nil, cloneRecord,
          hload, hopen, if_true, hstore, Option.map_some]
        rfl
      · rw [hcell2, viewOf_size, hview, viewOf_succ]
    · obtain ⟨h2, hstore, hframe2, hnew2, hroom2, hcell2⟩ :=
        store_live hnew1 hin { h1.cell new n with isopen := false }
      refine ⟨o1, h2, ?_, hframe.trans hframe2, hnew2, hroom2.trans hroom1, ?_⟩
      · simp only [Option.bind_eq_bind, Option.bind_some, List.foldlM_cons, List.foldlM_nil, cloneRecord,
          hload, hopen, load_live hnew1 hin, hstore, Option.map_some]
        rfl
      · rw [hcell2, viewOf_size, hview, viewOf_succ, if_neg hopen, if_neg Bool.false_ne_true]

theorem fdTableClone_spec (h : Owned heap table) (hb : block.address ∉ heap.live) (o : Objects) :
    ∃ o' heap' new, fdTableClone heap table o block = some (o', heap', new) ∧ Owned heap' new ∧
      Owned heap' table ∧ Frame heap heap' block.address ∧ new.records = block.address ∧
      view heap' new = view heap table := by
  obtain ⟨h1, halloc, hframe1, hlive1, hroom1, -⟩ := alloc_fresh hb table.cap block.junk
  have hne : block.address ≠ table.records := fun he => hb (he ▸ h.live)
  obtain ⟨hlive, hcell, hold⟩ := hframe1 table.records h.live hne.symm
  have hfits := h.fits
  have hroom := h.room
  obtain ⟨o2, h2, hloop, hframe2, hlive2, hroom2, hview⟩ := @cloneRecords_spec h1 table block.address table.size o
    hlive1 hlive hne (by omega) (by omega)
  have hframe := hframe1.trans hframe2
  obtain ⟨hlive', -, hroom'⟩ := hframe table.records h.live hne.symm
  refine ⟨o2, h2, ⟨block.address, table.cap, table.size⟩, ?_, ⟨hlive2, hroom2.trans hroom1, hfits, h.positive⟩,
    h.of_store hlive' hroom', hframe, rfl, ?_⟩
  · simp only [fdTableClone, kmalloc, halloc, Option.bind_some, hloop, Option.map_some]
  · simp only [view]
    rw [hview, hcell]

/-- The other tables keep their blocks. -/
theorem Owned.of_frame {heap' : Heap Fd} {other : FdTable} {p : ℕ} (h : Owned heap other)
    (hframe : Frame heap heap' p) (hne : other.records ≠ p) :
    Owned heap' other ∧ view heap' other = view heap other := by
  obtain ⟨hlive, hcell, hroom⟩ := hframe other.records h.live hne
  exact ⟨h.of_store hlive hroom, by rw [view, hcell, view]⟩

/-- One table is changed, within its block or with a new one. -/
theorem inv_set {heap' : Heap Fd} {t : ℕ} {table' : FdTable} (h : Inv s) (ht : s.tables[t]? = some table)
    (hown : Owned heap' table') (hframe : Frame s.heap heap' table.records)
    (hplace : table'.records = table.records ∨ table'.records ∉ s.heap.live) (o : Objects) (answer : ℤ) :
    Inv ⟨heap', o, s.tables.set t table', answer⟩ ∧
      views ⟨heap', o, s.tables.set t table', answer⟩ = (views s).set t (view heap' table') := by
  have hlt := (List.getElem?_eq_some_iff.mp ht).1
  have hother : ∀ j other, s.tables[j]? = some other → j ≠ t → other.records ≠ table.records :=
    fun j other hj hjt he => hjt (h.separate j t other table hj ht he)
  have hkept : ∀ j other, s.tables[j]? = some other → j ≠ t →
      Owned heap' other ∧ view heap' other = view s.heap other := by
    intro j other hj hjt
    exact (h.owned other (List.mem_of_getElem? hj)).of_frame hframe (hother j other hj hjt)
  refine ⟨⟨?_, ?_⟩, ?_⟩
  · intro other hother'
    obtain ⟨j, hj⟩ := List.mem_iff_getElem?.mp hother'
    by_cases hjt : j = t
    · rw [hjt, List.getElem?_set_self hlt] at hj
      exact Option.some.inj hj ▸ hown
    · rw [List.getElem?_set_ne (Ne.symm hjt)] at hj
      exact (hkept j other hj hjt).1
  · have hnew : ∀ j other, s.tables[j]? = some other → j ≠ t → other.records ≠ table'.records := by
      intro j other hj hjt he
      rcases hplace with hsame | hfresh
      · exact hother j other hj hjt (he.trans hsame)
      · exact hfresh (he ▸ (h.owned other (List.mem_of_getElem? hj)).live)
    intro i j a b hi hj hab
    by_cases hit : i = t
    · by_cases hjt : j = t
      · exact hit.trans hjt.symm
      · rw [hit, List.getElem?_set_self hlt] at hi
        rw [List.getElem?_set_ne (Ne.symm hjt)] at hj
        exact absurd (hab.symm.trans (congrArg _ (Option.some.inj hi).symm)) (hnew j b hj hjt)
    · rw [List.getElem?_set_ne (Ne.symm hit)] at hi
      by_cases hjt : j = t
      · rw [hjt, List.getElem?_set_self hlt] at hj
        exact absurd (hab.trans (congrArg _ (Option.some.inj hj).symm)) (hnew i a hi hit)
      · rw [List.getElem?_set_ne (Ne.symm hjt)] at hj
        exact h.separate i j a b hi hj hab
  · apply List.ext_getElem?
    intro j
    simp only [views, List.getElem?_map, List.getElem?_set, List.length_map]
    by_cases hjt : t = j
    · subst hjt
      simp [hlt]
    · rw [if_neg hjt, if_neg hjt]
      cases hj : s.tables[j]? with
      | none => rfl
      | some other => simp [(hkept j other hj (Ne.symm hjt)).2]

/-- A new table in a new block is one more view. -/
theorem inv_append {heap' : Heap Fd} {new : FdTable} {p : ℕ} (h : Inv s) (hp : p ∉ s.heap.live)
    (hown : Owned heap' new) (hframe : Frame s.heap heap' p) (hnew : new.records = p) (o : Objects)
    (answer : ℤ) : Inv ⟨heap', o, s.tables ++ [new], answer⟩ ∧
      views ⟨heap', o, s.tables ++ [new], answer⟩ = views s ++ [view heap' new] := by
  have hfresh : ∀ other ∈ s.tables, other.records ≠ p := fun other hm he => hp (he ▸ (h.owned other hm).live)
  have hkept : ∀ other ∈ s.tables, Owned heap' other ∧ view heap' other = view s.heap other :=
    fun other hm => (h.owned other hm).of_frame hframe (hfresh other hm)
  refine ⟨⟨?_, ?_⟩, ?_⟩
  · intro other hm
    rcases List.mem_append.mp hm with hm | hm
    · exact (hkept other hm).1
    · exact List.mem_singleton.mp hm ▸ hown
  · have hsplit : ∀ i a, (s.tables ++ [new])[i]? = some a →
        s.tables[i]? = some a ∨ i = s.tables.length ∧ a = new := by
      intro i a hi
      rcases Nat.lt_trichotomy i s.tables.length with hlt | heq | hgt
      · rw [List.getElem?_append_left hlt] at hi
        exact Or.inl hi
      · rw [heq, List.getElem?_concat_length] at hi
        exact Or.inr ⟨heq, (Option.some.inj hi).symm⟩
      · rw [List.getElem?_eq_none (by rw [List.length_append, List.length_singleton]; omega)] at hi
        cases hi
    intro i j a b hi hj hab
    rcases hsplit i a hi with hia | ⟨hia, rfl⟩
    · rcases hsplit j b hj with hjb | ⟨hjb, rfl⟩
      · exact h.separate i j a b hia hjb hab
      · exact absurd (hab.trans hnew) (hfresh a (List.mem_of_getElem? hia))
    · rcases hsplit j b hj with hjb | ⟨hjb, rfl⟩
      · exact absurd (hab.symm.trans hnew) (hfresh b (List.mem_of_getElem? hjb))
      · exact hia.trans hjb.symm
  · rw [views, List.map_append, views, List.map_singleton]
    congr 1
    exact List.map_congr_left fun other hm => (hkept other hm).2

theorem perform_spec {a : Action} (h : Inv s) (ht : s.tables[a.t]? = some table)
    (hallowed : allowed s table a = true) : ∃ s', perform s table a = some s' ∧ Inv s' ∧
      Follows (views s) a.t (view s.heap table) a.call (views s') s'.answer := by
  have hown := h.owned table (List.mem_of_getElem? ht)
  rw [allowed, Bool.and_eq_true, decide_eq_true_eq] at hallowed
  obtain ⟨hb, hfound⟩ := hallowed
  unfold perform
  cases hcall : a.call with
  | add fd =>
    obtain ⟨heap', table', i, hadd, hown', hframe, hplace, hleast, hview⟩ := fdTableAdd_spec hown hb fd
    obtain ⟨hinv, hviews⟩ := inv_set h ht hown' hframe hplace s.objects i
    simp only [hadd, Option.map_some]
    refine ⟨_, rfl, hinv, ?_⟩
    rw [hviews, hview]
    exact .add fd i hleast
  | dup index =>
    rw [hcall] at hfound
    obtain ⟨fd, hfd⟩ := Option.isSome_iff_exists.mp hfound
    obtain ⟨hlt, hopen, hcell⟩ : index < table.size ∧ fd.isopen = true ∧
        s.heap.cell table.records index = fd := by
      rw [view, viewOf] at hfd
      split_ifs at hfd with hin
      obtain rfl := Option.some.inj hfd
      exact ⟨hin.1, hin.2, rfl⟩
    have hfits := hown.fits
    have hload : load s.heap table.records index = some fd := by
      rw [load_live hown.live (by rw [hown.room]; omega), hcell]
    obtain ⟨heap', table', i, hadd, hown', hframe, hplace, hleast, hview⟩ := fdTableAdd_spec hown hb fd
    obtain ⟨hinv, hviews⟩ := inv_set h ht hown' hframe hplace (fdTableCloneEntry s.objects fd) i
    simp only [fdTableDup, if_neg (not_le.mpr hlt), hload, Option.bind_some, hadd, Option.map_some]
    refine ⟨_, rfl, hinv, ?_⟩
    have hfd' : { fd with isopen := true } = fd := by rw [← hopen]
    rw [hviews, hview, hfd']
    exact .dup index fd i hfd hleast
  | close fdId =>
    obtain ⟨o', heap', hclose, hown', hframe, hview⟩ := fdTableClose_spec hown s.objects fdId
    obtain ⟨hinv, hviews⟩ := inv_set h ht hown' hframe (Or.inl rfl) o' s.answer
    have hlt := (List.getElem?_eq_some_iff.mp ht).1
    have hself : s.tables.set a.t table = s.tables := by
      rw [← (List.getElem?_eq_some_iff.mp ht).2, List.set_getElem_self hlt]
    rw [hself] at hinv hviews
    simp only [hclose, Option.map_some]
    refine ⟨_, rfl, hinv, ?_⟩
    rw [hviews, hview]
    exact .close fdId s.answer
  | clone =>
    obtain ⟨o', heap', new, hclone, hnew, -, hframe, hplace, hview⟩ := fdTableClone_spec hown hb s.objects
    obtain ⟨hinv, hviews⟩ := inv_append h hb hnew hframe hplace o' s.answer
    simp only [hclone, Option.map_some]
    refine ⟨_, rfl, hinv, ?_⟩
    rw [hviews, hview]
    exact .clone s.answer

theorem inv_step {a : Action} {s' : System} (h : Inv s) (hs : step s a = some s') : Inv s' := by
  obtain ⟨table, ht, hs⟩ := Option.bind_eq_some_iff.mp hs
  split_ifs at hs with hallowed
  obtain ⟨t, hperform, hinv, -⟩ := perform_spec h ht hallowed
  exact Option.some.inj (hperform.symm.trans hs) ▸ hinv

theorem inv_boot {initialSize : ℕ} (hsize : 1 ≤ initialSize) (objects : Objects) (cells : ℕ → ℕ → Fd)
    (block : Block) : ∃ s, boot objects cells block initialSize = some s ∧ Inv s ∧ views s = [fun _ => none] := by
  obtain ⟨heap, halloc, -, hlive, hroom, -⟩ :=
    @alloc_fresh _ (empty cells) block.address List.not_mem_nil initialSize block.junk
  refine ⟨⟨heap, objects, [⟨block.address, initialSize, 0⟩], 0⟩, ?_, ⟨?_, ?_⟩, ?_⟩
  · rw [boot, fdTableCreate, kmalloc, halloc, Option.map_some, Option.map_some]
  · intro table htable
    rw [List.mem_singleton.mp htable]
    exact ⟨hlive, hroom, Nat.zero_le _, hsize⟩
  · intro i j a b hi hj _
    have hi' := (List.getElem?_eq_some_iff.mp hi).1
    have hj' := (List.getElem?_eq_some_iff.mp hj).1
    simp only [List.length_singleton] at hi' hj'
    omega
  · rw [views, List.map_singleton, view]
    exact congrArg (fun v => [v]) (funext fun i => if_neg (by simp))

/-- In every run of calls on a table and its clones, no table outgrows its block, and every call that is
allowed does to the open descriptors just what it is for. -/
theorem refines_views {initialSize : ℕ} (hsize : 1 ≤ initialSize) (objects : Objects)
    (cells : ℕ → ℕ → Fd) (block : Block) : ∃ s₀, boot objects cells block initialSize = some s₀ ∧
      views s₀ = [fun _ => none] ∧ ∀ run s, exec step s₀ run = some s →
        (∀ table ∈ s.tables, table.size ≤ table.cap) ∧
        ∀ a table, s.tables[a.t]? = some table → allowed s table a = true →
          ∃ s', step s a = some s' ∧ Follows (views s) a.t (view s.heap table) a.call (views s') s'.answer := by
  obtain ⟨s₀, hboot, hinv, hviews⟩ := inv_boot hsize objects cells block
  refine ⟨s₀, hboot, hviews, fun run s hrun => ?_⟩
  have hs := exec_invariant (fun _ _ _ h _ ht => inv_step h ht) hinv (meets_true s₀ run) hrun
  refine ⟨fun table htable => (hs.owned table htable).fits, fun a table ht hallowed => ?_⟩
  obtain ⟨s', hperform, -, hfollows⟩ := perform_spec hs ht hallowed
  refine ⟨s', ?_, hfollows⟩
  rw [step, ht, Option.bind_some, if_pos hallowed, hperform]

def blankFd : Fd := ⟨.stdin, 0, true, 7⟩

def blankBlock (address : ℕ) : Block := ⟨address, fun _ => blankFd⟩

/-- The table of the first task: room for two records, and then two descriptors. -/
theorem refines_views_two : 1 ≤ 2 ∧
    ∃ s₀, boot Syscall.blankObjects (fun _ _ => blankFd) (blankBlock 16) 2 = some s₀ ∧ views s₀ = [fun _ => none] ∧
      ∀ run s, exec step s₀ run = some s → ∀ table ∈ s.tables, table.size ≤ table.cap := by
  obtain ⟨s₀, hboot, hviews, hruns⟩ :=
    refines_views (by decide : 1 ≤ 2) Syscall.blankObjects (fun _ _ => blankFd) (blankBlock 16)
  exact ⟨by decide, s₀, hboot, hviews, fun run s hrun => (hruns run s hrun).1⟩

end Eedox.DescriptorMemory
