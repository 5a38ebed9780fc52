import Mathlib.Data.Finset.Card
import Mathlib.Data.Finset.Range
import Eedox.Library.Cells
import Eedox.Library.Refinement
import Eedox.Library.Words

namespace Eedox.Kqueue

open Library.Assoc Library.Cells Library.Runs Library.Words

abbrev KqueueEle := Cell UInt32

structure KqueueT where
  head : ℕ
  tail : ℕ
  size : ℕ

def kqueueNew : KqueueT := ⟨0, 0, 0⟩

abbrev Mem := Heap UInt32

/-- A pointer to no cell in use is not taken back: the kernel stops with DOUBLE FREE. -/
def heapFree (heap : Mem) (ptr : ℕ) : Option Mem := if ptr = 0 then some heap else heap.free ptr

def setValue (heap : Mem) (ele : ℕ) (value : UInt32) : Option Mem :=
  (heap.load ele).bind fun c => heap.store ele { c with value := value }

def setNext (heap : Mem) (ele next : ℕ) : Option Mem :=
  (heap.load ele).bind fun c => heap.store ele { c with next := next }

section model

-- What a new cell holds.
variable (junk : ℕ → KqueueEle)

/-- `ele` is the address that `heap_alloc` returns. -/
def kqueuePush (heap : Mem) (queue : KqueueT) (value : UInt32) (ele : ℕ) : Option (Mem × KqueueT) :=
  let heap := heap.alloc ele (junk ele)
  (setValue heap ele value).bind fun heap =>
    (setNext heap ele 0).bind fun heap =>
      (if queue.size ≠ 0 then (setNext heap queue.tail ele).map fun heap => (heap, queue)
        else some (heap, { queue with head := ele })).map fun (heap, queue) =>
        (heap, { queue with tail := ele, size := add32 queue.size 1 })

def kqueuePop (heap : Mem) (queue : KqueueT) : Option (Mem × KqueueT × UInt32) :=
  (heap.load queue.head).bind fun ele =>
    (heapFree heap queue.head).map fun heap =>
      (heap, ⟨ele.next, if ele.next = 0 then 0 else queue.tail, sub32 queue.size 1⟩, ele.value)

def kqueuePeek (heap : Mem) (queue : KqueueT) : Option UInt32 := (heap.load queue.head).map Cell.value

/-- The loop of `kqueue_clear`: what it calls `next` is the cell itself. -/
def clearFrom (heap : Mem) (ele : ℕ) : Option Mem :=
  if ele ≠ 0 then
    let next := ele
    match _hfree : heapFree heap ele with
    | none => none
    | some heap => clearFrom heap next
  else some heap
termination_by heap.cells.length
decreasing_by
  have hele : ele ≠ 0 := by assumption
  rw [heapFree, if_neg hele] at _hfree
  exact Heap.length_free _hfree

def kqueueClear (heap : Mem) (queue : KqueueT) : Option (Mem × KqueueT) :=
  (clearFrom heap queue.head).map fun heap => (heap, ⟨0, 0, 0⟩)

structure State where
  heap : Mem
  queue : KqueueT
  /-- What the calls have returned so far. -/
  out : List UInt32

def start : State := ⟨⟨[], [], []⟩, kqueueNew, []⟩

inductive Op
  | push (value : UInt32) (ele : ℕ)
  | pop
  | peek
  | clear

def step (s : State) : Op → Option State
  | .push value ele => (kqueuePush junk s.heap s.queue value ele).map fun (heap, queue) => ⟨heap, queue, s.out⟩
  | .pop => (kqueuePop s.heap s.queue).map fun (heap, queue, value) => ⟨heap, queue, s.out ++ [value]⟩
  | .peek => (kqueuePeek s.heap s.queue).map fun value => { s with out := s.out ++ [value] }
  | .clear => (kqueueClear s.heap s.queue).map fun (heap, queue) => ⟨heap, queue, s.out⟩

end model

/-- The address of a new cell is that of no cell in use, and there is something to pop and to look at. -/
def Permitted (s : State) : Op → Prop
  | .push _ ele => ele ≠ 0 ∧ ele < 2 ^ 32 ∧ ele ∉ keys s.heap.cells
  | .pop => s.queue.size ≠ 0
  | .peek => s.queue.size ≠ 0
  | .clear => True

instance (s : State) : (op : Op) → Decidable (Permitted s op)
  | .push _ _ => inferInstanceAs (Decidable (_ ∧ _ ∧ _))
  | .pop => inferInstanceAs (Decidable (_ ≠ _))
  | .peek => inferInstanceAs (Decidable (_ ≠ _))
  | .clear => inferInstanceAs (Decidable True)

/-- The queue is cleared only when it is empty. -/
def ClearsEmpty (s : State) : Op → Prop
  | .clear => s.queue.size = 0
  | _ => True

structure Fifo where
  values : List UInt32
  out : List UInt32

def Fifo.step (q : Fifo) : Op → Fifo
  | .push value _ => { q with values := q.values ++ [value] }
  | .pop => ⟨q.values.tail, q.out ++ q.values.head?.toList⟩
  | .peek => { q with out := q.out ++ q.values.head?.toList }
  | .clear => { q with values := [] }

def fifo (ops : List Op) : Fifo := ops.foldl Fifo.step ⟨[], []⟩

/-- The chain holds these cells, which are all that are in use. -/
structure Holds (heap : Mem) (queue : KqueueT) (l : List (ℕ × UInt32)) : Prop where
  linked : Linked heap.load queue.head l
  size : queue.size = l.length
  tail : queue.tail = (keys l).getLast?.getD 0
  nodup : (keys l).Nodup
  live : ∀ a, a ∈ keys heap.cells ↔ a ∈ keys l
  word : ∀ a ∈ keys l, a < 2 ^ 32
  balanced : heap.Balanced

section steps

variable {heap : Mem} {queue : KqueueT} {l : List (ℕ × UInt32)} {ele p : ℕ} {c : KqueueEle}

theorem setValue_eq (hc : heap.load p = some c) (value : UInt32) : ∃ h', setValue heap p value = some h' ∧
    h'.load = Function.update heap.load p (some ⟨c.next, value⟩) ∧ keys h'.cells = keys heap.cells ∧
    (heap.Balanced → h'.Balanced) := by
  rw [setValue, hc, Option.bind_some]
  exact Heap.store_eq (Heap.mem_keys.mpr ⟨c, hc⟩)

theorem setNext_eq (hc : heap.load p = some c) (next : ℕ) : ∃ h', setNext heap p next = some h' ∧
    h'.load = Function.update heap.load p (some ⟨next, c.value⟩) ∧ keys h'.cells = keys heap.cells ∧
    (heap.Balanced → h'.Balanced) := by
  rw [setNext, hc, Option.bind_some]
  exact Heap.store_eq (Heap.mem_keys.mpr ⟨c, hc⟩)

/-- The first three lines of `kqueue_push`: a cell with the value and no successor. -/
theorem made_eq (junk : KqueueEle) (value : UInt32) (hfresh : ele ∉ keys heap.cells) (hb : heap.Balanced) :
    ∃ h', ((setValue (heap.alloc ele junk) ele value).bind fun heap => setNext heap ele 0) = some h' ∧
      h'.load = Function.update heap.load ele (some ⟨0, value⟩) ∧ keys h'.cells = keys heap.cells ++ [ele] ∧
      h'.Balanced := by
  have hload : (heap.alloc ele junk).load ele = some junk := by
    rw [Heap.load_alloc hfresh, Function.update_self]
  obtain ⟨h₁, hset₁, hload₁, hkeys₁, hbal₁⟩ := setValue_eq hload value
  have hcell : h₁.load ele = some ⟨junk.next, value⟩ := by rw [hload₁, Function.update_self]
  obtain ⟨h₂, hset₂, hload₂, hkeys₂, hbal₂⟩ := setNext_eq hcell 0
  refine ⟨h₂, ?_, ?_, ?_, hbal₂ (hbal₁ (hb.alloc hfresh))⟩
  · rw [hset₁, Option.bind_some, hset₂]
  · rw [hload₂, hload₁, Heap.load_alloc hfresh, Function.update_idem, Function.update_idem]
  · rw [hkeys₂, hkeys₁, Heap.keys_alloc]

theorem length_addresses {as : List ℕ} (hn : as.Nodup) (hz : ∀ a ∈ as, a ≠ 0) (hw : ∀ a ∈ as, a < 2 ^ 32) :
    as.length < 2 ^ 32 := by
  have hsub : as.toFinset ⊆ (Finset.range (2 ^ 32)).erase 0 := by
    intro a ha
    have hmem := List.mem_toFinset.mp ha
    exact Finset.mem_erase.mpr ⟨hz a hmem, Finset.mem_range.mpr (hw a hmem)⟩
  have hcard := Finset.card_le_card hsub
  rw [List.toFinset_card_of_nodup hn, Finset.card_erase_of_mem (Finset.mem_range.mpr (by omega)),
    Finset.card_range] at hcard
  omega

theorem Holds.size_pos (h : Holds heap queue l) : queue.size ≠ 0 ↔ l ≠ [] := by
  rw [h.size, Ne, List.length_eq_zero_iff]

/-- What a new last cell needs besides its link. -/
theorem Holds.grown (h : Holds heap queue l) (value : UInt32) (hword : ele < 2 ^ 32)
    (hfresh : ele ∉ keys heap.cells) {heap' : Mem} {head : ℕ}
    (hlinked : Linked heap'.load head (l ++ [(ele, value)])) (hkeys : keys heap'.cells = keys heap.cells ++ [ele])
    (hb : heap'.Balanced) : Holds heap' ⟨head, ele, add32 queue.size 1⟩ (l ++ [(ele, value)]) := by
  have hsnoc : keys (l ++ [(ele, value)]) = keys l ++ [ele] := keys_append l _
  have hnodup : (keys (l ++ [(ele, value)])).Nodup := nodup_add h.nodup fun hm => hfresh ((h.live ele).mpr hm)
  have hwords : ∀ a ∈ keys (l ++ [(ele, value)]), a < 2 ^ 32 := by
    rw [hsnoc]
    intro a ha
    rcases List.mem_append.mp ha with ha | ha
    · exact h.word a ha
    · exact List.mem_singleton.mp ha ▸ hword
  have hlength := length_addresses hnodup (fun a => hlinked.ne_zero) hwords
  rw [hsnoc, List.length_append, List.length_singleton, keys, List.length_map] at hlength
  refine ⟨hlinked, ?_, ?_, hnodup, fun a => ?_, hwords, hb⟩
  · rw [h.size, add32_of_lt hlength, List.length_append, List.length_singleton]
  · rw [hsnoc, List.getLast?_concat, Option.getD_some]
  · rw [hkeys, hsnoc, List.mem_append, List.mem_append, h.live a]

theorem push_spec (junk : ℕ → KqueueEle) (h : Holds heap queue l) (value : UInt32) (hne : ele ≠ 0)
    (hword : ele < 2 ^ 32) (hfresh : ele ∉ keys heap.cells) : ∃ heap' queue',
      kqueuePush junk heap queue value ele = some (heap', queue') ∧ Holds heap' queue' (l ++ [(ele, value)]) := by
  have hout : ele ∉ keys l := fun hm => hfresh ((h.live ele).mpr hm)
  obtain ⟨h₁, hmade, hload, hkeys, hb⟩ := made_eq (junk ele) value hfresh h.balanced
  obtain ⟨h₀, hvalue, hnext⟩ := Option.bind_eq_some_iff.mp hmade
  rw [kqueuePush, hvalue, Option.bind_some, hnext, Option.bind_some]
  rcases List.eq_nil_or_concat' l with rfl | ⟨l, ⟨t, v⟩, rfl⟩
  · have hsize : queue.size = 0 := h.size
    refine ⟨h₁, ⟨ele, ele, add32 queue.size 1⟩, ?_, h.grown value hword hfresh ?_ hkeys hb⟩
    · rw [if_neg (not_not.mpr hsize), Option.map_some]
    · exact ⟨rfl, hne, 0, by rw [hload, Function.update_self], rfl⟩
  · have hkeysl : keys (l ++ [(t, v)]) = keys l ++ [t] := keys_append l _
    have htail : queue.tail = t := by rw [h.tail, hkeysl, List.getLast?_concat, Option.getD_some]
    have ht : t ∉ keys l := (absent_of_split h.nodup).1
    have htele : t ≠ ele := by
      rintro rfl
      exact hout (by rw [hkeysl]; exact List.mem_append_right _ List.mem_cons_self)
    have hlast : h₁.load t = some ⟨0, v⟩ := by
      rw [hload, Function.update_of_ne htele, h.linked.load_last]
    obtain ⟨h₂, hset, hload₂, hkeys₂, hb₂⟩ := setNext_eq hlast ele
    refine ⟨h₂, ⟨queue.head, ele, add32 queue.size 1⟩, ?_, h.grown value hword hfresh ?_
      (hkeys₂.trans hkeys) (hb₂ hb)⟩
    · rw [if_pos (h.size_pos.mpr (by simp)), htail, hset, Option.map_some, Option.map_some]
    · rw [hload₂, hload]
      exact h.linked.snoc ht hne hout

theorem pop_spec {x : ℕ × UInt32} (h : Holds heap queue (x :: l)) : ∃ heap' queue',
    kqueuePop heap queue = some (heap', queue', x.2) ∧ Holds heap' queue' l := by
  obtain ⟨hhead, hne, next, hload, hrest⟩ := h.linked
  rw [hhead] at hload hne
  have hnodup := List.nodup_cons.mp h.nodup
  have hmem : x.1 ∈ keys heap.cells := Heap.mem_keys.mpr ⟨_, hload⟩
  obtain ⟨h', hfree, hload', hlive, hb⟩ := Heap.free_eq hmem
  refine ⟨h', ⟨next, if next = 0 then 0 else queue.tail, sub32 queue.size 1⟩, ?_, ?_⟩
  · rw [kqueuePop, hhead, hload, Option.bind_some, heapFree, if_neg hne, hfree, Option.map_some]
  · refine ⟨hrest.congr fun b hb => ?_, ?_, ?_, hnodup.2, fun a => ?_,
      fun a ha => h.word a (List.mem_cons_of_mem _ ha), hb h.balanced⟩
    · rw [hload', Function.update_of_ne]
      rintro rfl
      exact hnodup.1 hb
    · have hlt := length_addresses h.nodup (fun a => h.linked.ne_zero) h.word
      have hsize := h.size
      rw [keys, List.length_map, ← hsize] at hlt
      rw [List.length_cons] at hsize
      simp only
      rw [sub32_of_le (by omega) hlt]
      omega
    · have htail := h.tail
      cases l with
      | nil =>
        obtain rfl : next = 0 := hrest
        rfl
      | cons y l =>
        obtain ⟨-, hne', -⟩ := hrest
        rw [keys_cons, keys_cons, List.getLast?_cons_cons] at htail
        rw [if_neg hne', htail, keys_cons]
    · rw [hlive, h.live, keys_cons, List.mem_cons]
      constructor
      · rintro ⟨ha, hax⟩
        exact ha.resolve_left hax
      · intro ha
        refine ⟨Or.inr ha, ?_⟩
        rintro rfl
        exact hnodup.1 ha

theorem peek_spec {x : ℕ × UInt32} (h : Holds heap queue (x :: l)) : kqueuePeek heap queue = some x.2 := by
  obtain ⟨hhead, -, next, hload, -⟩ := h.linked
  rw [kqueuePeek, hload, Option.map_some]

theorem clear_spec (h : Holds heap queue []) : kqueueClear heap queue = some (heap, ⟨0, 0, 0⟩) := by
  have hhead : queue.head = 0 := h.linked
  rw [kqueueClear, clearFrom, hhead, if_neg (not_not.mpr rfl), Option.map_some]

theorem clearFrom_turn (heap : Mem) (hne : ele ≠ 0) :
    clearFrom heap ele = (heapFree heap ele).bind fun heap => clearFrom heap ele := by
  rw [clearFrom, if_pos hne]
  split
  · next hfree => rw [hfree, Option.bind_none]
  · next hfree => rw [hfree, Option.bind_some]

/-- The second turn finds the first cell taken back. -/
theorem clear_stuck {x : ℕ × UInt32} (h : Holds heap queue (x :: l)) : kqueueClear heap queue = none := by
  obtain ⟨hhead, hne, next, hload, -⟩ := h.linked
  obtain ⟨h', hfree, -, hlive, -⟩ := Heap.free_eq (Heap.mem_keys.mpr ⟨_, hload⟩)
  have hfirst : heapFree heap queue.head = some h' := by rw [heapFree, if_neg hne, hfree]
  have hsecond : heapFree h' queue.head = none := by
    rw [heapFree, if_neg hne, Heap.free_none fun hm => ((hlive _).mp hm).2 rfl]
  rw [kqueueClear, clearFrom_turn heap hne, hfirst, Option.bind_some, clearFrom_turn h' hne, hsecond,
    Option.bind_none, Option.map_none]

end steps

/-- The calls have returned the same, and the cells hold what is queued. -/
def Refines (s : State) (q : Fifo) : Prop :=
  s.out = q.out ∧ ∃ l : List (ℕ × UInt32), l.map Prod.snd = q.values ∧ Holds s.heap s.queue l

section runs

variable {junk : ℕ → KqueueEle} {s : State} {q : Fifo} {op : Op}

theorem refines_start : Refines start ⟨[], []⟩ :=
  ⟨rfl, [], rfl, rfl, rfl, rfl, List.nodup_nil, fun _ => Iff.rfl, nofun, List.nodup_nil, .nil⟩

theorem step_spec (junk : ℕ → KqueueEle) (h : Refines s q) (hp : Permitted s op) (hc : ClearsEmpty s op) :
    ∃ s', step junk s op = some s' ∧ Refines s' (q.step op) := by
  obtain ⟨hout, l, hl, hh⟩ := h
  cases op with
  | push value ele =>
    obtain ⟨hne, hword, hfresh⟩ := hp
    obtain ⟨heap', queue', hpush, hh'⟩ := push_spec junk hh value hne hword hfresh
    refine ⟨⟨heap', queue', s.out⟩, by rw [step, hpush, Option.map_some], hout, _, ?_, hh'⟩
    rw [List.map_append, hl]
    rfl
  | pop =>
    obtain ⟨x, l, rfl⟩ := List.exists_cons_of_ne_nil (hh.size_pos.mp hp)
    obtain ⟨heap', queue', hpop, hh'⟩ := pop_spec hh
    refine ⟨⟨heap', queue', s.out ++ [x.2]⟩, by rw [step, hpop, Option.map_some], ?_, l, ?_, hh'⟩
    · rw [Fifo.step, ← hl, hout]
      rfl
    · rw [Fifo.step, ← hl]
      rfl
  | peek =>
    obtain ⟨x, l, rfl⟩ := List.exists_cons_of_ne_nil (hh.size_pos.mp hp)
    refine ⟨{ s with out := s.out ++ [x.2] }, by rw [step, peek_spec hh, Option.map_some], ?_, _, hl, hh⟩
    rw [Fifo.step, ← hl, hout]
    rfl
  | clear =>
    obtain rfl : l = [] := not_not.mp (mt hh.size_pos.mpr (not_not.mpr hc))
    refine ⟨⟨s.heap, ⟨0, 0, 0⟩, s.out⟩, by rw [step, clear_spec hh, Option.map_some], hout, [], rfl, ?_⟩
    exact ⟨rfl, rfl, rfl, hh.nodup, hh.live, hh.word, hh.balanced⟩

theorem step_stuck (junk : ℕ → KqueueEle) (h : Refines s q) (hc : ¬ClearsEmpty s op) : step junk s op = none := by
  obtain ⟨-, l, -, hh⟩ := h
  cases op with
  | clear =>
    obtain ⟨x, l, rfl⟩ := List.exists_cons_of_ne_nil (hh.size_pos.mp hc)
    rw [step, clear_stuck hh, Option.map_none]
  | push => exact absurd trivial hc
  | pop => exact absurd trivial hc
  | peek => exact absurd trivial hc

theorem step_iff (h : Refines s q) (hp : Permitted s op) :
    ClearsEmpty s op ↔ Library.Refinement.Follows (step junk) Fifo.step Refines s q op :=
  Library.Refinement.yields_of_none (step_spec junk h hp) (step_stuck junk h)

end runs

theorem refines_iff (junk : ℕ → KqueueEle) (ops : List Op) (hp : Meets (step junk) Permitted start ops) :
    Meets (step junk) ClearsEmpty start ops ↔
      ∀ pre, pre <+: ops → ∃ s, exec (step junk) start pre = some s ∧ Refines s (fifo pre) :=
  Library.Refinement.meets_iff_refines (fun _ _ _ => step_iff) refines_start hp

theorem refines_pushed_popped : Meets (step fun _ => ⟨0, 0⟩) ClearsEmpty start
      ([.push 7 8, .push 9 24, .pop, .peek, .pop] ++ [.clear]) ↔
    ∀ pre, pre <+: [.push 7 8, .push 9 24, .pop, .peek, .pop] ++ [.clear] →
      ∃ s, exec (step fun _ => ⟨0, 0⟩) start pre = some s ∧ Refines s (fifo pre) :=
  refines_iff _ _ (meets_snoc.mpr ⟨by decide, fun _ _ => trivial⟩)

/-- A queue of one value is cleared. -/
theorem clear_double_free : Meets (step fun _ => ⟨0, 0⟩) Permitted start ([.push 7 8] ++ [.clear]) ∧
    exec (step fun _ => ⟨0, 0⟩) start ([.push 7 8] ++ [.clear]) = none := by
  refine ⟨meets_snoc.mpr ⟨by decide, fun _ _ => trivial⟩, ?_⟩
  obtain ⟨s, hpush, hs⟩ := @step_spec start _ (.push 7 8) (fun _ => ⟨0, 0⟩) refines_start (by decide) trivial
  have hsize : ¬ClearsEmpty s .clear := by
    obtain ⟨-, l, hl, hh⟩ := hs
    refine hh.size_pos.mpr ?_
    rintro rfl
    cases hl
  rw [List.singleton_append, exec, hpush, Option.bind_some, exec, step_stuck _ hs hsize, Option.bind_none]

end Eedox.Kqueue
