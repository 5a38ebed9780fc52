import Eedox.HeapCalls

namespace Eedox.HeapRuns

open Library.Words Library.Blocks KernelHeap HeapTiling HeapSteps HeapWatch HeapCalls

/-- The heap, and the payloads that its callers hold with the sizes they asked for. -/
structure State where
  heap : Heap
  live : List (ℕ × ℕ)

inductive Action
  | alloc (size : UInt32)
  | free (ptr : ℕ)
  | store (addr : ℕ) (value : UInt8)

def step (s : State) : Action → Option State
  | .alloc size => (heapAlloc s.heap size.toNat false).map fun r =>
      ⟨r.1, if r.2 = 0 then s.live else (r.2, size.toNat) :: s.live⟩
  | .free ptr => (heapFree s.heap ptr).map fun h => ⟨h, s.live.filter fun x => x.1 ≠ ptr⟩
  | .store addr value => some { s with heap := { s.heap with mem := Function.update s.heap.mem addr value } }

/-- Callers free what is live, and write to what they asked for. -/
def Permitted (s : State) : Action → Prop
  | .alloc _ => True
  | .free ptr => ∃ n, (ptr, n) ∈ s.live
  | .store addr _ => ∃ x ∈ s.live, x.1 ≤ addr ∧ addr < x.1 + x.2

inductive Reachable (m : Mem) (start size indexSize : ℕ) : State → Prop
  | init : Reachable m start size indexSize ⟨heapInit m start size indexSize, []⟩
  | step {s s' : State} (a : Action) : Reachable m start size indexSize s → Permitted s a →
      step s a = some s' → Reachable m start size indexSize s'

def payload (s : State) (x : ℕ × ℕ) : ℕ := (header s.heap.mem (x.1 - hheaderSize)).size

/-- What memory holds, by the addresses of the headers that the steps from the first one reach. -/
structure Sound (size : ℕ) (s : State) (heads : List ℕ) : Prop where
  first : heads.head? = some s.heap.start
  next : heads.IsChain fun a b => hheaderNext s.heap.mem a = b
  last : ∀ a ∈ heads.getLast?, hheaderNext s.heap.mem a = s.heap.start + (hheaderSize + size)
  ascending : heads.Pairwise (· < ·)
  flags : ∀ a ∈ heads, (header s.heap.mem a).isHole ≤ 1
  prevFirst : (header s.heap.mem s.heap.start).prev = 0
  prev : heads.IsChain fun a b => (header s.heap.mem b).prev = a
  apart : heads.IsChain fun a b => ¬((header s.heap.mem a).isHole = 1 ∧ (header s.heap.mem b).isHole = 1)
  index : s.heap.index.Nodup
  indexed : ∀ a, a ∈ s.heap.index ↔ a ∈ heads ∧ (header s.heap.mem a).isHole = 1
  used : ∀ a, (∃ n, (a + hheaderSize, n) ∈ s.live) ↔ a ∈ heads ∧ (header s.heap.mem a).isHole = 0
  fits : ∀ x ∈ s.live, hheaderSize ≤ x.1 ∧ x.2 ≤ payload s x
  disjoint : s.live.Pairwise fun x y => x.1 + payload s x ≤ y.1 ∨ y.1 + payload s y ≤ x.1
  whole : s.live = [] → heads = [s.heap.start] ∧ header s.heap.mem s.heap.start = ⟨1, size, 0⟩

/-- The blocks behind a state. -/
structure Inv (size : ℕ) (s : State) (bs : List Block) : Prop where
  kept : Kept s.heap bs
  live : s.live.Perm (inUse 9 s.heap.start bs)
  size_eq : s.heap.size = size

section Preservation

variable {size : ℕ} {s s' : State} {bs : List Block}

theorem tiled_store {h : Heap} {ds : List Block} {b : Block} {addr : ℕ} (value : UInt8)
    (ht : Tiled h (bs ++ b :: ds)) (hlow : h.start + extent 9 bs + 9 ≤ addr)
    (hhigh : addr < h.start + extent 9 bs + (9 + b.size)) :
    Tiled { h with mem := Function.update h.mem addr value } (bs ++ b :: ds) := by
  have hother (x : ℕ) (hx : x ≠ addr) : Function.update h.mem addr value x = h.mem x :=
    Function.update_of_ne hx _ _
  apply splice [b] [b] ht
  · rfl
  · rfl
  · refine ⟨?_, trivial⟩
    rw [← ht.header_eq]
    exact header_congr fun x _ _ => hother x (by omega)
  · rfl
  · intro c hc
    rw [List.mem_singleton.mp hc]
    exact ht.positive b (by simp)
  · intro x hx
    exact hother x (by omega)
  · intro hds
    have hl := last_of_tiled [b] ht hds
    have hsame : header (Function.update h.mem addr value) (h.start + extent 9 bs + extent 9 [b]) =
        header h.mem (h.start + extent 9 bs + extent 9 [b]) :=
      header_congr fun x _ _ => hother x (by rw [extent_cons] at *; omega)
    exact hsame.trans (HHeader.ext rfl rfl hl)
  · intro x hx
    rw [extent_cons] at hx
    exact hother x (by omega)

theorem inv_store {addr : ℕ} {value : UInt8} (hi : Inv size s bs) (hp : Permitted s (.store addr value)) :
    Inv size { s with heap := { s.heap with mem := Function.update s.heap.mem addr value } } bs := by
  obtain ⟨x, hx, hlow, hhigh⟩ := hp
  obtain ⟨cs, b, ds, rfl, hb, hplace⟩ := mem_inUse (hi.live.mem_iff.mp hx)
  have hfit := (hi.kept.fitted b (by simp) x.2 hb).2
  refine ⟨⟨tiled_store value hi.kept.tiled (by omega) (by omega), hi.kept.separate, hi.kept.index,
    hi.kept.fitted, hi.kept.records, hi.kept.length⟩, hi.live, hi.size_eq⟩

theorem inv_free {ptr n : ℕ} (hi : Inv size s bs) (hx : (ptr, n) ∈ s.live) :
    ∃ s' bs', step s (.free ptr) = some s' ∧ Inv size s' bs' := by
  obtain ⟨h', bs', hfree, hk, hperm, hstart, hsize⟩ := free_spec hi.kept (hi.live.mem_iff.mp hx)
  refine ⟨⟨h', _⟩, bs', by rw [step, hfree]; rfl, hk, ?_, hsize.trans hi.size_eq⟩
  have hdistinct := (hperm.map Prod.fst).nodup_iff.mp hi.kept.distinct
  have hnot : ∀ x ∈ inUse 9 s.heap.start bs', decide (x.1 ≠ ptr) = true := by
    intro x hx
    rw [List.map_cons, List.nodup_cons] at hdistinct
    exact decide_eq_true fun heq => hdistinct.1 (List.mem_map.mpr ⟨x, hx, heq⟩)
  have hfilter := (hi.live.trans hperm).filter fun x => x.1 ≠ ptr
  rw [List.filter_cons, if_neg (by simp), List.filter_eq_self.mpr hnot] at hfilter
  rw [hstart]
  exact hfilter

theorem not_fitting {n : ℕ} (h : ¬(0 < n ∧ ∃ a ∈ s.heap.index, n ≤ (header s.heap.mem a).size)) :
    n = 0 ∨ ∀ a ∈ s.heap.index, (header s.heap.mem a).size < n := by
  by_contra hno
  push Not at hno
  exact h ⟨by omega, hno.2⟩

/-- Only the limit of the watcher stands between a request and its answer. -/
theorem inv_alloc (n : UInt32) (hi : Inv size s bs) :
    (∃ s' bs', step s (.alloc n) = some s' ∧ Inv size s' bs') ∨
      (step s (.alloc n) = none ∧ 1024 ≤ s.live.length) := by
  by_cases hhole : 0 < n.toNat ∧ ∃ a ∈ s.heap.index, n.toNat ≤ (header s.heap.mem a).size
  · rw [hi.live.length_eq]
    by_cases hroom : (inUse 9 s.heap.start bs).length < 1024
    · obtain ⟨h', ptr, bs', halloc, hptr, hk, hperm, hstart, hsize⟩ :=
        alloc_some hi.kept hhole.1 hhole.2 hroom
      refine Or.inl ⟨⟨h', (ptr, n.toNat) :: s.live⟩, bs', ?_, hk, ?_, hsize.trans hi.size_eq⟩
      · rw [step, halloc, Option.map_some, if_neg hptr]
      · rw [hstart]
        exact (hi.live.cons _).trans hperm.symm
    · refine Or.inr ⟨?_, by omega⟩
      rw [step, alloc_full hi.kept hhole.1 hhole.2 (by omega), Option.map_none]
  · refine Or.inl ⟨s, bs, ?_, hi⟩
    rw [step, alloc_none hi.kept (not_fitting hhole), Option.map_some, if_pos rfl]

theorem inv_step {a : Action} (hi : Inv size s bs) (hp : Permitted s a) (h : step s a = some s') :
    ∃ bs', Inv size s' bs' := by
  cases a with
  | alloc n =>
    rcases inv_alloc n hi with ⟨t, bs', ht, hinv⟩ | ⟨hnone, -⟩
    · obtain rfl := Option.some.inj (ht.symm.trans h)
      exact ⟨bs', hinv⟩
    · rw [hnone] at h
      cases h
  | free ptr =>
    obtain ⟨n, hx⟩ := hp
    obtain ⟨t, bs', ht, hinv⟩ := inv_free hi hx
    obtain rfl := Option.some.inj (ht.symm.trans h)
    exact ⟨bs', hinv⟩
  | store addr value =>
    obtain rfl := Option.some.inj h
    exact ⟨bs, inv_store hi hp⟩

end Preservation

section Meaning

variable {size : ℕ} {s : State} {bs cs ds : List Block} {b : Block}

theorem flag_none (h : b.request = none) : flag b = 1 := by
  unfold flag
  rw [h]
  rfl

theorem flag_some {n : ℕ} (h : b.request = some n) : flag b = 0 := by
  unfold flag
  rw [h]
  rfl

theorem payload_eq {h : Heap} {live : List (ℕ × ℕ)} {x : ℕ × ℕ} (ht : Tiled h (cs ++ b :: ds))
    (hx : x.1 = h.start + extent 9 cs + 9) : payload ⟨h, live⟩ x = b.size := by
  unfold payload
  rw [hx, hheaderSize, Nat.add_sub_cancel, ht.header_eq]

end Meaning

section Start

variable {m : Mem} {start size indexSize : ℕ}

theorem inv_init (hsize : 0 < size) (hindex : 4 * 1026 ≤ indexSize)
    (hstart : start + indexSize ≤ (heapInit m start size indexSize).start)
    (hword : (heapInit m start size indexSize).start + (hheaderSize + size) < 2 ^ 32) :
    Inv size ⟨heapInit m start size indexSize, []⟩ [⟨size, none⟩] := by
  have hlow : 1 < (heapInit m start size indexSize).start := by omega
  unfold hheaderSize at hword
  refine ⟨⟨⟨⟨?_, trivial⟩, rfl, ?_, hlow, hword⟩, List.isChain_singleton _, List.Perm.refl _, ?_,
    List.Perm.refl _, by simp [heapInit]⟩, List.Perm.refl _, rfl⟩
  · change header (setPrev (setSize (setIsHole m (heapInit m start size indexSize).start 1)
      (heapInit m start size indexSize).start size) (heapInit m start size indexSize).start 0)
      (heapInit m start size indexSize).start = _
    rw [header_setPrev, header_setSize, header_setIsHole, Nat.mod_eq_of_lt (by omega)]
    rfl
  · intro b hb
    rw [List.mem_singleton.mp hb]
    exact hsize
  · intro b hb n hn
    rw [List.mem_singleton.mp hb] at hn
    cases hn

theorem inv_reachable {s : State} (hsize : 0 < size) (hindex : 4 * 1026 ≤ indexSize)
    (hstart : start + indexSize ≤ (heapInit m start size indexSize).start)
    (hword : (heapInit m start size indexSize).start + (hheaderSize + size) < 2 ^ 32)
    (hs : Reachable m start size indexSize s) : ∃ bs, Inv size s bs := by
  induction hs with
  | init => exact ⟨_, inv_init hsize hindex hstart hword⟩
  | step a _ hp hstep ih =>
    obtain ⟨bs, hi⟩ := ih
    exact inv_step hi hp hstep

end Start

end Eedox.HeapRuns
