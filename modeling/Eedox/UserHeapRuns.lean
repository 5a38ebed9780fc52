import Eedox.Library.Runs
import Eedox.UserHeapSearch

namespace Eedox.UserHeapRuns

open Library.Bytes Library.Words Library.Blocks Library.DoublyLinked Library.Runs UserHeap UserHeapShape
open UserHeapTiling UserHeapSteps UserHeapCalls UserHeapSearch

section Alloc

variable {h : Heap} {bs : List Block} {free : List ℕ} {n : ℕ}

theorem alignment_four (hn : n < 2 ^ 32) : alignment n 4 = (n + 3) / 4 * 4 % 2 ^ 32 := by
  unfold alignment
  simp only [show (4 : ℕ) ≠ 0 by decide, if_false]
  have hmod : n % 4 % 2 ^ 8 = n % 4 := by omega
  rw [hmod, sub32_of_le (by omega) hn]
  by_cases hzero : n % 4 = 0
  · rw [if_neg (not_not.mpr hzero)]
    omega
  · rw [if_pos hzero, add32]
    omega

/-- What a call leaves behind that hands out the payload at `p`. -/
structure Handed (h h' : Heap) (bs bs' : List Block) (free : List ℕ) (p k : ℕ) : Prop where
  shaped : Shaped h' bs' free
  root : h'.root = h.root
  size : h'.size = h.size
  payloads : (inUse 16 h'.root bs').Perm ((p, k) :: inUse 16 h.root bs)
  bytes : ∀ q ∈ inUse 16 h.root bs, ∀ x, q.1 ≤ x → x < q.1 + q.2 → h'.mem x = h.mem x

theorem pointer_eq (hs : Shaped h bs free) {a : ℕ} (ha : a + 16 ≤ h.root + h.size) :
    objectHeaderGetPointer a = a + 16 := by
  have hword := hs.tiled.word
  exact add32_of_lt (by unfold headerSize; omega)

theorem inUse_kept {a : ℕ} {cs ds : List Block} {b : Block} (hb : b.request = none) :
    inUse 16 a (cs ++ b :: ds) = inUse 16 a cs ++ inUse 16 (a + extent 16 cs + (16 + b.size)) ds := by
  rw [inUse_append, inUse_hole _ _ hb]

/-- A block that a search has found is handed out. -/
theorem handed_of_found {h₁ : Heap} {cs ds : List Block} {b : Block} {size : ℕ} (hf : Found h bs size h₁ cs ds b free)
    (ha : size % 4 = 0) : ∃ bs' free' k, size ≤ k ∧
    Handed h (claimed (objectHeaderTrySplit h₁ (h₁.root + extent 16 cs) size) (h₁.root + extent 16 cs)) bs bs' free'
      (h₁.root + extent 16 cs + 16) k := by
  obtain ⟨k, rest, free₂, hcut, hshaped⟩ := trySplit_spec hf.shaped ha hf.enough
  generalize objectHeaderTrySplit h₁ (h₁.root + extent 16 cs) size = h₂ at hcut hshaped ⊢
  have hroot := hcut.root
  obtain ⟨hclaimed, hwrites⟩ := Shaped.claim hshaped (resized_none.mpr hf.free)
  rw [hroot] at hclaimed hwrites
  have hold : inUse 16 h₁.root (cs ++ resized b k :: (rest ++ ds)) = inUse 16 h.root bs := by
    rw [← hf.keeps.payloads, inUse_kept hf.free, resized, hcut.inUse_eq]
    rw [show inUse 16 _ [⟨k, _⟩] = [] from inUse_hole _ [] (resized_none.mpr hf.free), List.nil_append]
  refine ⟨_, _, k, hcut.enough, hclaimed, hroot.trans hf.keeps.root, hcut.total.trans hf.keeps.size, ?_, ?_⟩
  · change (inUse 16 h₂.root (cs ++ ⟨k, some k⟩ :: (rest ++ ds))).Perm _
    rw [hroot, hcut.inUse_eq, ← hf.keeps.payloads, inUse_kept hf.free,
      show inUse 16 (h₁.root + extent 16 cs) [⟨k, some k⟩] = [(h₁.root + extent 16 cs + 16, k)] from
        inUse_used _ [] rfl]
    exact List.perm_middle
  · intro q hq x hlow hhigh
    have hq₁ : q ∈ inUse 16 h₁.root (cs ++ b :: ds) := by
      rw [hf.keeps.payloads]
      exact hq
    have hq₂ : q ∈ inUse 16 h₂.root (cs ++ resized b k :: (rest ++ ds)) := by
      rw [hroot, hold]
      exact hq
    have hapart (a : ℕ) (hmem : a ∈ heads h₁.root (cs ++ resized b k :: (rest ++ ds))) : x < a ∨ a + 16 ≤ x := by
      rw [← hroot] at hmem
      have hout := Tiled.payload_apart hshaped.tiled hq₂ hmem
      omega
    rw [hwrites x hapart, hcut.writes x hapart, hf.keeps.bytes q hq x hlow hhigh]

/-- Where no block was found, a new one is put behind the others. -/
theorem handed_of_room {h₁ : Heap} {bs₁ : List Block} {size : ℕ} (hs : Shaped h₁ bs₁ free) (hk : Keeps h h₁ bs bs₁)
    (ha : size % 4 = 0) (hroom : h₁.brk + (16 + size) ≤ h₁.size) :
    Handed h { h₁ with mem := putHeaderNew h₁.mem (h₁.root + h₁.brk) size, brk := h₁.brk + (16 + size) } bs
      (bs₁ ++ [⟨size, some size⟩]) free (h₁.root + h₁.brk + 16) size := by
  refine ⟨Shaped.append hs ha hroom, hk.root, hk.size, ?_, fun q hq x hlow hhigh => ?_⟩
  · change (inUse 16 h₁.root (bs₁ ++ [⟨size, some size⟩])).Perm _
    rw [← hk.payloads, inUse_append, inUse_used _ _ rfl, inUse_nil, ← hs.tiled.fills]
    exact List.perm_append_singleton _ _
  · rw [← hk.bytes q hq x hlow hhigh]
    refine (writes_putHeaderNew List.mem_cons_self : Writes [h₁.root + h₁.brk] _ _) x fun a hmem => ?_
    rw [← hk.payloads] at hq
    obtain ⟨cs, b, ds, rfl, hb, hplace⟩ := mem_inUse hq
    have hbound := hs.tiled.bounded
    have hwhole := hs.tiled.whole b (by simp) q.2 hb
    rw [List.mem_singleton.mp hmem]
    omega

/-- How a call of `heap_alloc` ends whose sum does not wrap around to a size that there is room for. -/
theorem heapAlloc_cases (hs : Shaped h bs free) (hpos : 0 < n) (hn : n < 2 ^ 32)
    (hwrap : alignment n 4 + 16 < 2 ^ 32 ∨ heapUntouchedMemory h < add32 (alignment n 4) headerSize) :
    ∃ h' p, heapAlloc h n 4 = some (h', p) ∧
      ((p = 0 ∧ (∃ bs' free', Shaped h' bs' free' ∧ Keeps h h' bs bs' ∧ h'.brk = h.brk) ∧
          (alignment n 4 + 16 < 2 ^ 32 → row 16 (h.size - h.brk) 0 bs < 16 + alignment n 4)) ∨
        (p ≠ 0 ∧ 16 + alignment n 4 ≤ row 16 (h.size - h.brk) 0 bs ∧
          (losesBest (h.brk + 1) h (alignment n 4) h.free 0 false = false →
            ∃ bs' free' k, alignment n 4 ≤ k ∧ Handed h h' bs bs' free' p k))) := by
  have heq := alignment_four hn
  have haligned : alignment n 4 % 4 = 0 := by omega
  obtain ⟨h₁, r, hfind, hcase⟩ := @heapFindBestFit_spec h bs (alignment n 4) free hs (by omega) haligned
  have hword := hs.tiled.word
  have hlow := hs.tiled.low
  rw [hs.tiled.untouched_eq, headerSize] at hwrap
  unfold heapAlloc
  rw [if_neg (by omega)]
  simp only [hfind, Option.bind_some]
  rcases hcase with ⟨rfl, ⟨bs₁, free₁, hshaped, hkeeps, hbrk⟩, hrow⟩ | ⟨hr, hroom, hhigh, hfound⟩
  · rw [if_neg (not_not.mpr rfl), hshaped.tiled.untouched_eq, hkeeps.size, hbrk, headerSize]
    by_cases hfull : add32 (alignment n 4) 16 > h.size - h.brk
    · rw [if_pos hfull]
      refine ⟨h₁, 0, rfl, Or.inl ⟨rfl, ⟨bs₁, free₁, hshaped, hkeeps, hbrk⟩, fun hlt => hrow ?_⟩⟩
      rw [add32_of_lt hlt] at hfull
      omega
    · have hlt := hwrap.resolve_right hfull
      rw [add32_of_lt hlt] at hfull
      have hle := @le_row 16 (h.size - h.brk) 0 bs
      have hgrown : add32 h.brk (add32 16 (alignment n 4)) = h.brk + (16 + alignment n 4) := by
        rw [@add32_of_lt 16 _ (by omega), add32_of_lt (by omega)]
      rw [if_neg (by rw [add32_of_lt hlt]; exact hfull), hshaped.tiled.end_eq, hkeeps.root, hbrk, hgrown,
        pointer_eq hs (by omega)]
      have hhanded := handed_of_room hshaped hkeeps haligned (by rw [hbrk, hkeeps.size]; omega)
      rw [hkeeps.root, hkeeps.size, hbrk] at hhanded
      exact ⟨_, _, rfl, Or.inr ⟨by omega, by omega, fun _ => ⟨_, free₁, alignment n 4, le_rfl, hhanded⟩⟩⟩
  · rw [if_pos hr, pointer_eq hs hhigh]
    refine ⟨_, _, rfl, Or.inr ⟨by omega, hroom, fun hlost => ?_⟩⟩
    obtain ⟨cs, b, ds, free₁, rfl, hf⟩ := hfound hlost
    exact handed_of_found hf haligned

end Alloc

/-- The heap, and the pointers that were handed out and not yet given back. -/
structure State where
  heap : Heap
  live : List ℕ

inductive Action
  | alloc (size : UInt32)
  | dealloc (pointer : ℕ)
  | expand (size : ℕ)
  | store (addr : ℕ) (value : UInt8)

def step (s : State) : Action → Option State
  | .alloc size => (heapAlloc s.heap size.toNat 4).map fun r =>
      ⟨r.1, if r.2 = 0 then s.live else r.2 :: s.live⟩
  | .dealloc pointer => some ⟨heapDealloc s.heap pointer, s.live.erase pointer⟩
  | .expand size => some { s with heap := heapExpand s.heap size }
  | .store addr value => some { s with heap := { s.heap with mem := Function.update s.heap.mem addr value } }

def payload (s : State) (p : ℕ) : ℕ := (header s.heap.mem (p - headerSize)).size

/-- Live pointers are given back, new memory lies behind the heap, and writes go to live payloads. -/
def Permitted (s : State) : Action → Prop
  | .alloc _ => True
  | .dealloc pointer => pointer ∈ s.live
  | .expand size => s.heap.root + s.heap.size + size < 2 ^ 32
  | .store addr _ => ∃ p ∈ s.live, p ≤ addr ∧ addr < p + payload s p

/-- The search hands out no block that it has merged away, and the size of a new block does not wrap around
to one that there is room for. -/
def KeepsBest (h : Heap) (size : ℕ) : Prop :=
  size = 0 ∨ (losesBest (h.brk + 1) h (alignment size 4) h.free 0 false = false ∧
    (alignment size 4 + 16 < 2 ^ 32 ∨ heapUntouchedMemory h < add32 (alignment size 4) headerSize))

def Guarded (s : State) (a : Action) : Prop :=
  Permitted s a ∧
    match a with
    | .alloc size => KeepsBest s.heap size.toNat
    | _ => True

instance (s : State) (a : Action) : Decidable (Permitted s a) :=
  match a with
  | .alloc _ => inferInstanceAs (Decidable True)
  | .dealloc pointer => inferInstanceAs (Decidable (pointer ∈ s.live))
  | .expand size => inferInstanceAs (Decidable (s.heap.root + s.heap.size + size < 2 ^ 32))
  | .store addr _ => inferInstanceAs (Decidable (∃ p ∈ s.live, p ≤ addr ∧ addr < p + payload s p))

instance (h : Heap) (size : ℕ) : Decidable (KeepsBest h size) := inferInstanceAs (Decidable (_ ∨ _ ∧ (_ ∨ _)))

instance (s : State) (a : Action) : Decidable (Guarded s a) :=
  match a with
  | .alloc size => inferInstanceAs (Decidable (_ ∧ KeepsBest s.heap size.toNat))
  | .dealloc _ | .expand _ | .store _ _ => inferInstanceAs (Decidable (_ ∧ True))

/-- The headers that one reaches from the first one. -/
inductive IsHeader (h : Heap) : ℕ → Prop
  | root : objectHeaderIsNull h h.root = false → IsHeader h h.root
  | next {a : ℕ} : IsHeader h a → objectHeaderIsNull h (objectHeaderNext h.mem a) = false →
      IsHeader h (objectHeaderNext h.mem a)

structure Safe (s : State) : Prop where
  distinct : s.live.Nodup
  disjoint : s.live.Pairwise fun p q => p + payload s p ≤ q ∨ q + payload s q ≤ p
  headers : ∀ a, IsHeader s.heap a → ∀ p ∈ s.live, a + headerSize ≤ p ∨ p + payload s p ≤ a
  inside : ∀ p ∈ s.live, s.heap.root ≤ p ∧ p + payload s p ≤ s.heap.root + s.heap.size
  brk : s.heap.brk ≤ s.heap.size

/-- The blocks behind a state. -/
structure Inv (s : State) (bs : List Block) (free : List ℕ) : Prop where
  shaped : Shaped s.heap bs free
  live : s.live.Perm ((inUse 16 s.heap.root bs).map Prod.fst)

section Preservation

variable {s s' : State} {bs : List Block} {free : List ℕ}

theorem inv_alloc (n : UInt32) (hi : Inv s bs free) (hg : KeepsBest s.heap n.toNat) :
    ∃ s' bs' free', step s (.alloc n) = some s' ∧ Inv s' bs' free' := by
  have hn := n.toNat_lt
  rcases hg with hzero | ⟨hlost, hwrap⟩
  · refine ⟨s, bs, free, ?_, hi⟩
    rw [step, heapAlloc, if_pos hzero, Option.map_some, if_pos rfl]
  · by_cases hzero : n.toNat = 0
    · refine ⟨s, bs, free, ?_, hi⟩
      rw [step, heapAlloc, if_pos hzero, Option.map_some, if_pos rfl]
    · obtain ⟨h', p, halloc, ⟨rfl, ⟨bs', free', hshaped, hkeeps, -⟩, -⟩ | ⟨hp, -, hhanded⟩⟩ :=
        heapAlloc_cases hi.shaped (by omega) hn hwrap
      · refine ⟨⟨h', s.live⟩, bs', free', by rw [step, halloc, Option.map_some, if_pos rfl], hshaped, ?_⟩
        change s.live.Perm ((inUse 16 h'.root bs').map Prod.fst)
        rw [hkeeps.payloads]
        exact hi.live
      · obtain ⟨bs', free', k, -, hh⟩ := hhanded hlost
        refine ⟨⟨h', p :: s.live⟩, bs', free', by rw [step, halloc, Option.map_some, if_neg hp], hh.shaped, ?_⟩
        exact (hi.live.cons p).trans (hh.payloads.map Prod.fst).symm

theorem live_place (hi : Inv s bs free) {p : ℕ} (hp : p ∈ s.live) :
    ∃ cs b ds, bs = cs ++ b :: ds ∧ b.request = some b.size ∧ p = s.heap.root + extent 16 cs + 16 := by
  obtain ⟨q, hq, rfl⟩ := List.mem_map.mp (hi.live.mem_iff.mp hp)
  obtain ⟨cs, b, ds, rfl, hb, hplace⟩ := mem_inUse hq
  have hwhole := hi.shaped.tiled.whole b (by simp) q.2 hb
  exact ⟨cs, b, ds, rfl, by rw [hb, hwhole], hplace⟩

theorem inv_dealloc {p : ℕ} (hi : Inv s bs free) (hp : p ∈ s.live) :
    ∃ bs' free', Inv ⟨heapDealloc s.heap p, s.live.erase p⟩ bs' free' := by
  obtain ⟨cs, b, ds, rfl, hb, rfl⟩ := live_place hi hp
  obtain ⟨hshaped, -⟩ := Shaped.release hi.shaped (by rw [hb]; simp)
  refine ⟨_, _, hshaped, ?_⟩
  change (s.live.erase _).Perm ((inUse 16 s.heap.root (cs ++ ⟨b.size, none⟩ :: ds)).map Prod.fst)
  have hlive := hi.live
  rw [inUse_append, inUse_used _ _ hb, List.map_append, List.map_cons] at hlive
  rw [inUse_kept rfl, List.map_append]
  exact ((List.perm_cons_erase hp).symm.trans (hlive.trans List.perm_middle)).cons_inv

theorem Shaped.expand {size : ℕ} (hs : Shaped s.heap bs free) (hp : s.heap.root + s.heap.size + size < 2 ^ 32) :
    Shaped (heapExpand s.heap size) bs free := by
  have ht := hs.tiled
  have hroom := ht.room
  have hlow := ht.low
  have hgrown : add32 s.heap.size size = s.heap.size + size := add32_of_lt (by omega)
  refine ⟨⟨ht.rep, ht.fills, ?_, ht.low, ?_, ht.aligned, ht.whole⟩, hs.listed, hs.perm⟩
  · change s.heap.brk ≤ add32 _ _
    omega
  · change s.heap.root + add32 _ _ < 2 ^ 32
    omega

theorem Shaped.congr {h : Heap} {m : Mem} (hs : Shaped h bs free)
    (hm : ∀ a ∈ heads h.root bs, header m a = header h.mem a) : Shaped { h with mem := m } bs free := by
  have ht := hs.tiled
  refine ⟨⟨ht.rep.congr fun a ha => ?_, ht.fills, ht.room, ht.low, ht.word, ht.aligned, ht.whole⟩,
    hs.listed.of_links rfl fun a ha => ?_, hs.perm⟩
  · rw [hm a ha]
    exact ⟨rfl, rfl⟩
  · rw [hm a (hs.subset ha)]
    exact ⟨rfl, rfl⟩

theorem payload_eq {cs ds : List Block} {b : Block} (hs : Shaped s.heap (cs ++ b :: ds) free) :
    payload s (s.heap.root + extent 16 cs + 16) = b.size := by
  unfold payload headerSize
  rw [Nat.add_sub_cancel, hs.tiled.header_eq.1]

theorem payload_of_mem (hs : Shaped s.heap bs free) {q : ℕ × ℕ} (hq : q ∈ inUse 16 s.heap.root bs) :
    payload s q.1 = q.2 := by
  obtain ⟨cs, b, ds, rfl, hb, hplace⟩ := mem_inUse hq
  rw [hplace, payload_eq hs, hs.tiled.whole b (by simp) q.2 hb]

theorem inv_store {addr : ℕ} {value : UInt8} (hi : Inv s bs free) (hp : Permitted s (.store addr value)) :
    Inv { s with heap := { s.heap with mem := Function.update s.heap.mem addr value } } bs free := by
  obtain ⟨p, hp, hlow, hhigh⟩ := hp
  obtain ⟨cs, b, ds, rfl, hb, rfl⟩ := live_place hi hp
  rw [payload_eq hi.shaped] at hhigh
  have hq : (s.heap.root + extent 16 cs + 16, b.size) ∈ inUse 16 s.heap.root (cs ++ b :: ds) :=
    mem_inUse_iff.mpr ⟨cs, b, ds, rfl, hb, rfl⟩
  refine ⟨Shaped.congr hi.shaped fun a ha => header_congr fun x _ _ => ?_, hi.live⟩
  have hapart := Tiled.payload_apart hi.shaped.tiled hq ha
  simp only at hapart
  exact Function.update_of_ne (by omega) _ _

theorem inv_step {a : Action} (hi : Inv s bs free) (hg : Guarded s a) :
    ∃ s' bs' free', step s a = some s' ∧ Inv s' bs' free' := by
  cases a with
  | alloc n => exact inv_alloc n hi hg.2
  | dealloc p =>
    obtain ⟨bs', free', hi'⟩ := inv_dealloc hi hg.1
    exact ⟨_, bs', free', rfl, hi'⟩
  | expand size => exact ⟨_, bs, free, rfl, Shaped.expand hi.shaped hg.1, hi.live⟩
  | store addr value => exact ⟨_, bs, free, rfl, inv_store hi hg.1⟩

theorem isHeader_mem {h : Heap} (hs : Shaped h bs free) {a : ℕ} (ha : IsHeader h a) : a ∈ heads h.root bs := by
  have ht := hs.tiled
  induction ha with
  | root hnull =>
    rw [objectHeaderIsNull, ht.end_eq, ht.fills, decide_eq_false_iff_not] at hnull
    cases bs with
    | nil => exact absurd le_rfl hnull
    | cons b bs => exact List.mem_cons_self
  | next _ hnull ih =>
    obtain ⟨cs, b, ds, rfl, rfl⟩ := mem_heads.mp ih
    have hbound := ht.bounded
    rw [ht.next_eq] at hnull ⊢
    rw [objectHeaderIsNull, ht.end_eq, decide_eq_false_iff_not] at hnull
    cases ds with
    | nil =>
      rw [extent_nil] at hbound
      omega
    | cons d ds =>
      rw [heads_append, heads_cons, heads_cons]
      simp

theorem safe_of_inv (hi : Inv s bs free) : Safe s := by
  have ht := hi.shaped.tiled
  have hsize (q : ℕ × ℕ) (hq : q ∈ inUse 16 s.heap.root bs) := payload_of_mem hi.shaped hq
  have hspread : (inUse 16 s.heap.root bs).Pairwise fun x y => x.1 + payload s x.1 + 16 ≤ y.1 := by
    refine (inUse_spread s.heap.root fun b hb n hn => (ht.whole b hb n hn).le).imp_of_mem fun {x y} hx _ hxy => ?_
    rw [hsize x hx]
    exact hxy
  have hlive : ((inUse 16 s.heap.root bs).map Prod.fst).Pairwise fun p q => p + payload s p + 16 ≤ q :=
    List.pairwise_map.mpr hspread
  refine ⟨?_, ?_, fun a ha p hp => ?_, fun p hp => ?_, ht.room⟩
  · exact hi.live.nodup_iff.mpr (hlive.imp fun hpq => by omega)
  · exact (hi.live.pairwise_iff fun {p q} hpq => hpq.symm).mpr (hlive.imp fun hpq => Or.inl (by omega))
  · obtain ⟨q, hq, rfl⟩ := List.mem_map.mp (hi.live.mem_iff.mp hp)
    rw [hsize q hq, headerSize]
    exact (Tiled.payload_apart ht hq (isHeader_mem hi.shaped ha)).symm
  · obtain ⟨cs, b, ds, rfl, hb, rfl⟩ := live_place hi hp
    have hbound := ht.bounded
    have hroom := ht.room
    rw [payload_eq hi.shaped]
    omega

end Preservation

section Start

variable {m : Mem} {root size : ℕ}

def init (m : Mem) (root size : ℕ) : State := ⟨heapNew m root size, []⟩

theorem inv_init (hroot : 0 < root) (hword : root + size < 2 ^ 32) : Inv (init m root size) [] [] :=
  ⟨⟨⟨rep_nil, rfl, Nat.zero_le _, hroot, hword, fun _ hb => absurd hb List.not_mem_nil,
    fun _ hb => absurd hb List.not_mem_nil⟩, rfl, List.Perm.refl _⟩, List.Perm.refl _⟩

theorem run_inv {s : State} {bs : List Block} {free : List ℕ} {as : List Action} (hi : Inv s bs free)
    (hg : Meets step Guarded s as) : ∃ s' bs' free', exec step s as = some s' ∧ Inv s' bs' free' := by
  induction as generalizing s bs free with
  | nil => exact ⟨s, bs, free, rfl, hi⟩
  | cons a as ih =>
    obtain ⟨t, bs', free', hstep, hi'⟩ := inv_step hi hg.1
    obtain ⟨u, bs'', free'', hrun, hi''⟩ := ih hi' (hg.2 t hstep)
    exact ⟨u, bs'', free'', exec_cons.mpr ⟨t, hstep, hrun⟩, hi''⟩

theorem safe_of_guarded {as : List Action} (hroot : 0 < root) (hword : root + size < 2 ^ 32)
    (hg : Meets step Guarded (init m root size) as) :
    ∃ s, exec step (init m root size) as = some s ∧ Safe s := by
  obtain ⟨s, bs, free, hrun, hi⟩ := run_inv (inv_init hroot hword) hg
  exact ⟨s, hrun, safe_of_inv hi⟩

theorem safe_after_reuse : ∃ s, exec step (init (fun _ => 0) 0x1000 1024)
    [.alloc 8, .alloc 100, .dealloc 0x1010, .store 0x1030 7, .alloc 300, .expand 1024, .alloc 6] = some s ∧ Safe s :=
  safe_of_guarded (by decide) (by decide) (by decide)

/-- The block at 0x1018 is the best one so far when it is merged into the one in front of it. -/
theorem best_merged_away : ∃ s, exec step (init (fun _ => 0) 0x1000 1024)
    [.alloc 8, .alloc 100, .alloc 4, .dealloc 0x1010, .dealloc 0x1028, .alloc 50, .alloc 124] = some s ∧
    Meets step Permitted (init (fun _ => 0) 0x1000 1024)
      [.alloc 8, .alloc 100, .alloc 4, .dealloc 0x1010, .dealloc 0x1028, .alloc 50, .alloc 124] ∧ ¬Safe s := by
  have hrun : (exec step (init (fun _ => 0) 0x1000 1024)
      [.alloc 8, .alloc 100, .alloc 4, .dealloc 0x1010, .dealloc 0x1028, .alloc 50, .alloc 124]).map
        (fun s => (s.live, payload s 0x1010, payload s 0x1028)) = some ([0x1010, 0x1028, 0x1090 + 12], 124, 52) := by
    decide
  obtain ⟨s, hs, hstate⟩ := Option.map_eq_some_iff.mp hrun
  refine ⟨s, hs, by decide, fun hsafe => ?_⟩
  obtain ⟨hlive, hfirst, -⟩ : s.live = _ ∧ payload s 0x1010 = 124 ∧ payload s 0x1028 = 52 := by
    simpa only [Prod.mk.injEq] using hstate
  have hdisjoint := hsafe.disjoint
  rw [hlive] at hdisjoint
  have hpair := (List.pairwise_cons.mp hdisjoint).1 0x1028 List.mem_cons_self
  omega

end Start

end Eedox.UserHeapRuns
