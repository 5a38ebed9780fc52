import Eedox.UserHeapRuns

namespace Eedox.UserRealloc

open Library.Bytes Library.Words Library.Blocks Library.DoublyLinked Library.Runs UserHeap UserHeapShape
open UserHeapTiling UserHeapSteps UserHeapCalls UserHeapSearch UserHeapRuns

/-- The most room that unused blocks in a row have from `a` on; what is untouched lies behind the last block. -/
def roomFrom (h : Heap) : ℕ → ℕ → ℕ → ℕ
  | 0, _, acc => acc
  | fuel + 1, a, acc =>
    let next := objectHeaderNext h.mem a
    if objectHeaderIsNull h a then acc + heapUntouchedMemory h
    else if (header h.mem a).used = 0 then roomFrom h fuel next (acc + (headerSize + (header h.mem a).size))
    else max acc (roomFrom h fuel next 0)

def heapRoom (h : Heap) : ℕ := roomFrom h (h.brk + 1) h.root 0

/-- `heap_alloc` finds no room for a block, also where the size of one wraps around. -/
def NoRoom (h : Heap) (size : ℕ) : Prop :=
  heapRoom h < headerSize + size ∧
    (size + headerSize < 2 ^ 32 ∨ heapUntouchedMemory h < add32 size headerSize)

/-- The nodes that one reaches along the free list. -/
inductive OnFreeList (h : Heap) : ℕ → Prop
  | head : h.free ≠ 0 → OnFreeList h h.free
  | next {a : ℕ} : OnFreeList h a → (header h.mem a).nextFree ≠ 0 → OnFreeList h (header h.mem a).nextFree

def ListsUnused (h : Heap) : Prop := ∀ a, OnFreeList h a ↔ IsHeader h a ∧ (header h.mem a).used = 0

inductive Call
  | base (a : Action)
  | realloc (pointer : ℕ) (size : UInt32)

/-- Each turn of the loop of `heap_realloc` inside the heap takes in a header. -/
def step (s : State) : Call → Option State
  | .base a => UserHeapRuns.step s a
  | .realloc p n => (heapRealloc (s.heap.size + 2) s.heap p n.toNat 4).map fun r =>
      ⟨r.1, if r.2 = 0 then if n = 0 then s.live.erase p else s.live else r.2 :: s.live.erase p⟩

def Untouched (s s' : State) (q : ℕ) : Prop :=
  payload s' q = payload s q ∧ ∀ i < payload s q, s'.heap.mem (q + i) = s.heap.mem (q + i)

/-- The block is large enough, or it is followed by one in use and there is no room to move to. -/
def StaysInPlace (s : State) (p n : ℕ) : Prop :=
  n = 0 ∨ (n + 3 < 2 ^ 32 ∧ (alignment n 4 ≤ payload s p ∨
    ((header s.heap.mem (objectHeaderNext s.heap.mem (p - headerSize))).used ≠ 0 ∧ NoRoom s.heap (alignment n 4))))

def Guarded (s : State) : Call → Prop
  | .base a => UserHeapRuns.Guarded s a
  | .realloc p n => p ∈ s.live ∧ StaysInPlace s p n.toNat

/-- What a call of `heap_realloc` is to do. -/
def Reallocates (s : State) (p n : ℕ) : Prop :=
  ∃ fuel h r, heapRealloc fuel s.heap p n 4 = some (h, r) ∧ ListsUnused h ∧
    ((r = 0 ∧ ∀ q ∈ s.live, Untouched s ⟨h, s.live⟩ q) ∨
      (r ≠ 0 ∧ IsHeader h (r - headerSize) ∧ (header h.mem (r - headerSize)).used ≠ 0 ∧ n ≤ payload ⟨h, s.live⟩ r ∧
        (∀ i < min (payload s p) n, h.mem (r + i) = s.heap.mem (p + i)) ∧
        ∀ q ∈ s.live, q ≠ p → Untouched s ⟨h, s.live⟩ q))

def KeepsContents (s : State) : Call → Prop
  | .base _ => True
  | .realloc p n => n ≠ 0 → Reallocates s p n.toNat

instance (h : Heap) (size : ℕ) : Decidable (NoRoom h size) := inferInstanceAs (Decidable (_ ∧ (_ ∨ _)))

instance (s : State) (p n : ℕ) : Decidable (StaysInPlace s p n) :=
  inferInstanceAs (Decidable (_ ∨ _ ∧ (_ ∨ _ ∧ NoRoom _ _)))

instance (s : State) (a : Call) : Decidable (Guarded s a) :=
  match a with
  | .base a => inferInstanceAs (Decidable (UserHeapRuns.Guarded s a))
  | .realloc p n => inferInstanceAs (Decidable (p ∈ s.live ∧ StaysInPlace s p n.toNat))

section Fuel

theorem absorbFrom_succ {fuel : ℕ} {m : Mem} {a size : ℕ} {x : Mem × Bool} (h : absorbFrom fuel m a size = some x) :
    absorbFrom (fuel + 1) m a size = some x := by
  induction fuel generalizing m with
  | zero => cases h
  | succ fuel ih =>
    unfold absorbFrom at h ⊢
    split_ifs at h ⊢ with hsize hused
    · exact h
    · exact ih h
    · exact h

theorem heapRealloc_succ {fuel : ℕ} {h : Heap} {p n align : ℕ} {x : Heap × ℕ}
    (hr : heapRealloc fuel h p n align = some x) : heapRealloc (fuel + 1) h p n align = some x := by
  induction fuel generalizing h n with
  | zero => cases hr
  | succ fuel ih =>
    unfold heapRealloc at hr ⊢
    simp only at hr ⊢
    split_ifs at hr ⊢ with hzero heq hlt
    · exact hr
    · exact hr
    · exact hr
    · obtain ⟨⟨m, fits⟩, habsorb, hrest⟩ := Option.bind_eq_some_iff.mp hr
      refine Option.bind_eq_some_iff.mpr ⟨(m, fits), absorbFrom_succ habsorb, ?_⟩
      cases fits with
      | true =>
        rw [if_pos rfl] at hrest ⊢
        exact ih hrest
      | false => exact hrest

theorem heapRealloc_le {fuel fuel' : ℕ} {h : Heap} {p n align : ℕ} {x : Heap × ℕ} (hle : fuel ≤ fuel')
    (hr : heapRealloc fuel h p n align = some x) : heapRealloc fuel' h p n align = some x :=
  Nat.le_induction hr (fun _ _ => heapRealloc_succ) fuel' hle

/-- A call that returns does so in one way. -/
theorem heapRealloc_unique {fuel fuel' : ℕ} {h : Heap} {p n align : ℕ} {x y : Heap × ℕ}
    (hx : heapRealloc fuel h p n align = some x) (hy : heapRealloc fuel' h p n align = some y) : x = y := by
  have hx' := heapRealloc_le (Nat.le_max_left fuel fuel') hx
  have hy' := heapRealloc_le (Nat.le_max_right fuel fuel') hy
  exact Option.some.inj (hx'.symm.trans hy')

end Fuel

section Room

variable {h : Heap} {bs cs : List Block} {free : List ℕ}

theorem roomFrom_eq (ht : Tiled h (cs ++ bs)) {fuel : ℕ} (hf : bs.length < fuel) (acc : ℕ) :
    roomFrom h fuel (h.root + extent 16 cs) acc = row 16 (h.size - h.brk) acc bs := by
  induction bs generalizing cs fuel acc with
  | nil =>
    cases fuel with
    | zero => omega
    | succ fuel =>
      have hnull : objectHeaderIsNull h (h.root + extent 16 cs) = true := by
        rw [List.append_nil] at ht
        rw [objectHeaderIsNull, ht.end_eq, ht.fills]
        exact decide_eq_true le_rfl
      unfold roomFrom
      rw [if_pos hnull, ht.untouched_eq]
      rfl
  | cons b bs ih =>
    cases fuel with
    | zero => omega
    | succ fuel =>
      have hnot : ¬objectHeaderIsNull h (h.root + extent 16 cs) = true := by
        have hbound := ht.bounded
        rw [objectHeaderIsNull, ht.end_eq, decide_eq_true_eq]
        omega
      have hrest (acc : ℕ) : roomFrom h fuel (h.root + extent 16 cs + (16 + b.size)) acc =
          row 16 (h.size - h.brk) acc bs := by
        rw [List.append_cons] at ht
        have hgo := ih ht (by simpa using hf) acc
        rwa [extent_append, extent_cons, extent_nil, Nat.add_zero, ← Nat.add_assoc] at hgo
      unfold roomFrom
      simp only [ht.next_eq, ht.header_eq]
      rw [if_neg hnot, headerSize, hrest, hrest]
      by_cases hb : b.request = none
      · rw [if_pos (flag_none hb), row_free _ _ _ hb]
      · rw [if_neg fun hf => hb (flag_eq_zero.mp hf), row_used _ _ _ hb]

theorem heapRoom_eq (hs : Shaped h bs free) : heapRoom h = row 16 (h.size - h.brk) 0 bs := by
  have hlen := length_extent (w := 16) bs
  rw [← hs.tiled.fills] at hlen
  exact @roomFrom_eq h bs [] hs.tiled _ (by omega) 0

theorem isHeader_of_mem (hs : Shaped h bs free) {a : ℕ} (ha : a ∈ heads h.root bs) : IsHeader h a := by
  have ht := hs.tiled
  obtain ⟨cs, b, ds, hbs, rfl⟩ := mem_heads.mp ha
  clear ha
  induction cs using List.reverseRecOn generalizing b ds with
  | nil =>
    subst hbs
    have hbound := ht.bounded
    refine IsHeader.root ?_
    rw [objectHeaderIsNull, ht.end_eq]
    exact decide_eq_false (by omega)
  | append_singleton cs c ih =>
    rw [List.append_assoc, List.singleton_append] at hbs
    have hprev := ih c (b :: ds) hbs
    subst hbs
    have hnext := IsHeader.next hprev (by rw [ht.next_eq]; exact ht.not_null)
    rw [ht.next_eq] at hnext
    rwa [extent_append, extent_cons, extent_nil, Nat.add_zero, ← Nat.add_assoc]

theorem onFreeList_iff (hs : Shaped h bs free) (a : ℕ) : OnFreeList h a ↔ a ∈ free := by
  constructor
  · intro ha
    induction ha with
    | head hf => exact hs.free_mem hf
    | next _ hn ih => exact hs.nextFree_mem ih hn
  · exact hs.listed.forall_mem OnFreeList.head (fun _ _ => OnFreeList.next) a

theorem lists_unused (hs : Shaped h bs free) : ListsUnused h := by
  have ht := hs.tiled
  intro a
  rw [onFreeList_iff hs, hs.perm.mem_iff, mem_holes_iff]
  constructor
  · rintro ⟨cs, b, ds, rfl, hb, rfl⟩
    exact ⟨isHeader_of_mem hs head_mem, by rw [ht.header_eq.2, flag_none hb]⟩
  · rintro ⟨hheader, hused⟩
    obtain ⟨cs, b, ds, rfl, rfl⟩ := mem_heads.mp (isHeader_mem hs hheader)
    rw [ht.header_eq.2] at hused
    exact ⟨cs, b, ds, rfl, flag_eq_zero.mp hused, rfl⟩

end Room

section Calls

variable {s : State} {h : Heap} {bs cs ds : List Block} {b : Block} {free : List ℕ} {p n size : ℕ}

theorem untouched_of_mem {bs' : List Block} {free' : List ℕ} (hs : Shaped s.heap bs free) (hs' : Shaped h bs' free')
    {q : ℕ × ℕ} (hq : q ∈ inUse 16 s.heap.root bs) (hq' : q ∈ inUse 16 h.root bs')
    (hbytes : ∀ x, q.1 ≤ x → x < q.1 + q.2 → h.mem x = s.heap.mem x) : Untouched s ⟨h, s.live⟩ q.1 := by
  have hold := payload_of_mem hs hq
  have hnew := @payload_of_mem ⟨h, s.live⟩ bs' free' hs' q hq'
  refine ⟨hnew.trans hold.symm, fun i hi => ?_⟩
  rw [hold] at hi
  exact hbytes _ (by omega) (by omega)

/-- A block in use is cut down in place. -/
theorem trySplit_used (hs : Shaped h (cs ++ b :: ds) free) (hb : b.request = some b.size) (ha : size % 4 = 0)
    (hle : size ≤ b.size) : ∃ k bs' free', size ≤ k ∧ k ≤ b.size ∧
      Shaped (objectHeaderTrySplit h (h.root + extent 16 cs) size) bs' free' ∧
      (objectHeaderTrySplit h (h.root + extent 16 cs) size).root = h.root ∧
      inUse 16 h.root bs' = inUse 16 h.root cs ++ (h.root + extent 16 cs + 16, k) ::
        inUse 16 (h.root + extent 16 cs + (16 + b.size)) ds ∧
      ∀ q ∈ inUse 16 h.root bs', ∀ x, q.1 ≤ x → x < q.1 + q.2 →
        (objectHeaderTrySplit h (h.root + extent 16 cs) size).mem x = h.mem x := by
  obtain ⟨k, rest, free', hcut, hshaped⟩ := trySplit_spec hs ha hle
  refine ⟨k, _, free', hcut.enough, hcut.within, hshaped, hcut.root, ?_, fun q hq x hlow hhigh => ?_⟩
  · rw [resized, hcut.inUse_eq, hb]
    rfl
  · rw [← hcut.root] at hq
    refine hcut.writes x fun a hmem => ?_
    rw [← hcut.root] at hmem
    have hapart := Tiled.payload_apart hshaped.tiled hq hmem
    omega

theorem alignment_again (hn : n + 3 < 2 ^ 32) : alignment (alignment n 4) 4 = alignment n 4 := by
  have h1 := @alignment_four n (by omega)
  have h2 := @alignment_four (alignment n 4) (by omega)
  omega

theorem header_of_pointer (hi : Inv s (cs ++ b :: ds) free) :
    objectHeaderFromPointer (s.heap.root + extent 16 cs + 16) = s.heap.root + extent 16 cs := by
  have hbound := hi.shaped.tiled.bounded
  have hroom := hi.shaped.tiled.room
  have hword := hi.shaped.tiled.word
  unfold objectHeaderFromPointer headerSize
  rw [sub32_of_le (by omega) (by omega)]
  omega

/-- What a call leaves behind that is as it is to be. -/
structure Outcome (s : State) (p n : ℕ) (h : Heap) (r : ℕ) (bs : List Block) (free : List ℕ) : Prop where
  inv : Inv ⟨h, if r = 0 then s.live else r :: s.live.erase p⟩ bs free
  done : ∀ fuel, heapRealloc (fuel + 2) s.heap p n 4 = some (h, r)
  keeps : Reallocates s p n

theorem trySplit_self {a : ℕ} (hword : (header h.mem a).size + 16 < 2 ^ 32) :
    objectHeaderTrySplit h a (header h.mem a).size = h := by
  unfold objectHeaderTrySplit headerSize
  by_cases hend : heapIsEnd h a = true
  · rw [if_pos hend, if_neg (Nat.lt_irrefl _)]
  · rw [if_neg hend, if_neg (by rw [add32_of_lt hword]; omega)]

theorem header_of_mem {bs' : List Block} (hs : Shaped h bs' free) {q : ℕ × ℕ} (hq : q ∈ inUse 16 h.root bs') :
    IsHeader h (q.1 - headerSize) ∧ (header h.mem (q.1 - headerSize)).used ≠ 0 := by
  obtain ⟨cs, b, ds, rfl, hb, hplace⟩ := mem_inUse hq
  rw [hplace, headerSize, Nat.add_sub_cancel, hs.tiled.header_eq.2, flag_some hb]
  exact ⟨isHeader_of_mem hs head_mem, Nat.one_ne_zero⟩

theorem realloc_smaller (hi : Inv s (cs ++ b :: ds) free) (hpos : 0 < n) (hle : alignment n 4 ≤ b.size) (fuel : ℕ) :
    heapRealloc (fuel + 1) s.heap (s.heap.root + extent 16 cs + 16) n 4 =
      some (objectHeaderTrySplit s.heap (s.heap.root + extent 16 cs) (alignment n 4),
        s.heap.root + extent 16 cs + 16) := by
  have hsize := hi.shaped.tiled.header_eq.1
  have hbound := hi.shaped.tiled.bounded
  have hroom := hi.shaped.tiled.room
  have hlow := hi.shaped.tiled.low
  have hword := hi.shaped.tiled.word
  unfold heapRealloc
  rw [if_neg (by omega)]
  simp only [header_of_pointer hi, hsize]
  by_cases heq : alignment n 4 = b.size
  · rw [if_pos heq, heq, ← hsize, trySplit_self (by omega)]
  · rw [if_neg heq, if_pos (by omega)]

theorem outcome_smaller (hi : Inv s bs free) (hp : p ∈ s.live) (hpos : 0 < n) (hn : n + 3 < 2 ^ 32)
    (hle : alignment n 4 ≤ payload s p) : ∃ h bs' free', Outcome s p n h p bs' free' := by
  obtain ⟨cs, b, ds, rfl, hb, rfl⟩ := live_place hi hp
  have hs := hi.shaped
  have heq := @alignment_four n (by omega)
  have hlow := hs.tiled.low
  rw [payload_eq hs] at hle
  have hrun := realloc_smaller hi hpos hle
  obtain ⟨k, bs', free', hk, hkb, hshaped, hroot, hinUse, hbytes⟩ := trySplit_used hs hb (by omega) hle
  generalize objectHeaderTrySplit s.heap (s.heap.root + extent 16 cs) (alignment n 4) = h at *
  have hold : inUse 16 s.heap.root (cs ++ b :: ds) = inUse 16 s.heap.root cs ++
      (s.heap.root + extent 16 cs + 16, b.size) :: inUse 16 (s.heap.root + extent 16 cs + (16 + b.size)) ds := by
    rw [inUse_append, inUse_used _ _ hb]
  have hmem : (s.heap.root + extent 16 cs + 16, k) ∈ inUse 16 h.root bs' := by
    rw [hroot, hinUse]
    simp
  have hpayload := @payload_of_mem ⟨h, s.live⟩ bs' free' hshaped _ hmem
  refine ⟨h, bs', free', ⟨hshaped, ?_⟩, fun fuel => hrun (fuel + 1), 1, h, _, hrun 0, lists_unused hshaped,
    Or.inr ⟨by omega, ?_, ?_, ?_, fun i hi => ?_, fun q hq hne => ?_⟩⟩
  · rw [if_neg (by omega)]
    change (_ :: s.live.erase _).Perm ((inUse 16 h.root bs').map Prod.fst)
    refine (List.perm_cons_erase hp).symm.trans (hi.live.trans (List.Perm.of_eq ?_))
    rw [hroot, hinUse, hold]
    simp only [List.map_append, List.map_cons]
  · exact (header_of_mem hshaped hmem).1
  · exact (header_of_mem hshaped hmem).2
  · rw [hpayload]
    simp only
    omega
  · rw [hroot] at hmem
    exact hbytes _ hmem _ (by omega) (by change _ < s.heap.root + extent 16 cs + 16 + k; omega)
  · obtain ⟨x, hx, rfl⟩ := List.mem_map.mp (hi.live.mem_iff.mp hq)
    have hother : x ∈ inUse 16 s.heap.root bs' := by
      rw [hold] at hx
      rw [hinUse]
      rcases List.mem_append.mp hx with hx | hx
      · exact List.mem_append_left _ hx
      · rcases List.mem_cons.mp hx with rfl | hx
        · exact absurd rfl hne
        · exact List.mem_append_right _ (List.mem_cons_of_mem _ hx)
    exact untouched_of_mem hs hshaped hx (by rw [hroot]; exact hother) (hbytes x hother)

theorem outcome_none (hi : Inv s bs free) (hp : p ∈ s.live) (hpos : 0 < n) (hn : n + 3 < 2 ^ 32)
    (hlt : payload s p < alignment n 4)
    (hused : (header s.heap.mem (objectHeaderNext s.heap.mem (p - headerSize))).used ≠ 0)
    (hno : NoRoom s.heap (alignment n 4)) : ∃ h bs' free', Outcome s p n h 0 bs' free' := by
  obtain ⟨cs, b, ds, rfl, hb, rfl⟩ := live_place hi hp
  have hs := hi.shaped
  have heq := @alignment_four n (by omega)
  rw [payload_eq hs] at hlt
  rw [headerSize, Nat.add_sub_cancel] at hused
  obtain ⟨hroom, hwrap⟩ := hno
  rw [heapRoom_eq hs, headerSize] at hroom
  obtain ⟨h, r, halloc, ⟨rfl, ⟨bs', free', hshaped, hkeeps, -⟩, -⟩ | ⟨-, hle, -⟩⟩ :=
    @heapAlloc_cases _ _ _ (alignment n 4) hs (by omega) (by omega) (by rw [alignment_again hn]; exact hwrap)
  · have hrun (fuel : ℕ) :
        heapRealloc (fuel + 2) s.heap (s.heap.root + extent 16 cs + 16) n 4 = some (h, 0) := by
      unfold heapRealloc absorbFrom
      rw [if_neg (by omega)]
      simp only [header_of_pointer hi, hs.tiled.header_eq.1]
      rw [if_neg (by omega), if_neg (by omega), if_neg (by omega), if_neg hused, Option.bind_some]
      simp only [Bool.false_eq_true, if_false]
      rw [halloc, Option.bind_some]
      rfl
    refine ⟨h, bs', free', ⟨hshaped, ?_⟩, hrun, 2, h, 0, hrun 0, lists_unused hshaped,
      Or.inl ⟨rfl, fun q hq => ?_⟩⟩
    · change s.live.Perm ((inUse 16 h.root bs').map Prod.fst)
      rw [hkeeps.payloads]
      exact hi.live
    · obtain ⟨x, hx, rfl⟩ := List.mem_map.mp (hi.live.mem_iff.mp hq)
      exact untouched_of_mem hs hshaped hx (by rw [hkeeps.payloads]; exact hx) (hkeeps.bytes x hx)
  · rw [alignment_again hn] at hle
    omega

/-- A call that stays in place does what it is to do. -/
theorem outcome_of_guarded (hi : Inv s bs free) (hp : p ∈ s.live) (hpos : 0 < n) (hg : StaysInPlace s p n) :
    ∃ h r bs' free', Outcome s p n h r bs' free' := by
  obtain ⟨hn, hg⟩ := hg.resolve_left (by omega)
  by_cases hle : alignment n 4 ≤ payload s p
  · obtain ⟨h, bs', free', ho⟩ := outcome_smaller hi hp hpos hn hle
    exact ⟨h, p, bs', free', ho⟩
  · obtain ⟨hused, hno⟩ := hg.resolve_left hle
    obtain ⟨h, bs', free', ho⟩ := outcome_none hi hp hpos hn (by omega) hused hno
    exact ⟨h, 0, bs', free', ho⟩

theorem inv_step {a : Call} (hi : Inv s bs free) (hg : Guarded s a) :
    ∃ s' bs' free', step s a = some s' ∧ Inv s' bs' free' := by
  cases a with
  | base a => exact UserHeapRuns.inv_step hi hg
  | realloc p n =>
    obtain ⟨hp, hg⟩ := hg
    by_cases hzero : n = 0
    · obtain ⟨bs', free', hi'⟩ := inv_dealloc hi hp
      refine ⟨_, bs', free', ?_, hi'⟩
      rw [hzero, step]
      rfl
    · have hpos : 0 < n.toNat := Nat.pos_of_ne_zero fun h => hzero (UInt32.toNat_inj.mp h)
      obtain ⟨h, r, bs', free', ho⟩ := outcome_of_guarded hi hp hpos hg
      have hinv := ho.inv
      refine ⟨⟨h, if r = 0 then s.live else r :: s.live.erase p⟩, bs', free', ?_, hinv⟩
      rw [step, ho.done, Option.map_some, if_neg hzero]

end Calls

section Runs

variable {m : Mem} {root size : ℕ}

theorem keepsContents_of_inv {s : State} {a : Call} (hi : ∃ bs free, Inv s bs free) (hg : Guarded s a) :
    KeepsContents s a := by
  obtain ⟨bs, free, hi⟩ := hi
  cases a with
  | base a => trivial
  | realloc p n =>
    intro hn
    have hpos : 0 < n.toNat := Nat.pos_of_ne_zero fun h => hn (UInt32.toNat_inj.mp h)
    obtain ⟨h, r, bs', free', ho⟩ := outcome_of_guarded hi hg.1 hpos hg.2
    exact ho.keeps

theorem keepsContents_of_guarded {as : List Call} (hroot : 0 < root) (hword : root + size < 2 ^ 32)
    (hg : Meets step Guarded (init m root size) as) : Meets step KeepsContents (init m root size) as := by
  have hpreserve (s : State) (a : Call) (t : State) (hi : ∃ bs free, Inv s bs free) (hg : Guarded s a)
      (ht : step s a = some t) : ∃ bs free, Inv t bs free := by
    obtain ⟨bs, free, hi⟩ := hi
    obtain ⟨u, bs', free', hu, hi'⟩ := inv_step hi hg
    obtain rfl : u = t := Option.some.inj (hu.symm.trans ht)
    exact ⟨bs', free', hi'⟩
  exact meets_imp hpreserve (fun s a hi hg => keepsContents_of_inv hi hg) ⟨[], [], inv_init hroot hword⟩ hg

theorem keepsContents_after_store : Meets step KeepsContents (init (fun _ => 0) 0x1000 256)
    [.base (.alloc 40), .base (.alloc 4), .base (.alloc 4), .base (.store 0x1010 7), .realloc 0x1010 6,
      .realloc 0x1048 200, .realloc 0x1010 0] :=
  keepsContents_of_guarded (by decide) (by decide) (by decide)

/-- What is at the new place is copied over what was at the old one. -/
theorem contents_lost : ∃ s, exec step (init (fun _ => 0) 0x1000 1024)
    [.base (.alloc 8), .base (.alloc 4), .base (.store 0x1010 7)] = some s ∧
    Meets step Guarded (init (fun _ => 0) 0x1000 1024)
      [.base (.alloc 8), .base (.alloc 4), .base (.store 0x1010 7)] ∧
    0x1010 ∈ s.live ∧ ¬KeepsContents s (.realloc 0x1010 20) := by
  have hrun : ((exec step (init (fun _ => 0) 0x1000 1024)
      [.base (.alloc 8), .base (.alloc 4), .base (.store 0x1010 7)]).bind fun s =>
        (heapRealloc 2 s.heap 0x1010 20 4).map fun r =>
          (s.live, payload s 0x1010, s.heap.mem 0x1010, r.2, r.1.mem r.2)) =
      some ([0x1028, 0x1010], 8, 7, 0x103c, 0) := by
    decide
  obtain ⟨s, hs, hcall⟩ := Option.bind_eq_some_iff.mp hrun
  obtain ⟨⟨h, r⟩, hcall, hstate⟩ := Option.map_eq_some_iff.mp hcall
  simp only [Prod.mk.injEq] at hstate
  obtain ⟨hlive, hpayload, hold, rfl, hnew⟩ := hstate
  refine ⟨s, hs, by decide, by rw [hlive]; simp, fun hkeeps => ?_⟩
  obtain ⟨fuel, h', r', hcall', -, hresult⟩ := hkeeps (by decide)
  obtain ⟨rfl, rfl⟩ := Prod.mk.inj (heapRealloc_unique hcall hcall')
  rcases hresult with ⟨hr, -⟩ | ⟨-, -, -, -, hbytes, -⟩
  · omega
  · have hfirst := hbytes 0 (by rw [hpayload]; decide)
    rw [Nat.add_zero, Nat.add_zero, hold, hnew] at hfirst
    exact absurd hfirst (by decide)

end Runs

end Eedox.UserRealloc
