import Eedox.UserHeapTiling

namespace Eedox.UserHeapSteps

open Library.Bytes Library.Words Library.Blocks Library.DoublyLinked UserHeap UserHeapShape UserHeapTiling

/-- Sizes and flags are as before. -/
def SameTiles (hs : List ℕ) (m m' : Mem) : Prop :=
  ∀ x ∈ hs, (header m' x).size = (header m x).size ∧ (header m' x).used = (header m x).used

section Lists

variable {h : Heap} {a : ℕ} {hs free : List ℕ}

theorem removeFree_spec (hclear : ∀ x ∈ hs, ∀ y ∈ hs, Clear x y) (h0 : 0 ∉ hs) (hsub : ∀ x ∈ free, x ∈ hs)
    (hnodup : free.Nodup) (hl : Listed h free) (ha : a ∈ free) :
    SameTiles hs h.mem (heapRemoveFree h a).mem ∧ Listed (heapRemoveFree h a) (free.erase a) ∧
      Writes hs h.mem (heapRemoveFree h a).mem := by
  have hnext : (header h.mem a).nextFree ≠ 0 → (header h.mem a).nextFree ∈ hs := fun hn =>
    hsub _ ((hl.prev_next ha).resolve_left hn).1
  have hprev : (header h.mem a).prevFree ≠ 0 → (header h.mem a).prevFree ∈ hs := fun hp =>
    hsub _ ((hl.next_prev ha).resolve_left fun hstart => hp hstart.2).1
  have hheader (x : ℕ) (hx : x ∈ hs) := header_removeFree hclear h0 (hsub a ha) hx hnext hprev
  refine ⟨fun x hx => by rw [hheader x hx]; exact ⟨rfl, rfl⟩, ?_, writes_removeFree (hsub a ha) hnext hprev⟩
  refine Linked.remove hl hnodup ha (fun x hx hxa => ?_) fun x hx hxa => ?_
  · rw [hheader x (hsub x hx)]
    exact if_neg hxa
  · rw [hheader x (hsub x hx)]
    exact if_neg hxa

theorem addFree_spec (hclear : ∀ x ∈ hs, ∀ y ∈ hs, Clear x y) (h0 : 0 ∉ hs) (hword : ∀ x ∈ hs, x < 2 ^ 32)
    (hsub : ∀ x ∈ free, x ∈ hs) (hnodup : free.Nodup) (hl : Listed h free) (ha : a ∈ hs) (hnew : a ∉ free) :
    SameTiles hs h.mem (heapAddFree h a).mem ∧ Listed (heapAddFree h a) (a :: free) ∧
      Writes hs h.mem (heapAddFree h a).mem := by
  have hfree : h.free ≠ 0 → h.free ∈ free := fun hf => by
    cases free with
    | nil => exact absurd hl hf
    | cons x free =>
      rw [hl.1]
      exact List.mem_cons_self
  have ha0 : a ≠ 0 := fun heq => h0 (heq ▸ ha)
  have hafree : a ≠ h.free := fun heq => hnew (heq ▸ hfree fun hf => ha0 (heq.trans hf))
  have hheader (x : ℕ) (hx : x ∈ hs) := header_addFree hclear h0 ha hx hword fun hf => hsub _ (hfree hf)
  refine ⟨fun x hx => by rw [hheader x hx]; exact ⟨rfl, rfl⟩, ?_, writes_addFree ha fun hf => hsub _ (hfree hf)⟩
  have hne (x : ℕ) (hx : x ∈ free) : x ≠ a := fun heq => hnew (heq ▸ hx)
  change Linked _ _ 0 a (a :: free)
  refine Linked.push hl hnodup ha0 ?_ ?_ (fun x hx => ?_) fun x hx => ?_
  · rw [hheader a ha]
    exact if_pos rfl
  · rw [hheader a ha]
    change (if a = h.free then a else if a = a then 0 else _) = 0
    rw [if_neg hafree, if_pos rfl]
  · rw [hheader x (hsub x hx)]
    exact if_neg (hne x hx)
  · rw [hheader x (hsub x hx)]
    exact if_congr Iff.rfl rfl (if_neg (hne x hx))

end Lists

/-- The payloads in use, and what is in them, are as before. -/
structure Keeps (h h' : Heap) (bs bs' : List Block) : Prop where
  root : h'.root = h.root
  size : h'.size = h.size
  payloads : inUse 16 h'.root bs' = inUse 16 h.root bs
  bytes : ∀ q ∈ inUse 16 h.root bs, ∀ x, q.1 ≤ x → x < q.1 + q.2 → h'.mem x = h.mem x

theorem Keeps.refl (h : Heap) (bs : List Block) : Keeps h h bs bs := ⟨rfl, rfl, rfl, fun _ _ _ _ _ => rfl⟩

theorem Keeps.trans {h h' h'' : Heap} {bs bs' bs'' : List Block} (hk : Keeps h h' bs bs')
    (hk' : Keeps h' h'' bs' bs'') : Keeps h h'' bs bs'' := by
  refine ⟨hk'.root.trans hk.root, hk'.size.trans hk.size, hk'.payloads.trans hk.payloads, fun q hq x hlow hhigh => ?_⟩
  rw [hk'.bytes q (by rw [hk.payloads]; exact hq) x hlow hhigh, hk.bytes q hq x hlow hhigh]

section Payloads

variable {h : Heap} {bs : List Block} {free : List ℕ}

theorem Tiled.payload_apart (ht : Tiled h bs) {q : ℕ × ℕ} (hq : q ∈ inUse 16 h.root bs) {a : ℕ}
    (ha : a ∈ heads h.root bs) : q.1 + q.2 ≤ a ∨ a + 16 ≤ q.1 := by
  obtain ⟨cs, b, ds, rfl, hb, hplace⟩ := mem_inUse hq
  have hsize := ht.whole b (by simp) q.2 hb
  obtain ⟨p, hp, rfl⟩ := List.mem_map.mp ha
  rcases places_distinct (place_mem h.root cs ds b) hp with heq | hbefore | hafter
  · rw [← heq, hplace]
    exact Or.inr le_rfl
  · change h.root + extent 16 cs + (16 + b.size) ≤ p.1 at hbefore
    exact Or.inl (by omega)
  · change p.1 + (16 + p.2.size) ≤ h.root + extent 16 cs at hafter
    exact Or.inr (by omega)

theorem Tiled.bytes_kept (ht : Tiled h bs) {m : Mem} (hw : Writes (heads h.root bs) h.mem m) {q : ℕ × ℕ}
    (hq : q ∈ inUse 16 h.root bs) {x : ℕ} (hlow : q.1 ≤ x) (hhigh : x < q.1 + q.2) : m x = h.mem x :=
  hw x fun a ha => by
    have hapart := Tiled.payload_apart ht hq ha
    omega

theorem Shaped.clear (_ : Shaped h bs free) : ∀ x ∈ heads h.root bs, ∀ y ∈ heads h.root bs, Clear x y :=
  fun _ hx _ hy => heads_clear hx hy

end Payloads

section Operations

variable {h : Heap} {bs ds : List Block} {b n : Block} {free : List ℕ}

theorem inUse_merge {a : ℕ} (hb : b.request = none) (hn : n.request = none) :
    inUse 16 a (bs ++ ⟨b.size + n.size + 16, none⟩ :: ds) = inUse 16 a (bs ++ b :: n :: ds) := by
  rw [inUse_append, inUse_append, inUse_hole _ _ rfl, inUse_hole _ _ hb, inUse_hole _ _ hn]
  have hplace : a + extent 16 bs + (16 + (b.size + n.size + 16)) =
      a + extent 16 bs + (16 + b.size) + (16 + n.size) := by omega
  rw [hplace]

theorem holes_merge {a : ℕ} (hb : b.request = none) (hn : n.request = none) :
    (holes 16 a (bs ++ b :: n :: ds)).Perm ((a + extent 16 bs + (16 + b.size)) ::
      holes 16 a (bs ++ ⟨b.size + n.size + 16, none⟩ :: ds)) := by
  rw [List.append_cons bs b]
  refine (holes_hole a (bs ++ [b]) ds hn).trans ?_
  rw [extent_append, extent_cons, extent_nil, Nat.add_zero, ← Nat.add_assoc]
  refine List.Perm.cons _ ?_
  have hplace : a + extent 16 bs + (16 + (b.size + n.size + 16)) =
      a + extent 16 bs + (16 + b.size) + (16 + n.size) := by omega
  rw [holes_append, holes_append, holes_cons, if_pos (by simp [hb]), holes_cons, if_pos (by simp), hplace, holes_nil,
    List.append_assoc, List.singleton_append]

/-- What a turn of the search does that merges a block with the one behind it. -/
def merged (h : Heap) (a : ℕ) : Heap :=
  heapRemoveFree { h with mem := objectHeaderMerge h.mem a } (objectHeaderNext h.mem a)

/-- Two free neighbours become one free block. -/
theorem Shaped.merge (hs : Shaped h (bs ++ b :: n :: ds) free) (hb : b.request = none) (hn : n.request = none) :
    Shaped (merged h (h.root + extent 16 bs)) (bs ++ ⟨b.size + n.size + 16, none⟩ :: ds)
      (free.erase (h.root + extent 16 bs + (16 + b.size))) ∧
    Keeps h (merged h (h.root + extent 16 bs)) (bs ++ b :: n :: ds) (bs ++ ⟨b.size + n.size + 16, none⟩ :: ds) ∧
    ∀ x ∈ heads h.root (bs ++ b :: n :: ds), (header (merged h (h.root + extent 16 bs)).mem x).used =
      (header h.mem x).used ∧ (x ≠ h.root + extent 16 bs →
        (header (merged h (h.root + extent 16 bs)).mem x).size = (header h.mem x).size) := by
  have ht := hs.tiled
  have hbound := ht.bounded
  have hroom := ht.room
  have hword := ht.word
  have hba := ht.aligned b (by simp)
  have hna := ht.aligned n (by simp)
  rw [extent_cons] at hbound
  have hnext := hs.second_mem hn
  have hmerge : objectHeaderMerge h.mem (h.root + extent 16 bs) =
      objectHeaderSetSize h.mem (h.root + extent 16 bs) (b.size + n.size + 16) := by
    simp only [objectHeaderMerge, headerSize]
    rw [ht.next_eq, ht.header_eq.1, ht.second.1, @add32_of_lt b.size _ (by omega), add32_of_lt (by omega)]
  unfold merged
  rw [ht.next_eq, hmerge]
  have hheader (x : ℕ) (hx : x ∈ heads h.root (bs ++ b :: n :: ds)) :=
    @header_setSize h.mem _ x (b.size + n.size + 16) (heads_clear head_mem hx)
  have hlisted : Listed { h with mem := objectHeaderSetSize h.mem (h.root + extent 16 bs) (b.size + n.size + 16) }
      free := hs.listed.of_links rfl fun x hx => by
    rw [hheader x (hs.subset hx)]
    exact ⟨rfl, rfl⟩
  obtain ⟨htiles, hlisted, hwrites⟩ := removeFree_spec (Shaped.clear hs) ht.zero_notMem (fun x hx => hs.subset hx)
    hs.nodup hlisted hnext
  have hwrites := Writes.trans (writes_setSize head_mem) hwrites
  have hothers (x : ℕ) (hx : x ∈ heads h.root (bs ++ b :: n :: ds)) : (header (heapRemoveFree { h with
      mem := objectHeaderSetSize h.mem (h.root + extent 16 bs) (b.size + n.size + 16) }
      (h.root + extent 16 bs + (16 + b.size))).mem x).used = (header h.mem x).used ∧
      (x ≠ h.root + extent 16 bs → (header (heapRemoveFree { h with
        mem := objectHeaderSetSize h.mem (h.root + extent 16 bs) (b.size + n.size + 16) }
        (h.root + extent 16 bs + (16 + b.size))).mem x).size = (header h.mem x).size) := by
    obtain ⟨hsize, hused⟩ := htiles x hx
    rw [hsize, hused, hheader x hx]
    exact ⟨rfl, fun hxa => if_neg hxa⟩
  refine ⟨⟨?_, hlisted, ?_⟩, ⟨rfl, rfl, inUse_merge hb hn, fun q hq x hlow hhigh =>
    Tiled.bytes_kept ht hwrites hq hlow hhigh⟩, hothers⟩
  · refine Tiled.replace [b, n] [⟨b.size + n.size + 16, none⟩] ht (by simp) rfl rfl ?_ hroom ?_ ?_
      ?_ fun x hx hxa => ⟨(hothers x hx).2 hxa, (hothers x hx).1⟩
    · change h.brk = _
      simp only [extent_append, extent_cons, extent_nil]
      omega
    · refine Or.inr ?_
      simp only [extent_cons, extent_nil]
      omega
    · refine rep_cons.mpr ⟨⟨?_, ?_⟩, rep_nil⟩
      · rw [(htiles _ head_mem).1, hheader _ head_mem]
        change (if _ = _ then _ else _) = b.size + n.size + 16
        rw [if_pos rfl, Nat.mod_eq_of_lt (by omega)]
      · rw [(hothers _ head_mem).1]
        exact ht.header_eq.2.trans (flag_none hb)
    · intro c hc
      rw [List.mem_singleton.mp hc]
      exact ⟨by change (b.size + n.size + 16) % 4 = 0; omega, fun _ hr => nomatch hr⟩
  · exact ((List.perm_cons_erase hnext).symm.trans (hs.perm.trans (holes_merge hb hn))).cons_inv

/-- The block with another size, still in use or still free. -/
def resized (b : Block) (size : ℕ) : Block := ⟨size, b.request.map fun _ => size⟩

theorem resized_aligned {size : ℕ} (ha : size % 4 = 0) :
    ∀ c ∈ [resized b size], c.size % 4 = 0 ∧ ∀ n ∈ c.request, n = c.size := by
  intro c hc
  rw [List.mem_singleton.mp hc]
  refine ⟨ha, fun n hn => ?_⟩
  obtain ⟨-, -, rfl⟩ := Option.map_eq_some_iff.mp hn
  rfl

theorem resized_none {size : ℕ} : (resized b size).request = none ↔ b.request = none := Option.map_eq_none_iff

theorem flag_resized {size : ℕ} : flag (resized b size) = flag b := by
  unfold flag resized
  cases b.request <;> rfl

theorem holes_resized {a size : ℕ} : holes 16 a (bs ++ [resized b size]) = holes 16 a (bs ++ [b]) := by
  rw [holes_append, holes_append, holes_cons, holes_cons]
  simp only [Option.isNone_iff_eq_none, resized_none, holes_nil]

/-- The last block of the heap gets another size. -/
theorem Shaped.resize_last (size brk : ℕ) (hs : Shaped h (bs ++ [b]) free) (ha : size % 4 = 0)
    (hbrk : brk = extent 16 bs + (16 + size)) (hroom : brk ≤ h.size) :
    Shaped { h with brk := brk, mem := objectHeaderSetSize h.mem (h.root + extent 16 bs) size }
      (bs ++ [resized b size]) free := by
  have ht := hs.tiled
  have hword := ht.word
  have hheader (x : ℕ) (hx : x ∈ heads h.root (bs ++ [b])) :=
    @header_setSize h.mem _ x size (heads_clear head_mem hx)
  refine ⟨?_, ?_, ?_⟩
  · refine Tiled.replace [b] [resized b size] ht (by simp) rfl rfl ?_ hroom (Or.inl rfl) ?_ (resized_aligned ha)
      fun x hx hxa => ?_
    · change brk = _
      simp only [extent_append, extent_cons, extent_nil, resized]
      omega
    · refine rep_cons.mpr ⟨?_, rep_nil⟩
      rw [hheader _ head_mem, flag_resized]
      refine ⟨?_, ht.header_eq.2⟩
      change (if _ = _ then _ else _) = size
      rw [if_pos rfl, Nat.mod_eq_of_lt (by omega)]
    · rw [hheader x hx]
      exact ⟨if_neg hxa, rfl⟩
  · refine hs.listed.of_links rfl fun x hx => ?_
    rw [hheader x (hs.subset hx)]
    exact ⟨rfl, rfl⟩
  · change free.Perm (holes 16 h.root (bs ++ [resized b size]))
    rw [holes_resized]
    exact hs.perm

/-- One block changes its flag. -/
theorem Tiled.reflag {h' : Heap} {used : UInt8} {r : Option ℕ} (ht : Tiled h (bs ++ b :: ds)) (hroot : h'.root = h.root)
    (hsize : h'.size = h.size) (hbrk : h'.brk = h.brk)
    (htiles : SameTiles (heads h.root (bs ++ b :: ds)) (objectHeaderSetUsed h.mem (h.root + extent 16 bs) used) h'.mem)
    (hused : used.toNat = flag ⟨b.size, r⟩) (hr : ∀ n ∈ r, n = b.size) : Tiled h' (bs ++ ⟨b.size, r⟩ :: ds) := by
  have hheader (x : ℕ) (hx : x ∈ heads h.root (bs ++ b :: ds)) :=
    @header_setUsed h.mem _ x used (heads_clear head_mem hx)
  refine Tiled.replace [b] [⟨b.size, r⟩] ht (by simp) hroot hsize ?_ (by rw [hbrk]; exact ht.room) (Or.inr rfl) ?_ ?_
    fun x hx hxa => ?_
  · rw [hbrk, ht.fills, extent_append, extent_append]
    rfl
  · obtain ⟨hsame, hflag⟩ := htiles _ head_mem
    refine rep_cons.mpr ⟨⟨?_, ?_⟩, rep_nil⟩
    · rw [hsame, hheader _ head_mem]
      exact ht.header_eq.1
    · rw [hflag, hheader _ head_mem]
      exact (if_pos rfl).trans hused
  · intro c hc
    rw [List.mem_singleton.mp hc]
    exact ⟨ht.aligned b (by simp), hr⟩
  · obtain ⟨hsame, hflag⟩ := htiles x hx
    rw [hsame, hflag, hheader x hx]
    exact ⟨rfl, if_neg hxa⟩

/-- What `heap_alloc` does with the block that it hands out. -/
def claimed (h : Heap) (a : ℕ) : Heap := heapRemoveFree { h with mem := objectHeaderSetUsed h.mem a 1 } a

/-- A free block is taken into use. -/
theorem Shaped.claim (hs : Shaped h (bs ++ b :: ds) free) (hb : b.request = none) :
    Shaped (claimed h (h.root + extent 16 bs)) (bs ++ ⟨b.size, some b.size⟩ :: ds)
      (free.erase (h.root + extent 16 bs)) ∧
    Writes (heads h.root (bs ++ b :: ds)) h.mem (claimed h (h.root + extent 16 bs)).mem := by
  unfold claimed
  have ht := hs.tiled
  have hmem := hs.mem_free hb
  have hheader (x : ℕ) (hx : x ∈ heads h.root (bs ++ b :: ds)) :=
    @header_setUsed h.mem _ x 1 (heads_clear head_mem hx)
  have hlisted : Listed { h with mem := objectHeaderSetUsed h.mem (h.root + extent 16 bs) 1 } free :=
    hs.listed.of_links rfl fun x hx => by
      rw [hheader x (hs.subset hx)]
      exact ⟨rfl, rfl⟩
  obtain ⟨htiles, hlisted, hwrites⟩ := removeFree_spec (Shaped.clear hs) ht.zero_notMem (fun x hx => hs.subset hx)
    hs.nodup hlisted hmem
  refine ⟨⟨?_, hlisted, ?_⟩, Writes.trans (writes_setUsed 1 head_mem) hwrites⟩
  · exact Tiled.reflag ht rfl rfl rfl htiles rfl fun n hn => (Option.some.inj hn).symm
  · refine List.Perm.cons_inv ((List.perm_cons_erase hmem).symm.trans (hs.perm.trans ?_))
    rw [show holes 16 _ (bs ++ ⟨b.size, some b.size⟩ :: ds) = _ from holes_used _ bs ds (by simp)]
    exact holes_hole h.root bs ds hb

/-- A block in use is given back. -/
theorem Shaped.release (hs : Shaped h (bs ++ b :: ds) free) (hb : b.request ≠ none) :
    Shaped (heapDealloc h (h.root + extent 16 bs + 16)) (bs ++ ⟨b.size, none⟩ :: ds)
      ((h.root + extent 16 bs) :: free) ∧
    Writes (heads h.root (bs ++ b :: ds)) h.mem (heapDealloc h (h.root + extent 16 bs + 16)).mem := by
  have ht := hs.tiled
  have hbound := ht.bounded
  have hroom := ht.room
  have hword := ht.word
  have hpointer : objectHeaderFromPointer (h.root + extent 16 bs + 16) = h.root + extent 16 bs := by
    unfold objectHeaderFromPointer headerSize
    rw [sub32_of_le (by omega) (by omega)]
    omega
  have hnot : h.root + extent 16 bs ∉ free := by
    intro hmem
    obtain ⟨cs, c, es, heq, hc, hplace⟩ := hs.place hmem
    have hp := place_mem (w := 16) h.root bs ds b
    have hq := place_mem (w := 16) h.root cs es c
    rw [← heq] at hq
    rcases places_distinct hp hq with hsame | hbefore | hafter
    · exact hb (by rw [(Prod.mk.inj hsame).2]; exact hc)
    · change h.root + extent 16 bs + (16 + b.size) ≤ h.root + extent 16 cs at hbefore
      omega
    · change h.root + extent 16 cs + (16 + c.size) ≤ h.root + extent 16 bs at hafter
      omega
  unfold heapDealloc
  simp only [hpointer]
  have hheader (x : ℕ) (hx : x ∈ heads h.root (bs ++ b :: ds)) :=
    @header_setUsed h.mem _ x 0 (heads_clear head_mem hx)
  have hlisted : Listed { h with mem := objectHeaderSetUsed h.mem (h.root + extent 16 bs) 0 } free :=
    hs.listed.of_links rfl fun x hx => by
      rw [hheader x (hs.subset hx)]
      exact ⟨rfl, rfl⟩
  obtain ⟨htiles, hlisted, hwrites⟩ := addFree_spec (Shaped.clear hs) ht.zero_notMem (fun x hx => ht.heads_lt hx)
    (fun x hx => hs.subset hx) hs.nodup hlisted head_mem hnot
  refine ⟨⟨?_, hlisted, ?_⟩, Writes.trans (writes_setUsed 0 head_mem) hwrites⟩
  · exact Tiled.reflag ht rfl rfl rfl htiles rfl fun _ hn => nomatch hn
  · refine (hs.perm.cons _).trans ?_
    rw [holes_used h.root bs ds hb]
    exact (holes_hole h.root bs ds (b := ⟨b.size, none⟩) rfl).symm

end Operations

end Eedox.UserHeapSteps
