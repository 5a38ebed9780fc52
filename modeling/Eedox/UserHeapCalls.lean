import Eedox.UserHeapSteps

namespace Eedox.UserHeapCalls

open Library.Bytes Library.Words Library.Blocks Library.DoublyLinked UserHeap UserHeapShape UserHeapTiling
open UserHeapSteps

section Splitting

variable {h : Heap} {bs ds : List Block} {b : Block} {free : List ℕ} {size : ℕ}

theorem heads_split {a : ℕ} (hlt : size + 16 ≤ b.size) :
    heads a (bs ++ resized b size :: ⟨b.size - size - 16, none⟩ :: ds) =
      heads a bs ++ (a + extent 16 bs) :: (a + extent 16 bs + (16 + size)) ::
        heads (a + extent 16 bs + (16 + b.size)) ds := by
  have hplace : a + extent 16 bs + (16 + size) + (16 + (b.size - size - 16)) =
      a + extent 16 bs + (16 + b.size) := by omega
  rw [heads_append, heads_cons, heads_cons]
  simp only [resized]
  rw [hplace]

theorem heads_eq {a : ℕ} : heads a (bs ++ b :: ds) =
    heads a bs ++ (a + extent 16 bs) :: heads (a + extent 16 bs + (16 + b.size)) ds := by
  rw [heads_append, heads_cons]

theorem holes_split {a : ℕ} (hlt : size + 16 ≤ b.size) :
    (holes 16 a (bs ++ resized b size :: ⟨b.size - size - 16, none⟩ :: ds)).Perm
      ((a + extent 16 bs + (16 + size)) :: holes 16 a (bs ++ b :: ds)) := by
  have hplace : a + extent 16 bs + (16 + size) + (16 + (b.size - size - 16)) =
      a + extent 16 bs + (16 + b.size) := by omega
  have hmid := @holes_hole 16 a (bs ++ [resized b size]) ds ⟨b.size - size - 16, none⟩ rfl
  rw [holes_resized, extent_append, extent_cons, extent_nil, Nat.add_zero, ← Nat.add_assoc a] at hmid
  simp only [resized] at hmid
  rw [hplace, ← List.append_cons] at hmid
  refine hmid.trans (List.Perm.cons _ (List.Perm.of_eq ?_))
  rw [List.append_cons bs b ds, holes_append a (bs ++ [b]) ds, extent_append, extent_cons, extent_nil, Nat.add_zero,
    ← Nat.add_assoc a]

/-- What is left of a block becomes a free block behind it. -/
theorem Shaped.split (hs : Shaped h (bs ++ b :: ds) free) (ha : size % 4 = 0) (hlt : size + 16 < b.size) {m : Mem}
    (hm : m = objectHeaderSetUsed (putHeaderNew (objectHeaderSetSize h.mem (h.root + extent 16 bs) size)
      (h.root + extent 16 bs + (16 + size)) (b.size - size - 16)) (h.root + extent 16 bs + (16 + size)) 0) :
    Shaped (heapAddFree { h with mem := m } (h.root + extent 16 bs + (16 + size)))
      (bs ++ resized b size :: ⟨b.size - size - 16, none⟩ :: ds) ((h.root + extent 16 bs + (16 + size)) :: free) ∧
    Writes (heads h.root (bs ++ resized b size :: ⟨b.size - size - 16, none⟩ :: ds)) h.mem
      (heapAddFree { h with mem := m } (h.root + extent 16 bs + (16 + size))).mem := by
  have ht := hs.tiled
  have hbound := ht.bounded
  have hroom := ht.room
  have hword := ht.word
  have hlow := ht.low
  have hba := ht.aligned b (by simp)
  have hheads := @heads_split bs ds b size h.root (by omega)
  have hold := @heads_eq bs ds b h.root
  have hextent : extent 16 (bs ++ resized b size :: ⟨b.size - size - 16, none⟩ :: ds) = h.brk := by
    simp only [extent_append, extent_cons, resized]
    omega
  have hfirst : h.root + extent 16 bs ∈ heads h.root (bs ++ resized b size :: ⟨b.size - size - 16, none⟩ :: ds) :=
    head_mem
  have hnext : h.root + extent 16 bs + (16 + size) ∈
      heads h.root (bs ++ resized b size :: ⟨b.size - size - 16, none⟩ :: ds) := by
    rw [hheads]
    simp
  have hsub (x : ℕ) (hx : x ∈ heads h.root (bs ++ b :: ds)) :
      x ∈ heads h.root (bs ++ resized b size :: ⟨b.size - size - 16, none⟩ :: ds) ∧
        x ≠ h.root + extent 16 bs + (16 + size) := by
    rw [hheads]
    rw [hold] at hx
    rcases List.mem_append.mp hx with hx | hx
    · have hb := (heads_bounds hx).2
      exact ⟨List.mem_append_left _ hx, by omega⟩
    · rcases List.mem_cons.mp hx with rfl | hx
      · exact ⟨by simp, by omega⟩
      · have hb := (heads_bounds hx).1
        exact ⟨by simp [hx], by omega⟩
  have hheader (x : ℕ) (hx : x ∈ heads h.root (bs ++ resized b size :: ⟨b.size - size - 16, none⟩ :: ds)) :
      header m x = if x = h.root + extent 16 bs + (16 + size) then ⟨b.size - size - 16, 0, 0, 0⟩
        else { header h.mem x with size := if x = h.root + extent 16 bs then size else (header h.mem x).size } := by
    rw [hm, header_setUsed 0 (heads_clear hnext hx), header_putHeaderNew (heads_clear hnext hx)]
    by_cases hxn : x = h.root + extent 16 bs + (16 + size)
    · simp only [if_pos hxn]
      rw [Nat.mod_eq_of_lt (by omega)]
      rfl
    · simp only [if_neg hxn]
      rw [header_setSize (heads_clear hfirst hx), Nat.mod_eq_of_lt (by omega)]
  have hlisted : Listed { h with mem := m } free := hs.listed.of_links rfl fun x hx => by
    obtain ⟨hmem, hne⟩ := hsub x (hs.subset hx)
    rw [hheader x hmem, if_neg hne]
    exact ⟨rfl, rfl⟩
  have hzero : 0 ∉ heads h.root (bs ++ resized b size :: ⟨b.size - size - 16, none⟩ :: ds) := fun h0 => by
    have hb := (heads_bounds h0).1
    omega
  have hlt32 (x : ℕ) (hx : x ∈ heads h.root (bs ++ resized b size :: ⟨b.size - size - 16, none⟩ :: ds)) :
      x < 2 ^ 32 := by
    have hb := (heads_bounds hx).2
    omega
  obtain ⟨htiles, hlisted, hwrites⟩ := addFree_spec (fun x hx y hy => heads_clear hx hy) hzero hlt32
    (fun x hx => (hsub x (hs.subset hx)).1) hs.nodup hlisted hnext
    fun hmem => (hsub _ (hs.subset hmem)).2 rfl
  refine ⟨⟨?_, hlisted, ?_⟩, Writes.trans ?_ hwrites⟩
  · refine Tiled.replace [b] [resized b size, ⟨b.size - size - 16, none⟩] ht (by simp) rfl rfl hextent.symm hroom
      ?_ ?_ ?_ fun x hx hxa => ?_
    · refine Or.inr ?_
      simp only [extent_cons, extent_nil, resized]
      omega
    · obtain ⟨hsize, hused⟩ := htiles _ hfirst
      obtain ⟨hsize', hused'⟩ := htiles _ hnext
      refine rep_cons.mpr ⟨⟨?_, ?_⟩, rep_cons.mpr ⟨⟨?_, ?_⟩, rep_nil⟩⟩
      · rw [hsize, hheader _ hfirst, if_neg (by omega)]
        exact if_pos rfl
      · rw [hused, hheader _ hfirst, if_neg (by omega), flag_resized]
        exact ht.header_eq.2
      · exact hsize'.trans (by rw [hheader _ hnext, if_pos rfl])
      · exact hused'.trans (by rw [hheader _ hnext, if_pos rfl]; rfl)
    · intro c hc
      rcases List.mem_cons.mp hc with rfl | hc
      · exact resized_aligned ha _ List.mem_cons_self
      · rw [List.mem_singleton.mp hc]
        exact ⟨by change (b.size - size - 16) % 4 = 0; omega,
          fun n hn => absurd hn (Option.some_ne_none n).symm⟩
    · obtain ⟨hmem, hne⟩ := hsub x hx
      obtain ⟨hsize, hused⟩ := htiles x hmem
      rw [hsize, hused, hheader x hmem, if_neg hne]
      exact ⟨if_neg hxa, rfl⟩
  · exact (hs.perm.cons _).trans (holes_split (by omega)).symm
  · rw [hm]
    exact ((writes_setSize hfirst).trans (writes_putHeaderNew hnext)).trans (writes_setUsed 0 hnext)

/-- A block is cut down to a size, or left as it is where what is over has no room for a header. -/
structure CutDown (h h' : Heap) (bs ds : List Block) (b : Block) (size n : ℕ) (rest : List Block) : Prop where
  enough : size ≤ n
  within : n ≤ b.size
  free : ∀ c ∈ rest, c.request = none
  filled : ds = [] ∨ extent 16 (resized b n :: rest) = 16 + b.size
  root : h'.root = h.root
  total : h'.size = h.size
  writes : Writes (heads h.root (bs ++ resized b n :: (rest ++ ds))) h.mem h'.mem

theorem resized_self (hs : Shaped h (bs ++ b :: ds) free) : resized b b.size = b := by
  refine Block.ext rfl ?_
  cases hr : b.request with
  | none => rw [resized_none, hr]
  | some n =>
    rw [hs.tiled.whole b (by simp) n hr, resized, hr]
    rfl

theorem trySplit_spec (hs : Shaped h (bs ++ b :: ds) free) (ha : size % 4 = 0) (hle : size ≤ b.size) :
    ∃ n rest free', CutDown h (objectHeaderTrySplit h (h.root + extent 16 bs) size) bs ds b size n rest ∧
      Shaped (objectHeaderTrySplit h (h.root + extent 16 bs) size) (bs ++ resized b n :: (rest ++ ds)) free' := by
  have ht := hs.tiled
  have hbound := ht.bounded
  have hroom := ht.room
  have hword := ht.word
  have hsame : CutDown h h bs ds b size b.size [] := by
    refine ⟨hle, le_rfl, fun _ hc => absurd hc List.not_mem_nil, Or.inr rfl, rfl, rfl, fun _ _ => rfl⟩
  have hshaped : Shaped h (bs ++ resized b b.size :: ([] ++ ds)) free := by
    rw [resized_self hs]
    exact hs
  unfold objectHeaderTrySplit
  simp only [ht.header_eq.1]
  by_cases hend : ds = []
  · subst hend
    rw [if_pos (ht.isEnd_iff.mpr rfl)]
    by_cases hlt : size < b.size
    · rw [extent_nil] at hbound
      rw [if_pos hlt, @sub32_of_le b.size _ hle (by omega), sub32_of_le (by omega) (by omega)]
      refine ⟨size, [], free, ⟨le_rfl, hle, fun _ hc => absurd hc List.not_mem_nil, Or.inl rfl, rfl, rfl,
        writes_setSize head_mem⟩, Shaped.resize_last _ _ hs ha (by omega) (by omega)⟩
    · rw [if_neg hlt]
      exact ⟨b.size, [], free, hsame, hshaped⟩
  · have hnot : ¬heapIsEnd h (h.root + extent 16 bs) = true := fun h' => hend (ht.isEnd_iff.mp h')
    rw [if_neg hnot]
    by_cases hlt : size + 16 < b.size
    · have hnext : objectHeaderNext (objectHeaderSetSize h.mem (h.root + extent 16 bs) size)
          (h.root + extent 16 bs) = h.root + extent 16 bs + (16 + size) := by
        unfold objectHeaderNext wordSize headerSize
        rw [header_setSize (Or.inl rfl), if_pos rfl, Nat.mod_eq_of_lt (by omega)]
        change add32 _ (size / 4 * 4 + 16) = _
        rw [add32_of_lt (by omega)]
        omega
      have hrest : sub32 (sub32 b.size size) headerSize = b.size - size - 16 := by
        unfold headerSize
        rw [@sub32_of_le b.size _ hle (by omega), sub32_of_le (by omega) (by omega)]
      rw [if_pos (by unfold headerSize; rw [add32_of_lt (by omega)]; exact hlt), hnext, hrest]
      obtain ⟨hshaped, hwrites⟩ := Shaped.split hs ha hlt rfl
      refine ⟨size, [⟨b.size - size - 16, none⟩], _, ⟨le_rfl, hle, ?_, ?_, rfl, rfl, hwrites⟩, hshaped⟩
      · intro c hc
        rw [List.mem_singleton.mp hc]
      · refine Or.inr ?_
        simp only [extent_cons, extent_nil, resized]
        omega
    · rw [if_neg (by unfold headerSize; rw [add32_of_lt (by omega)]; exact hlt)]
      exact ⟨b.size, [], free, hsame, hshaped⟩

theorem inUse_free {a : ℕ} {cs : List Block} (hcs : ∀ c ∈ cs, c.request = none) : inUse 16 a cs = [] := by
  induction cs generalizing a with
  | nil => rfl
  | cons c cs ih =>
    rw [inUse_hole a cs (hcs c List.mem_cons_self)]
    exact ih fun d hd => hcs d (List.mem_cons_of_mem c hd)

/-- The payloads in use around a block that is cut down. -/
theorem CutDown.inUse_eq {h' : Heap} {n a : ℕ} {rest : List Block} {r : Option ℕ}
    (hc : CutDown h h' bs ds b size n rest) : inUse 16 a (bs ++ ⟨n, r⟩ :: (rest ++ ds)) =
      inUse 16 a bs ++ (inUse 16 (a + extent 16 bs) [⟨n, r⟩] ++ inUse 16 (a + extent 16 bs + (16 + b.size)) ds) := by
  rw [inUse_append, ← List.singleton_append, inUse_append _ [_], inUse_append _ rest, inUse_free hc.free,
    List.nil_append]
  rcases hc.filled with rfl | he
  · rfl
  · congr 3
    rw [extent_cons] at he
    simp only [resized] at he
    simp only [extent_cons, extent_nil]
    omega

/-- A new block behind the others. -/
theorem Shaped.append (hs : Shaped h bs free) (ha : size % 4 = 0) (hroom : h.brk + (16 + size) ≤ h.size) :
    Shaped { h with mem := putHeaderNew h.mem (h.root + h.brk) size, brk := h.brk + (16 + size) }
      (bs ++ [⟨size, some size⟩]) free := by
  have ht := hs.tiled
  have hword := ht.word
  have hclear (x : ℕ) (hx : x ∈ heads h.root bs) : x + 16 ≤ h.root + h.brk := by
    have hb := (heads_bounds hx).2
    rw [ht.fills]
    exact hb
  have hheader (x : ℕ) (hx : x ∈ heads h.root bs) :
      header (putHeaderNew h.mem (h.root + h.brk) size) x = header h.mem x := by
    have hx' := hclear x hx
    rw [header_putHeaderNew (Or.inr (Or.inl hx')), if_neg (by omega)]
  refine ⟨⟨?_, ?_, hroom, ht.low, hword, fun c hc => ?_, fun c hc => ?_⟩, ?_, ?_⟩
  · refine rep_append.mpr ⟨ht.rep.congr fun x hx => by rw [hheader x hx]; exact ⟨rfl, rfl⟩, rep_cons.mpr ⟨?_, rep_nil⟩⟩
    change (header (putHeaderNew h.mem (h.root + h.brk) size) _).size = _ ∧ _
    rw [← ht.fills, header_putHeaderNew (Or.inl rfl), if_pos rfl]
    exact ⟨Nat.mod_eq_of_lt (by omega), rfl⟩
  · rw [extent_append, ← ht.fills]
    rfl
  · rcases List.mem_append.mp hc with hc | hc
    · exact ht.aligned c hc
    · rw [List.mem_singleton.mp hc]
      exact ha
  · rcases List.mem_append.mp hc with hc | hc
    · exact ht.whole c hc
    · rw [List.mem_singleton.mp hc]
      exact fun n hn => (Option.some.inj hn).symm
  · exact hs.listed.of_links rfl fun x hx => by rw [hheader x (hs.subset hx)]; exact ⟨rfl, rfl⟩
  · rw [holes_used _ bs [] (by simp)]
    change free.Perm (holes 16 h.root bs ++ [])
    rw [List.append_nil]
    exact hs.perm

end Splitting

end Eedox.UserHeapCalls
