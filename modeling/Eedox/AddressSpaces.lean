import Eedox.Paging

namespace Eedox.AddressSpaces

open Bitset Paging

/-- What `kmalloc_a` has left to give: pages of the identity-mapped heap that are in no use. -/
structure Heap (n : ℕ) (s : Machine) : Prop where
  nodup : s.heap.Nodup
  fresh : ∀ a ∈ s.heap, a ∉ s.allTables ∧ a ∉ s.allDirectories
  place : ∀ a, a ∈ s.heap ∨ a ∈ s.allTables → a ≠ 0 ∧ a % 0x1000 = 0 ∧ a / 0x1000 < n

/-- What the hardware reads for a table whose address is its physical one. -/
def hardwareEntry (table : ℕ) : ℕ := if table = 0 then 0 else table ||| 0x7

/-- The directories share the tables of the kernel and nothing else, the hardware reads the addresses of
the tables, and but for page 0 the kernel heap is mapped to itself. -/
structure Directories (n : ℕ) (s : Machine) : Prop where
  bound : n ≤ 2 ^ 20
  kernel : s.kernelPageDirectory ∈ s.allDirectories
  current : s.currentPageDirectory = 0 ∨ s.currentPageDirectory ∈ s.allDirectories
  tables : ∀ d ∈ s.allDirectories, ∀ i, (s.directories d).tables i ≠ 0 →
    (s.directories d).tables i ∈ s.allTables
  own : ∀ d ∈ s.allDirectories, ∀ d' ∈ s.allDirectories, ∀ i i',
    (s.directories d).tables i = (s.directories d').tables i' → (s.directories d).tables i ≠ 0 →
    i = i' ∧ (d = d' ∨ (s.directories d).tables i = (s.directories s.kernelPageDirectory).tables i)
  physical : ∀ d ∈ s.allDirectories, ∀ i,
    (s.directories d).tablesPhysical i = hardwareEntry ((s.directories d).tables i)
  shares : ∀ d ∈ s.allDirectories, ∀ i < 1024, (s.directories s.kernelPageDirectory).tables i ≠ 0 →
    (s.directories d).tables i = (s.directories s.kernelPageDirectory).tables i
  identity : ∀ k, 0 < k → k < n →
    (s.directories s.kernelPageDirectory).tables (k / 1024) ≠ 0 ∧
      (s.pageTables ((s.directories s.kernelPageDirectory).tables (k / 1024)) (k % 1024)).frame = k

/-- Every frame but 0 that a page holds is marked, and no other page holds it. -/
structure Frames (s : Machine) : Prop where
  held : ∀ t ∈ s.allTables, ∀ e, (s.pageTables t e).frame ≠ 0 →
    bitsetGet s.glbFrames (s.pageTables t e).frame = true
  apart : ∀ t ∈ s.allTables, ∀ t' ∈ s.allTables, ∀ e e',
    (s.pageTables t e).frame = (s.pageTables t' e').frame → (s.pageTables t e).frame ≠ 0 →
    t = t' ∧ e = e'

/-- The heap lies below page `n`, and the pages below `k` are mapped to themselves. -/
structure Layout (n k : ℕ) (s : Machine) : Prop extends Heap n s, Directories k s, Frames s

/-- Frame 0, whose number means no frame, is never handed out. -/
structure Sound (n : ℕ) (s : Machine) : Prop extends Layout n n s where
  zero : bitsetGet s.glbFrames 0 = true

/-- What a step leaves as it was: the tables there are and the contents of the marked frames. -/
structure Kept (s s' : Machine) : Prop where
  tables : ∀ t ∈ s.allTables, s'.pageTables t = s.pageTables t
  allTables : ∀ t ∈ s.allTables, t ∈ s'.allTables
  marked : ∀ f, bitsetGet s.glbFrames f = true → bitsetGet s'.glbFrames f = true
  contents : ∀ f, bitsetGet s.glbFrames f = true → s'.frames f = s.frames f

theorem Kept.refl (s : Machine) : Kept s s :=
  ⟨fun _ _ => rfl, fun _ h => h, fun _ h => h, fun _ _ => rfl⟩

theorem Kept.trans {s t u : Machine} (h : Kept s t) (h' : Kept t u) : Kept s u := by
  refine ⟨fun a ha => ?_, fun a ha => ?_, fun f hf => ?_, fun f hf => ?_⟩
  · rw [h'.tables a (h.allTables a ha), h.tables a ha]
  · exact h'.allTables a (h.allTables a ha)
  · exact h'.marked f (h.marked f hf)
  · rw [h'.contents f (h.marked f hf), h.contents f hf]

/-- The fields that allocating frames does not touch. -/
structure SameLists (s s' : Machine) : Prop where
  heap : s'.heap = s.heap
  directories : s'.directories = s.directories
  kernel : s'.kernelPageDirectory = s.kernelPageDirectory
  current : s'.currentPageDirectory = s.currentPageDirectory
  allTables : s'.allTables = s.allTables
  allDirectories : s'.allDirectories = s.allDirectories

section Frames

variable {s s' : Machine} {t e : ℕ} {w k : Bool}

/-- The page gets the first free frame. -/
theorem allocFrame_some (h : allocFrame s t e w k = some s') :
    ∃ idx, bitsetFirstUnset s.glbFrames = some idx ∧
      s' = setPage { s with glbFrames := bitsetSet s.glbFrames idx true } t e
        { s.pageTables t e with frame := idx, present := true, rw := w, user := !k } := by
  obtain ⟨idx, hidx, rfl⟩ := Option.map_eq_some_iff.mp h
  exact ⟨idx, hidx, rfl⟩

theorem setPage_frame (s : Machine) (t e : ℕ) (page : PageT) (t' e' : ℕ) :
    (setPage s t e page).pageTables t' e' = if t' = t ∧ e' = e then page else s.pageTables t' e' := by
  by_cases ht : t' = t
  · subst ht
    by_cases he : e' = e
    · subst he
      simp [setPage]
    · simp [setPage, he]
  · simp [setPage, ht]

/-- A page that takes a frame that no page holds leaves the frames apart. -/
theorem Frames.take {page : PageT} {idx : ℕ} (h : Frames s)
    (hidx : bitsetGet s.glbFrames idx = false) (hpage : page.frame = idx) :
    Frames (setPage { s with glbFrames := bitsetSet s.glbFrames idx true } t e page) := by
  have hfree (a : ℕ) (ha : a ∈ s.allTables) (b : ℕ) (hb : (s.pageTables a b).frame ≠ 0) :
      (s.pageTables a b).frame ≠ idx := by
    rintro rfl
    rw [h.held a ha b hb] at hidx
    cases hidx
  refine ⟨?_, ?_⟩
  · intro a ha b hb
    rw [setPage_frame] at hb ⊢
    change bitsetGet (bitsetSet s.glbFrames idx true) _ = true
    rw [bitsetGet_set]
    split_ifs at hb ⊢ with hab
    · simp [hpage]
    · rw [h.held a ha b hb, Bool.or_true]
  · intro a ha a' ha' b b' heq hb
    rw [setPage_frame] at hb
    rw [setPage_frame, setPage_frame] at heq
    split_ifs at heq hb with h1 h2 h2
    · exact ⟨h1.1.trans h2.1.symm, h1.2.trans h2.2.symm⟩
    · exact absurd (heq.symm.trans hpage) (hfree a' ha' b' (by rw [← heq]; exact hb))
    · exact absurd (heq.trans hpage) (hfree a ha b hb)
    · exact h.apart a ha a' ha' b b' heq hb

theorem Frames.congr (h : Frames s) (ht : s'.pageTables = s.pageTables)
    (hb : s'.glbFrames = s.glbFrames) (hl : s'.allTables = s.allTables) : Frames s' := by
  refine ⟨?_, ?_⟩
  · rw [ht, hb, hl]
    exact h.held
  · rw [ht, hl]
    exact h.apart

end Frames

/-- The page `e` of `t'` is a copy of the page `e` of `t`, in a frame of its own if in any. -/
def Copied (s s' : Machine) (t t' e : ℕ) : Prop :=
  ((s'.pageTables t' e).frame = 0 ↔ (s.pageTables t e).frame = 0) ∧
    ((s.pageTables t e).frame ≠ 0 →
      s'.pageTables t' e = { s.pageTables t e with frame := (s'.pageTables t' e).frame } ∧
        s'.frames (s'.pageTables t' e).frame = s.frames (s.pageTables t e).frame)

/-- What the first `k` turns of the loop of `page_table_clone` have done. -/
structure Cloning (s s' : Machine) (table new k : ℕ) : Prop where
  frames : Frames s'
  tables : ∀ t, t ≠ new → s'.pageTables t = s.pageTables t
  marked : ∀ f, bitsetGet s.glbFrames f = true → bitsetGet s'.glbFrames f = true
  contents : ∀ f, bitsetGet s.glbFrames f = true → s'.frames f = s.frames f
  lists : SameLists s s'
  copied : ∀ e < k, Copied s s' table new e
  rest : ∀ e, k ≤ e → s'.pageTables new e = zeroPage

theorem SameLists.refl (s : Machine) : SameLists s s := ⟨rfl, rfl, rfl, rfl, rfl, rfl⟩

theorem SameLists.trans {s t u : Machine} (h : SameLists s t) (h' : SameLists t u) : SameLists s u :=
  ⟨h'.heap.trans h.heap, h'.directories.trans h.directories, h'.kernel.trans h.kernel,
    h'.current.trans h.current, h'.allTables.trans h.allTables,
    h'.allDirectories.trans h.allDirectories⟩

theorem setPage_setPage (s : Machine) (t e : ℕ) (p q : PageT) :
    setPage (setPage s t e p) t e q = setPage s t e q := by
  simp [setPage]

/-- The machine in which the page `e` of `new` has become a copy of `page` in the frame `idx`. -/
def copyPage (s : Machine) (page : PageT) (new e idx : ℕ) : Machine :=
  pagingPhyscpy (setPage { s with glbFrames := bitsetSet s.glbFrames idx true } new e
    { page with frame := idx }) page.frame idx

theorem copyPage_page (s : Machine) (page : PageT) (new e idx t' e' : ℕ) :
    (copyPage s page new e idx).pageTables t' e' =
      if t' = new ∧ e' = e then { page with frame := idx } else s.pageTables t' e' :=
  setPage_frame _ _ _ _ t' e'

theorem copyPage_frames (s : Machine) (page : PageT) (new e idx : ℕ) :
    (copyPage s page new e idx).frames = Function.update s.frames idx (s.frames page.frame) := rfl

/-- One turn: a page with a frame gets a copy in a new frame. -/
theorem Cloning.step {s s₁ : Machine} {table new k idx : ℕ} (h : Cloning s s₁ table new k)
    (hframes : Frames s) (hzero : bitsetGet s.glbFrames 0 = true) (ht : table ∈ s.allTables)
    (hnew : new ∈ s.allTables) (hpage : (s.pageTables table k).frame ≠ 0)
    (hidx : bitsetGet s₁.glbFrames idx = false) :
    Cloning s (copyPage s₁ (s.pageTables table k) new k idx) table new (k + 1) := by
  have hold (f : ℕ) (hf : bitsetGet s₁.glbFrames f = true) : f ≠ idx := by
    rintro rfl
    rw [hidx] at hf
    cases hf
  have hidx0 : idx ≠ 0 := fun h0 => hold 0 (h.marked 0 hzero) h0.symm
  have hcontents (f : ℕ) (hf : bitsetGet s₁.glbFrames f = true) :
      (copyPage s₁ (s.pageTables table k) new k idx).frames f = s₁.frames f := by
    rw [copyPage_frames, Function.update_of_ne (hold f hf)]
  refine ⟨?_, ?_, ?_, ?_, ?_, ?_, ?_⟩
  · exact (h.frames.take hidx rfl).congr rfl rfl rfl
  · intro t hne'
    rw [← h.tables t hne']
    funext e
    rw [copyPage_page, if_neg fun hc => hne' hc.1]
  · intro f hf
    change bitsetGet (bitsetSet s₁.glbFrames idx true) f = true
    rw [bitsetGet_set, h.marked f hf, Bool.or_true]
  · intro f hf
    rw [hcontents f (h.marked f hf), h.contents f hf]
  · exact ⟨h.lists.heap, h.lists.directories, h.lists.kernel, h.lists.current, h.lists.allTables,
      h.lists.allDirectories⟩
  · intro e he
    rw [Copied, copyPage_page]
    by_cases hek : e = k
    · subst hek
      rw [if_pos ⟨rfl, rfl⟩]
      refine ⟨iff_of_false hidx0 hpage, fun _ => ⟨rfl, ?_⟩⟩
      rw [copyPage_frames, Function.update_self, h.contents _ (hframes.held table ht e hpage)]
    · have hprev := h.copied e (by omega)
      rw [if_neg fun hc => hek hc.2]
      refine ⟨hprev.1, fun hp => ?_⟩
      obtain ⟨h1, h2⟩ := hprev.2 hp
      have hnew₁ : new ∈ s₁.allTables := by rwa [h.lists.allTables]
      have hmark := h.frames.held new hnew₁ e (mt hprev.1.mp hp)
      exact ⟨h1, (hcontents _ hmark).trans h2⟩
  · intro e he
    rw [copyPage_page, if_neg (by omega), h.rest e (by omega)]

theorem clonePages_spec {s s' : Machine} {table new k : ℕ} (hframes : Frames s)
    (hzero : bitsetGet s.glbFrames 0 = true) (ht : table ∈ s.allTables) (hnew : new ∈ s.allTables)
    (hne : table ≠ new) (hempty : s.pageTables new = fun _ => zeroPage)
    (h : clonePages s table new k = some s') : Cloning s s' table new k := by
  induction k generalizing s' with
  | zero =>
    obtain rfl : s = s' := Option.some.inj h
    exact ⟨hframes, fun _ _ => rfl, fun _ h => h, fun _ _ => rfl, .refl s, fun e he => by omega,
      fun e _ => congrFun hempty e⟩
  | succ k ih =>
    obtain ⟨s₁, hs₁, hstep⟩ := Option.bind_eq_some_iff.mp h
    have hk := ih hs₁
    have hpage : s₁.pageTables table k = s.pageTables table k := congrFun (hk.tables table hne) k
    simp only [hpage] at hstep
    by_cases hp : (s.pageTables table k).frame ≠ 0
    · rw [if_pos hp] at hstep
      obtain ⟨s₂, hs₂, rfl⟩ := Option.map_eq_some_iff.mp hstep
      obtain ⟨idx, hidx, rfl⟩ := allocFrame_some hs₂
      have hunset := (bitsetFirstUnset_some hidx).2.1
      rw [setPage_frame, if_pos ⟨rfl, rfl⟩, setPage_setPage]
      exact hk.step hframes hzero ht hnew hp hunset
    · rw [if_neg hp] at hstep
      obtain rfl := Option.some.inj hstep
      rw [not_not] at hp
      refine ⟨hk.frames, hk.tables, hk.marked, hk.contents, hk.lists, fun e he => ?_,
        fun e he => hk.rest e (by omega)⟩
      rcases Nat.lt_succ_iff_lt_or_eq.mp he with hlt | rfl
      · exact hk.copied e hlt
      · refine ⟨iff_of_true ?_ hp, fun hc => absurd hp hc⟩
        rw [hk.rest e le_rfl]
        rfl

section Tables

variable {n : ℕ} {s s' : Machine} {a t d : ℕ}

theorem physical_eq (h : Directories n s) (hpos : 0 < a / 0x1000) (ha : a / 0x1000 < n) :
    getPhysicalAddress s a = some a := by
  rw [getPhysicalAddress]
  split_ifs with hzero
  · rfl
  · have hcur := h.current.resolve_left hzero
    have hbound := h.bound
    obtain ⟨hne, hframe⟩ := h.identity _ hpos ha
    have hshare := h.shares _ hcur (a / 0x1000 / 1024) (by omega) hne
    simp only [hshare]
    rw [if_neg hne, hframe]
    congr 1
    omega

/-- A change of directories that are not in use leaves the others sound. -/
theorem Sound.congr (h : Sound n s) (ht : s'.pageTables = s.pageTables)
    (hb : s'.glbFrames = s.glbFrames)
    (hd : ∀ d ∈ s.allDirectories, (s'.directories d).tables = (s.directories d).tables ∧
      (s'.directories d).tablesPhysical = (s.directories d).tablesPhysical)
    (hl : s'.allTables = s.allTables) (hld : s'.allDirectories = s.allDirectories)
    (hk : s'.kernelPageDirectory = s.kernelPageDirectory)
    (hc : s'.currentPageDirectory = 0 ∨ s'.currentPageDirectory ∈ s.allDirectories)
    (hnodup : s'.heap.Nodup) (hheap : ∀ a ∈ s'.heap, a ∈ s.heap) : Sound n s' := by
  have hkernel := (hd _ h.kernel).1
  refine ⟨{ toHeap := ?_, toDirectories := ?_, toFrames := h.toFrames.congr ht hb hl },
    by rw [hb]; exact h.zero⟩
  · refine ⟨hnodup, fun a ha => ?_, fun a ha => ?_⟩
    · rw [hl, hld]
      exact h.fresh a (hheap a ha)
    · rw [hl] at ha
      exact h.place a (ha.imp_left (hheap a))
  · refine ⟨h.bound, by rw [hk, hld]; exact h.kernel, by rw [hld]; exact hc, ?_, ?_, ?_, ?_, ?_⟩
    · intro d hmem i hi
      rw [hld] at hmem
      rw [(hd d hmem).1] at hi ⊢
      rw [hl]
      exact h.tables d hmem i hi
    · intro d hmem d' hmem' i i' heq hi
      rw [hld] at hmem hmem'
      rw [(hd d hmem).1] at heq hi ⊢
      rw [(hd d' hmem').1] at heq
      rw [hk, hkernel]
      exact h.own d hmem d' hmem' i i' heq hi
    · intro d hmem i
      rw [hld] at hmem
      rw [(hd d hmem).1, (hd d hmem).2]
      exact h.physical d hmem i
    · intro d hmem i hi hne
      rw [hld] at hmem
      rw [hk, hkernel] at hne ⊢
      rw [(hd d hmem).1]
      exact h.shares d hmem i hi hne
    · intro k hpos hkn
      rw [hk, hkernel, ht]
      exact h.identity k hpos hkn

theorem newTable_some (h : newTable s = some (t, s')) :
    s.heap = t :: s'.heap ∧ s'.pageTables = Function.update s.pageTables t (fun _ => zeroPage) ∧
      s'.allTables = t :: s.allTables ∧ s'.glbFrames = s.glbFrames ∧ s'.frames = s.frames ∧
      s'.directories = s.directories ∧ s'.allDirectories = s.allDirectories ∧
      s'.kernelPageDirectory = s.kernelPageDirectory ∧
      s'.currentPageDirectory = s.currentPageDirectory := by
  unfold newTable at h
  cases hheap : s.heap with
  | nil =>
    rw [hheap] at h
    cases h
  | cons a heap =>
    rw [hheap] at h
    obtain ⟨rfl, rfl⟩ : a = t ∧ _ := by simpa using h
    exact ⟨rfl, rfl, rfl, rfl, rfl, rfl, rfl, rfl, rfl⟩

/-- A new table holds no frame. -/
theorem Layout.newTable {k : ℕ} (h : Layout n k s) (hnew : newTable s = some (t, s')) :
    Layout n k s' ∧ Kept s s' ∧ t ∉ s.allTables := by
  obtain ⟨hheap, htables, hlist, hbits, hframes, hdirs, hld, hk, hc⟩ := newTable_some hnew
  have hmem : t ∈ s.heap := by
    rw [hheap]
    exact List.mem_cons_self
  have hfresh := (h.fresh t hmem).1
  have hnodup := h.nodup
  rw [hheap, List.nodup_cons] at hnodup
  have hold (a : ℕ) (ha : a ∈ s.allTables) : s'.pageTables a = s.pageTables a := by
    rw [htables, Function.update_of_ne]
    rintro rfl
    exact hfresh ha
  have hzero (e : ℕ) : s'.pageTables t e = zeroPage := by rw [htables, Function.update_self]
  refine ⟨{ toHeap := ?_, toDirectories := ?_, toFrames := ?_ }, ?_, hfresh⟩
  · refine ⟨hnodup.2, fun a ha => ?_, fun a ha => ?_⟩
    · obtain ⟨h1, h2⟩ := h.fresh a (by rw [hheap]; exact List.mem_cons_of_mem _ ha)
      rw [hlist, hld, List.mem_cons, not_or]
      refine ⟨⟨?_, h1⟩, h2⟩
      rintro rfl
      exact hnodup.1 ha
    · rw [hlist, List.mem_cons] at ha
      apply h.place a
      rw [hheap, List.mem_cons]
      rcases ha with ha | rfl | ha
      · exact Or.inl (Or.inr ha)
      · exact Or.inl (Or.inl rfl)
      · exact Or.inr ha
  · refine ⟨h.bound, by rw [hk, hld]; exact h.kernel, by rw [hc, hld]; exact h.current, ?_, ?_, ?_, ?_,
      ?_⟩
    · intro d hd i hi
      rw [hld] at hd
      rw [hdirs] at hi ⊢
      rw [hlist]
      exact List.mem_cons_of_mem _ (h.tables d hd i hi)
    · rw [hld, hdirs, hk]
      exact h.own
    · rw [hld, hdirs]
      exact h.physical
    · rw [hld, hdirs, hk]
      exact h.shares
    · intro k hpos hkn
      obtain ⟨hne, hframe⟩ := h.identity k hpos hkn
      rw [hdirs, hk, hold _ (h.tables _ h.kernel _ hne)]
      exact ⟨hne, hframe⟩
  · refine ⟨fun a ha e hne => ?_, fun a ha a' ha' e e' heq hne => ?_⟩
    · rw [hlist, List.mem_cons] at ha
      rcases ha with rfl | ha
      · rw [hzero] at hne
        exact absurd rfl hne
      · rw [hold a ha] at hne ⊢
        rw [hbits]
        exact h.held a ha e hne
    · rw [hlist, List.mem_cons] at ha ha'
      rcases ha with rfl | ha
      · rw [hzero] at hne
        exact absurd rfl hne
      · rcases ha' with rfl | ha'
        · rw [heq, hzero] at hne
          exact absurd rfl hne
        · rw [hold a ha] at heq hne
          rw [hold a' ha'] at heq
          exact h.apart a ha a' ha' e e' heq hne
  · refine ⟨hold, fun a ha => ?_, fun f hf => by rw [hbits]; exact hf, fun f _ => by rw [hframes]⟩
    rw [hlist]
    exact List.mem_cons_of_mem _ ha

theorem newTable_sound (h : Sound n s) (hnew : newTable s = some (t, s')) :
    Sound n s' ∧ Kept s s' ∧ t ∉ s.allTables := by
  obtain ⟨hlayout, hkept, hfresh⟩ := h.toLayout.newTable hnew
  exact ⟨⟨hlayout, hkept.marked 0 h.zero⟩, hkept, hfresh⟩

/-- Frames may be taken for pages, if those mapped to themselves stay so. -/
theorem Layout.frames_changed {k : ℕ} (h : Layout n k s) (hlists : SameLists s s') (hframes : Frames s')
    (hid : ∀ j, 0 < j → j < k →
      (s'.pageTables ((s.directories s.kernelPageDirectory).tables (j / 1024)) (j % 1024)).frame = j) :
    Layout n k s' := by
  refine { toHeap := ?_, toDirectories := ?_, toFrames := hframes }
  · refine ⟨by rw [hlists.heap]; exact h.nodup, fun a ha => ?_, fun a ha => ?_⟩
    · rw [hlists.heap] at ha
      rw [hlists.allTables, hlists.allDirectories]
      exact h.fresh a ha
    · rw [hlists.heap, hlists.allTables] at ha
      exact h.place a ha
  · refine ⟨h.bound, ?_, ?_, ?_, ?_, ?_, ?_, ?_⟩
    · rw [hlists.kernel, hlists.allDirectories]
      exact h.kernel
    · rw [hlists.current, hlists.allDirectories]
      exact h.current
    · rw [hlists.allDirectories, hlists.directories, hlists.allTables]
      exact h.tables
    · rw [hlists.allDirectories, hlists.directories, hlists.kernel]
      exact h.own
    · rw [hlists.allDirectories, hlists.directories]
      exact h.physical
    · rw [hlists.allDirectories, hlists.directories, hlists.kernel]
      exact h.shares
    · intro j hpos hjk
      rw [hlists.directories, hlists.kernel]
      exact ⟨(h.identity j hpos hjk).1, hid j hpos hjk⟩

/-- A copy of a page survives what is done to other tables. -/
theorem Copied.kept {u : Machine} {e : ℕ} (h : Copied s s' d t e) (hframes : Frames s')
    (ht : t ∈ s'.allTables) (hkept : Kept s' u) : Copied s u d t e := by
  rw [Copied, hkept.tables t ht]
  refine ⟨h.1, fun hp => ?_⟩
  obtain ⟨h1, h2⟩ := h.2 hp
  exact ⟨h1, (hkept.contents _ (hframes.held t ht e (mt h.1.mp hp))).trans h2⟩

theorem Copied.of_kept {u : Machine} {e : ℕ} (h : Copied s' u d t e) (hframes : Frames s)
    (hd : d ∈ s.allTables) (hkept : Kept s s') : Copied s u d t e := by
  rw [Copied, hkept.tables d hd] at h
  refine ⟨h.1, fun hp => ?_⟩
  obtain ⟨h1, h2⟩ := h.2 hp
  exact ⟨h1, h2.trans (hkept.contents _ (hframes.held d hd e hp))⟩

/-- What a copied table and the machine with it are like. -/
structure TableCloned (n : ℕ) (s s' : Machine) (table new : ℕ) : Prop where
  sound : Sound n s'
  kept : Kept s s'
  fresh : new ∈ s.heap ∧ new ∉ s.allTables
  mem : new ∈ s'.allTables
  heap : ∀ a ∈ s'.heap, a ∈ s.heap
  directories : s'.directories = s.directories
  kernel : s'.kernelPageDirectory = s.kernelPageDirectory
  current : s'.currentPageDirectory = s.currentPageDirectory
  allDirectories : s'.allDirectories = s.allDirectories
  copied : ∀ e < 1024, Copied s s' table new e

theorem pageTableClone_spec {table new : ℕ} (h : Sound n s) (ht : table ∈ s.allTables)
    (hc : pageTableClone s table = some (new, s')) : TableCloned n s s' table new := by
  obtain ⟨⟨new', s₁⟩, hnew, hc⟩ := Option.bind_eq_some_iff.mp hc
  obtain ⟨s₂, hpages, heq⟩ := Option.map_eq_some_iff.mp hc
  obtain ⟨rfl, rfl⟩ : new' = new ∧ s₂ = s' := by simpa using heq
  obtain ⟨hheap, htables, hlist, hbits, hframes, hdirs, hld, hk, hcur⟩ := newTable_some hnew
  obtain ⟨hsound, hkept, hfresh⟩ := newTable_sound h hnew
  have hne : table ≠ new' := by
    rintro rfl
    exact hfresh ht
  have hmem : new' ∈ s₁.allTables := by
    rw [hlist]
    exact List.mem_cons_self
  have hempty : s₁.pageTables new' = fun _ => zeroPage := by rw [htables, Function.update_self]
  have hcl := clonePages_spec hsound.toFrames hsound.zero (hkept.allTables _ ht) hmem hne hempty hpages
  have hpagesKept : ∀ t ∈ s.allTables, s₂.pageTables t = s₁.pageTables t := by
    intro t ht'
    apply hcl.tables
    rintro rfl
    exact hfresh ht'
  have hsound₂ : Sound n s₂ := by
    refine ⟨hsound.toLayout.frames_changed hcl.lists hcl.frames ?_, hcl.marked 0 hsound.zero⟩
    intro k hpos hkn
    obtain ⟨hne', hid⟩ := h.identity k hpos hkn
    have hmemk := h.tables _ h.kernel _ hne'
    rw [hdirs, hk, hpagesKept _ hmemk, hkept.tables _ hmemk]
    exact hid
  have hkept₂ : Kept s s₂ := by
    refine ⟨fun t ht' => ?_, fun t ht' => ?_, fun f hf => ?_, fun f hf => ?_⟩
    · rw [hpagesKept t ht', hkept.tables t ht']
    · rw [hcl.lists.allTables]
      exact hkept.allTables t ht'
    · exact hcl.marked f (hkept.marked f hf)
    · rw [hcl.contents f (hkept.marked f hf), hkept.contents f hf]
  refine ⟨hsound₂, hkept₂, ⟨?_, hfresh⟩, ?_, ?_, ?_, ?_, ?_, ?_, ?_⟩
  · rw [hheap]
    exact List.mem_cons_self
  · rw [hcl.lists.allTables]
    exact hmem
  · intro a ha
    rw [hcl.lists.heap] at ha
    rw [hheap]
    exact List.mem_cons_of_mem _ ha
  · exact hcl.lists.directories.trans hdirs
  · exact hcl.lists.kernel.trans hk
  · exact hcl.lists.current.trans hcur
  · exact hcl.lists.allDirectories.trans hld
  · intro e he
    exact (hcl.copied e he).of_kept h.toFrames ht hkept

end Tables

section Clone

/-- What the first `k` turns of the loop of `page_directory_clone` have done. -/
structure DirCloning (n : ℕ) (s s' : Machine) (dir new k : ℕ) : Prop where
  sound : Sound n s'
  kept : Kept s s'
  heap : ∀ a ∈ s'.heap, a ∈ s.heap
  others : ∀ d, d ≠ new → s'.directories d = s.directories d
  kernel : s'.kernelPageDirectory = s.kernelPageDirectory
  current : s'.currentPageDirectory = s.currentPageDirectory
  allDirectories : s'.allDirectories = s.allDirectories
  absent : ∀ i < k, (s.directories dir).tables i = 0 → (s'.directories new).tables i = 0
  shared : ∀ i < k, (s.directories dir).tables i ≠ 0 →
    (s.directories dir).tables i = (s.directories s.kernelPageDirectory).tables i →
    (s'.directories new).tables i = (s.directories dir).tables i
  own : ∀ i < k, (s.directories dir).tables i ≠ 0 →
    (s.directories dir).tables i ≠ (s.directories s.kernelPageDirectory).tables i →
    (s'.directories new).tables i ≠ 0 ∧ (s'.directories new).tables i ∈ s'.allTables ∧
      (s'.directories new).tables i ∉ s.allTables ∧
      ∀ e < 1024, Copied s s' ((s.directories dir).tables i) ((s'.directories new).tables i) e
  apart : ∀ i i', (s'.directories new).tables i = (s'.directories new).tables i' →
    (s'.directories new).tables i ≠ 0 → (s'.directories new).tables i ∉ s.allTables → i = i'
  rest : ∀ i, k ≤ i → (s'.directories new).tables i = 0
  physical : ∀ i, (s'.directories new).tablesPhysical i = hardwareEntry ((s'.directories new).tables i)

variable {n : ℕ} {s s' : Machine} {dir new k : ℕ}

/-- Both entries of a directory at one index. -/
def setEntry (s : Machine) (dir index table word : ℕ) : Machine :=
  setPhysical (setTable s dir index table) dir index word

@[simp] theorem setEntry_other {d : ℕ} (index table word : ℕ) (h : d ≠ dir) :
    (setEntry s dir index table word).directories d = s.directories d := by
  simp [setEntry, setPhysical, setTable, h]

@[simp] theorem setEntry_tables (s : Machine) (dir index table word : ℕ) :
    ((setEntry s dir index table word).directories dir).tables =
      Function.update (s.directories dir).tables index table := by
  simp [setEntry, setPhysical, setTable]

@[simp] theorem setEntry_physical (s : Machine) (dir index table word : ℕ) :
    ((setEntry s dir index table word).directories dir).tablesPhysical =
      Function.update (s.directories dir).tablesPhysical index word := by
  simp [setEntry, setPhysical, setTable]

theorem Sound.setEntry (h : Sound n s) (hnew : new ∉ s.allDirectories) (index table word : ℕ) :
    Sound n (setEntry s new index table word) := by
  refine h.congr rfl rfl (fun d hd => ?_) rfl rfl rfl h.current h.nodup fun _ h => h
  have hne : d ≠ new := by
    rintro rfl
    exact hnew hd
  rw [setEntry_other _ _ _ hne]
  exact ⟨rfl, rfl⟩

theorem Sound.setTable (h : Sound n s) (hnew : new ∉ s.allDirectories) (index table : ℕ) :
    Sound n (setTable s new index table) := by
  refine h.congr rfl rfl (fun d hd => ?_) rfl rfl rfl h.current h.nodup fun _ h => h
  have hne : d ≠ new := by
    rintro rfl
    exact hnew hd
  simp [Paging.setTable, hne]

theorem DirCloning.mem (h : DirCloning n s s' dir new k) (hs : Sound n s)
    (hdir : dir ∈ s.allDirectories) {i : ℕ} (hi : (s'.directories new).tables i ≠ 0) :
    (s'.directories new).tables i ∈ s'.allTables := by
  by_cases hik : i < k
  · have hne : (s.directories dir).tables i ≠ 0 := fun hzero => hi (h.absent i hik hzero)
    by_cases hk : (s.directories dir).tables i = (s.directories s.kernelPageDirectory).tables i
    · rw [h.shared i hik hne hk]
      exact h.kept.allTables _ (hs.tables dir hdir i hne)
    · exact (h.own i hik hne hk).2.1
  · exact absurd (h.rest i (by omega)) hi

/-- The index `k` gets a table that is either shared with `dir` or a fresh copy. -/
theorem DirCloning.enter {u : Machine} {table word : ℕ} (h : DirCloning n s s' dir new k)
    (hs : Sound n s) (hdir : dir ∈ s.allDirectories) (hnew : new ∉ s.allDirectories)
    (hu : Sound n u) (hkept : Kept s' u)
    (hheap : ∀ a ∈ u.heap, a ∈ s'.heap) (hdirs : u.directories = s'.directories)
    (hkernel : u.kernelPageDirectory = s'.kernelPageDirectory)
    (hcurrent : u.currentPageDirectory = s'.currentPageDirectory)
    (hall : u.allDirectories = s'.allDirectories) (hne : (s.directories dir).tables k ≠ 0)
    (hword : word = hardwareEntry table)
    (hentry : ((s.directories dir).tables k = (s.directories s.kernelPageDirectory).tables k ∧
        table = (s.directories dir).tables k) ∨
      ((s.directories dir).tables k ≠ (s.directories s.kernelPageDirectory).tables k ∧
        table ≠ 0 ∧ table ∈ u.allTables ∧ table ∉ s'.allTables ∧
        ∀ e < 1024, Copied s' u ((s.directories dir).tables k) table e)) :
    DirCloning n s (setEntry u new k table word) dir new (k + 1) := by
  have hmem := hs.tables dir hdir k hne
  have hold (i : ℕ) (hi : i ≠ k) : ((setEntry u new k table word).directories new).tables i =
      (s'.directories new).tables i := by
    rw [setEntry_tables, Function.update_of_ne hi, hdirs]
  have holdp (i : ℕ) (hi : i ≠ k) :
      ((setEntry u new k table word).directories new).tablesPhysical i =
      (s'.directories new).tablesPhysical i := by
    rw [setEntry_physical, Function.update_of_ne hi, hdirs]
  have hself : ((setEntry u new k table word).directories new).tables k = table := by
    rw [setEntry_tables, Function.update_self]
  have hselfp : ((setEntry u new k table word).directories new).tablesPhysical k = word := by
    rw [setEntry_physical, Function.update_self]
  have hkeptu : Kept s u := h.kept.trans hkept
  have hkept' : Kept s' (setEntry u new k table word) :=
    ⟨hkept.tables, hkept.allTables, hkept.marked, hkept.contents⟩
  have hfreshk (i : ℕ) (heq : table = (s'.directories new).tables i) (h0 : table ≠ 0)
      (hfresh : table ∉ s.allTables) : False := by
    rcases hentry with ⟨-, ht⟩ | ⟨-, -, -, hts, -⟩
    · exact hfresh (ht ▸ hmem)
    · exact hts (heq ▸ h.mem hs hdir (heq ▸ h0))
  refine ⟨?_, ⟨hkeptu.tables, hkeptu.allTables, hkeptu.marked, hkeptu.contents⟩, ?_, ?_, ?_, ?_, ?_,
    ?_, ?_, ?_, ?_, ?_, ?_⟩
  · apply hu.setEntry
    rw [hall, h.allDirectories]
    exact hnew
  · exact fun a ha => h.heap a (hheap a ha)
  · intro d hd
    rw [setEntry_other _ _ _ hd, hdirs, h.others d hd]
  · exact hkernel.trans h.kernel
  · exact hcurrent.trans h.current
  · exact hall.trans h.allDirectories
  · intro i hi hzero
    have hik : i ≠ k := by
      rintro rfl
      exact hne hzero
    rw [hold i hik]
    exact h.absent i (by omega) hzero
  · intro i hi hi0 hik
    by_cases heq : i = k
    · subst heq
      rcases hentry with ⟨-, ht⟩ | ⟨hnk, -⟩
      · exact hself.trans ht
      · exact absurd hik hnk
    · rw [hold i heq]
      exact h.shared i (by omega) hi0 hik
  · intro i hi hi0 hik
    by_cases heq : i = k
    · subst heq
      rcases hentry with ⟨hk, -⟩ | ⟨-, ht0, htu, hts, hcopy⟩
      · exact absurd hk hik
      · rw [hself]
        refine ⟨ht0, htu, fun hc => hts (h.kept.allTables _ hc), fun e he => ?_⟩
        exact (hcopy e he).of_kept hs.toFrames hmem h.kept
    · obtain ⟨h1, h2, h3, h5⟩ := h.own i (by omega) hi0 hik
      rw [hold i heq]
      exact ⟨h1, hkept.allTables _ h2, h3, fun e he => (h5 e he).kept h.sound.toFrames h2 hkept'⟩
  · intro i i' heq h0 hfresh
    by_cases hi : i = k
    · by_cases hi' : i' = k
      · rw [hi, hi']
      · rw [hi, hself] at heq h0 hfresh
        rw [hold i' hi'] at heq
        exact (hfreshk i' heq h0 hfresh).elim
    · by_cases hi' : i' = k
      · rw [hold i hi] at heq h0 hfresh
        rw [hi', hself] at heq
        rw [heq] at h0 hfresh
        exact (hfreshk i heq.symm h0 hfresh).elim
      · rw [hold i hi] at heq h0 hfresh
        rw [hold i' hi'] at heq
        exact h.apart i i' heq h0 hfresh
  · intro i hi
    rw [hold i (by omega)]
    exact h.rest i (by omega)
  · intro i
    by_cases hi : i = k
    · rw [hi, hself, hselfp, hword]
    · rw [hold i hi, holdp i hi]
      exact h.physical i

theorem cloneTables_spec (hs : Sound n s) (hdir : dir ∈ s.allDirectories)
    (hnew : new ∉ s.allDirectories) (hzero : ∀ i, (s.directories new).tables i = 0)
    (hpzero : ∀ i, (s.directories new).tablesPhysical i = 0)
    (h : cloneTables s dir new k = some s') : DirCloning n s s' dir new k := by
  have hne : dir ≠ new := by
    rintro rfl
    exact hnew hdir
  have hkne : s.kernelPageDirectory ≠ new := by
    intro hk
    exact hnew (hk ▸ hs.kernel)
  induction k generalizing s' with
  | zero =>
    obtain rfl : s = s' := Option.some.inj h
    exact ⟨hs, .refl s, fun _ h => h, fun _ _ => rfl, rfl, rfl, rfl, fun i hi => by omega,
      fun i hi => by omega, fun i hi => by omega, fun i _ _ h0 => absurd (hzero i) h0,
      fun i _ => hzero i, fun i => by rw [hpzero, hzero, hardwareEntry, if_pos rfl]⟩
  | succ k ih =>
    obtain ⟨s₁, hs₁, hstep⟩ := Option.bind_eq_some_iff.mp h
    have hk := ih hs₁
    simp only [hk.others dir hne, hk.kernel, hk.others _ hkne] at hstep
    by_cases h0 : (s.directories dir).tables k ≠ 0
    · rw [if_pos h0] at hstep
      by_cases hshared : (s.directories dir).tables k =
          (s.directories s.kernelPageDirectory).tables k
      · rw [if_pos hshared] at hstep
        obtain rfl := Option.some.inj hstep
        exact hk.enter hs hdir hnew hk.sound (.refl s₁) (fun _ h => h) rfl rfl rfl rfl h0
          (hs.physical dir hdir k) (Or.inl ⟨hshared, rfl⟩)
      · rw [if_neg hshared] at hstep
        obtain ⟨⟨t, s₂⟩, hclone, hstep⟩ := Option.bind_eq_some_iff.mp hstep
        obtain ⟨p, hp, rfl⟩ := Option.map_eq_some_iff.mp hstep
        have hmem := hk.kept.allTables _ (hs.tables dir hdir k h0)
        have hc := pageTableClone_spec hk.sound hmem hclone
        obtain ⟨ht0, htm, htn⟩ := hc.sound.place t (Or.inr hc.mem)
        have hnew₂ : new ∉ s₂.allDirectories := by
          rw [hc.allDirectories, hk.allDirectories]
          exact hnew
        have hphys := physical_eq (hc.sound.setTable hnew₂ k t).toDirectories (by omega) htn
        obtain rfl : p = t := Option.some.inj (hp.symm.trans hphys)
        exact hk.enter hs hdir hnew hc.sound hc.kept hc.heap hc.directories hc.kernel hc.current
          hc.allDirectories h0 (if_neg ht0).symm
          (Or.inr ⟨hshared, ht0, hc.mem, hc.fresh.2, hc.copied⟩)
    · rw [if_neg h0] at hstep
      obtain rfl := Option.some.inj hstep
      rw [not_not] at h0
      refine ⟨hk.sound, hk.kept, hk.heap, hk.others, hk.kernel, hk.current, hk.allDirectories, ?_, ?_,
        ?_, hk.apart, fun i hi => hk.rest i (by omega), hk.physical⟩
      · intro i hi hz
        rcases Nat.lt_succ_iff_lt_or_eq.mp hi with hlt | rfl
        · exact hk.absent i hlt hz
        · exact hk.rest i le_rfl
      · intro i hi hz
        rcases Nat.lt_succ_iff_lt_or_eq.mp hi with hlt | rfl
        · exact hk.shared i hlt hz
        · exact absurd h0 hz
      · intro i hi hz
        rcases Nat.lt_succ_iff_lt_or_eq.mp hi with hlt | rfl
        · exact hk.own i hlt hz
        · exact absurd h0 hz

/-- The fields that making a directory does not touch. -/
structure SameTables (s s' : Machine) : Prop where
  pageTables : s'.pageTables = s.pageTables
  glbFrames : s'.glbFrames = s.glbFrames
  frames : s'.frames = s.frames
  kernel : s'.kernelPageDirectory = s.kernelPageDirectory
  current : s'.currentPageDirectory = s.currentPageDirectory
  allTables : s'.allTables = s.allTables
  allDirectories : s'.allDirectories = s.allDirectories

theorem DirCloning.rebase {s₂ : Machine} (h : DirCloning n s₂ s' dir new k) (hsame : SameTables s s₂)
    (hothers : ∀ d, d ≠ new → s₂.directories d = s.directories d)
    (hheap : ∀ a ∈ s₂.heap, a ∈ s.heap) (hdir : dir ≠ new) (hk : s.kernelPageDirectory ≠ new) :
    DirCloning n s s' dir new k := by
  have hcopied {t t' e : ℕ} (hc : Copied s₂ s' t t' e) : Copied s s' t t' e := by
    rwa [Copied, hsame.pageTables, hsame.frames] at hc
  have habsent := h.absent
  have hshared := h.shared
  have hown := h.own
  have hapart := h.apart
  rw [hothers dir hdir] at habsent
  rw [hothers dir hdir, hsame.kernel, hothers _ hk] at hshared hown
  rw [hsame.allTables] at hown hapart
  refine ⟨h.sound, ⟨?_, ?_, ?_, ?_⟩, fun a ha => hheap a (h.heap a ha), ?_, h.kernel.trans hsame.kernel,
    h.current.trans hsame.current, h.allDirectories.trans hsame.allDirectories, habsent, hshared, ?_,
    hapart, h.rest, h.physical⟩
  · rw [← hsame.allTables, ← hsame.pageTables]
    exact h.kept.tables
  · rw [← hsame.allTables]
    exact h.kept.allTables
  · rw [← hsame.glbFrames]
    exact h.kept.marked
  · rw [← hsame.glbFrames, ← hsame.frames]
    exact h.kept.contents
  · intro d hd
    rw [h.others d hd, hothers d hd]
  · intro i hi hne hni
    obtain ⟨h1, h2, h3, h4⟩ := hown i hi hne hni
    exact ⟨h1, h2, h3, fun e he => hcopied (h4 e he)⟩

theorem newDirectory_some (h : newDirectory s = some (dir, s')) :
    s.heap = dir :: s'.heap ∧ s'.directories = Function.update s.directories dir zeroDirectory ∧
      SameTables s s' := by
  unfold newDirectory at h
  cases hheap : s.heap with
  | nil =>
    rw [hheap] at h
    cases h
  | cons a heap =>
    rw [hheap] at h
    obtain ⟨rfl, rfl⟩ : a = dir ∧ _ := by simpa using h
    exact ⟨rfl, rfl, rfl, rfl, rfl, rfl, rfl, rfl, rfl⟩

/-- The finished clone joins the directories. -/
theorem DirCloning.join (h : DirCloning n s s' dir new 1024) (hs : Sound n s)
    (hdir : dir ∈ s.allDirectories) (hnew : new ∉ s.allDirectories) (hheap : new ∉ s'.heap) :
    Sound n { s' with allDirectories := new :: s.allDirectories } := by
  have hkne : s.kernelPageDirectory ≠ new := by
    intro hk
    exact hnew (hk ▸ hs.kernel)
  have hkernel : s'.directories s'.kernelPageDirectory = s.directories s.kernelPageDirectory := by
    rw [h.kernel, h.others _ hkne]
  have hold (d : ℕ) (hd : d ∈ s.allDirectories) : s'.directories d = s.directories d := by
    apply h.others
    rintro rfl
    exact hnew hd
  have hall := h.allDirectories
  -- an entry of the clone is one of the kernel's tables or a table made for it
  have hentry (i : ℕ) (hi : (s'.directories new).tables i ≠ 0) :
      ((s'.directories new).tables i = (s.directories dir).tables i ∧
        (s.directories dir).tables i ≠ 0 ∧
        (s.directories dir).tables i = (s.directories s.kernelPageDirectory).tables i) ∨
      (s'.directories new).tables i ∉ s.allTables := by
    by_cases hik : i < 1024
    · have hne : (s.directories dir).tables i ≠ 0 := fun hz => hi (h.absent i hik hz)
      by_cases hk : (s.directories dir).tables i = (s.directories s.kernelPageDirectory).tables i
      · exact Or.inl ⟨h.shared i hik hne hk, hne, hk⟩
      · exact Or.inr (h.own i hik hne hk).2.2.1
    · exact absurd (h.rest i (by omega)) hi
  refine ⟨{ toHeap := ?_, toDirectories := ?_, toFrames := h.sound.toFrames.congr rfl rfl rfl },
    h.sound.zero⟩
  · refine ⟨h.sound.nodup, fun a ha => ?_, h.sound.place⟩
    obtain ⟨h1, h2⟩ := h.sound.fresh a ha
    refine ⟨h1, ?_⟩
    rw [hall] at h2
    rw [List.mem_cons, not_or]
    refine ⟨?_, h2⟩
    rintro rfl
    exact hheap ha
  · refine ⟨h.sound.bound, ?_, ?_, ?_, ?_, ?_, ?_, h.sound.identity⟩
    · change s'.kernelPageDirectory ∈ new :: s.allDirectories
      rw [h.kernel]
      exact List.mem_cons_of_mem _ hs.kernel
    · change s'.currentPageDirectory = 0 ∨ s'.currentPageDirectory ∈ new :: s.allDirectories
      rw [h.current]
      exact hs.current.imp_right (List.mem_cons_of_mem _)
    · intro d hd i hi
      rcases List.mem_cons.mp hd with rfl | hd
      · exact h.mem hs hdir hi
      · change (s'.directories d).tables i ∈ s'.allTables
        change (s'.directories d).tables i ≠ 0 at hi
        rw [hold d hd] at hi ⊢
        exact h.kept.allTables _ (hs.tables d hd i hi)
    · intro d hd d' hd' i i' heq hi
      change (s'.directories d).tables i = (s'.directories d').tables i' at heq
      change (s'.directories d).tables i ≠ 0 at hi
      change i = i' ∧ (d = d' ∨ (s'.directories d).tables i =
        (s'.directories s'.kernelPageDirectory).tables i)
      rw [hkernel]
      rcases List.mem_cons.mp hd with rfl | hdm
      · rcases hentry i hi with ⟨h1, h2, h3⟩ | hfresh
        · rcases List.mem_cons.mp hd' with rfl | hd'
          · have hi' : (s'.directories d').tables i' ≠ 0 := heq ▸ hi
            rcases hentry i' hi' with ⟨h1', h2', h3'⟩ | hfresh'
            · have heq' : (s.directories dir).tables i = (s.directories dir).tables i' := by
                rw [← h1, ← h1', heq]
              exact ⟨(hs.own dir hdir dir hdir i i' heq' h2).1, Or.inl rfl⟩
            · rw [← heq, h1] at hfresh'
              exact absurd (hs.tables dir hdir i h2) hfresh'
          · rw [hold d' hd', h1] at heq
            obtain ⟨hii, -⟩ := hs.own dir hdir d' hd' i i' heq h2
            exact ⟨hii, Or.inr (h1.trans h3)⟩
        · rcases List.mem_cons.mp hd' with rfl | hd'
          · exact ⟨h.apart i i' heq hi hfresh, Or.inl rfl⟩
          · rw [heq, hold d' hd'] at hfresh
            rw [heq, hold d' hd'] at hi
            exact absurd (hs.tables d' hd' i' hi) hfresh
      · rw [hold d hdm] at heq hi ⊢
        rcases List.mem_cons.mp hd' with rfl | hd'
        · have hi' : (s'.directories d').tables i' ≠ 0 := heq ▸ hi
          rcases hentry i' hi' with ⟨h1', h2', h3'⟩ | hfresh'
          · rw [h1'] at heq
            obtain ⟨hii, -⟩ := hs.own d hdm dir hdir i i' heq hi
            refine ⟨hii, Or.inr ?_⟩
            rw [heq, h3', hii]
          · rw [← heq] at hfresh'
            exact absurd (hs.tables d hdm i hi) hfresh'
        · rw [hold d' hd'] at heq
          exact hs.own d hdm d' hd' i i' heq hi
    · intro d hd i
      change (s'.directories d).tablesPhysical i = hardwareEntry ((s'.directories d).tables i)
      rcases List.mem_cons.mp hd with rfl | hd
      · exact h.physical i
      · rw [hold d hd]
        exact hs.physical d hd i
    · intro d hd i hi hne
      change (s'.directories s'.kernelPageDirectory).tables i ≠ 0 at hne
      change (s'.directories d).tables i = (s'.directories s'.kernelPageDirectory).tables i
      rw [hkernel] at hne ⊢
      rcases List.mem_cons.mp hd with rfl | hd
      · have hshare := hs.shares dir hdir i hi hne
        rw [h.shared i hi (by rw [hshare]; exact hne) hshare, hshare]
      · rw [hold d hd]
        exact hs.shares d hd i hi hne

/-- A cloned directory: the machine goes on soundly, and the clone is finished. -/
theorem pageDirectoryClone_spec (hs : Sound n s) (hdir : dir ∈ s.allDirectories)
    (h : pageDirectoryClone s dir = some (new, s')) :
    ∃ s₁, s' = { s₁ with allDirectories := new :: s.allDirectories } ∧
      DirCloning n s s₁ dir new 1024 ∧ Sound n s' ∧ new ∉ s.allDirectories ∧ new ≠ 0 := by
  obtain ⟨⟨new', s₁⟩, hnew, h⟩ := Option.bind_eq_some_iff.mp h
  obtain ⟨p, -, h⟩ := Option.bind_eq_some_iff.mp h
  obtain ⟨s₃, htables, heq⟩ := Option.map_eq_some_iff.mp h
  obtain ⟨rfl, rfl⟩ : new' = new ∧ _ = s' := by simpa using heq
  obtain ⟨hheap, hdirs, hrest⟩ := newDirectory_some hnew
  have hmem : new' ∈ s.heap := by
    rw [hheap]
    exact List.mem_cons_self
  have hfresh := (hs.fresh new' hmem).2
  have hnodup := hs.nodup
  rw [hheap, List.nodup_cons] at hnodup
  let s₂ : Machine := { s₁ with
    directories := Function.update s₁.directories new' { s₁.directories new' with physical := p + 0x1000 } }
  have hothers (d : ℕ) (hd : d ≠ new') : s₂.directories d = s.directories d := by
    change Function.update s₁.directories new' _ d = _
    rw [Function.update_of_ne hd, hdirs, Function.update_of_ne hd]
  have hold (d : ℕ) (hd : d ∈ s.allDirectories) : s₂.directories d = s.directories d := by
    apply hothers
    rintro rfl
    exact hfresh hd
  have hzero (i : ℕ) : (s₂.directories new').tables i = 0 := by
    change (Function.update s₁.directories new' _ new').tables i = 0
    rw [Function.update_self, hdirs, Function.update_self]
    rfl
  have hs₂ : Sound n s₂ := by
    refine hs.congr hrest.pageTables hrest.glbFrames
      (fun d hd => by rw [hold d hd]; exact ⟨rfl, rfl⟩) hrest.allTables hrest.allDirectories
      hrest.kernel ?_ hnodup.2 fun a ha => ?_
    · change s₁.currentPageDirectory = 0 ∨ s₁.currentPageDirectory ∈ s.allDirectories
      rw [hrest.current]
      exact hs.current
    · rw [hheap]
      exact List.mem_cons_of_mem _ ha
  have hall : s₂.allDirectories = s.allDirectories := hrest.allDirectories
  have hdne : dir ≠ new' := by
    rintro rfl
    exact hfresh hdir
  have hkne : s.kernelPageDirectory ≠ new' := by
    intro hk
    exact hfresh (hk ▸ hs.kernel)
  have hsame : SameTables s s₂ := ⟨hrest.pageTables, hrest.glbFrames, hrest.frames, hrest.kernel,
    hrest.current, hrest.allTables, hrest.allDirectories⟩
  have hpzero (i : ℕ) : (s₂.directories new').tablesPhysical i = 0 := by
    change (Function.update s₁.directories new' _ new').tablesPhysical i = 0
    rw [Function.update_self, hdirs, Function.update_self]
    rfl
  have hdc := cloneTables_spec hs₂ (hall ▸ hdir) (hall ▸ hfresh) hzero hpzero htables
  have hclone := hdc.rebase hsame hothers (fun a ha => hheap ▸ List.mem_cons_of_mem _ ha) hdne hkne
  have hnotin : new' ∉ s₃.heap := fun ha => hnodup.1 (hdc.heap new' ha)
  have hlast : s₃.allDirectories = s.allDirectories := hclone.allDirectories
  refine ⟨s₃, by rw [hlast], hclone, ?_, hfresh, (hs.place new' (Or.inl hmem)).1⟩
  rw [hlast]
  exact hclone.join hs hdir hfresh hnotin

end Clone

end Eedox.AddressSpaces
