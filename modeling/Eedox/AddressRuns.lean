import Eedox.AddressSpaces
import Eedox.Library.Runs

namespace Eedox.AddressSpaces

open Bitset Paging

section Mapping

variable {n k : ℕ} {s s' : Machine} {dir index table address t e : ℕ}

theorem setEntry_entry (s : Machine) (dir index table word d i : ℕ) :
    ((setEntry s dir index table word).directories d).tables i =
      if d = dir ∧ i = index then table else (s.directories d).tables i := by
  by_cases hd : d = dir
  · subst hd
    by_cases hi : i = index
    · subst hi
      simp
    · simp [hi]
  · simp [hd]

theorem setEntry_word (s : Machine) (dir index table word d i : ℕ) :
    ((setEntry s dir index table word).directories d).tablesPhysical i =
      if d = dir ∧ i = index then word else (s.directories d).tablesPhysical i := by
  by_cases hd : d = dir
  · subst hd
    by_cases hi : i = index
    · subst hi
      simp
    · simp [hi]
  · simp [hd]

/-- A table that no directory has enters a directory where it has none. -/
theorem Layout.enter (h : Layout n k s) (htable : table ∈ s.allTables)
    (habsent : (s.directories dir).tables index = 0)
    (hfresh : ∀ d ∈ s.allDirectories, ∀ i, (s.directories d).tables i ≠ table)
    (honly : dir ≠ s.kernelPageDirectory ∨ ∀ d ∈ s.allDirectories, d = dir) :
    Layout n k (setEntry s dir index table (hardwareEntry table)) := by
  refine { toHeap := ⟨h.nodup, h.fresh, h.place⟩, toDirectories := ?_,
           toFrames := h.toFrames.congr rfl rfl rfl }
  -- the kernel's tables are not replaced
  have hkernel (i : ℕ) (hi : (s.directories s.kernelPageDirectory).tables i ≠ 0) :
      ¬ (s.kernelPageDirectory = dir ∧ i = index) := by
    rintro ⟨hk, rfl⟩
    rw [hk] at hi
    exact hi habsent
  refine ⟨h.bound, h.kernel, h.current, ?_, ?_, ?_, ?_, ?_⟩
  · intro d hd i hi
    rw [setEntry_entry] at hi ⊢
    split_ifs at hi ⊢ with hc
    · exact htable
    · exact h.tables d hd i hi
  · intro d hd d' hd' i i' heq hi
    change i = i' ∧ (d = d' ∨ _ = ((setEntry s dir index table (hardwareEntry table)).directories
      s.kernelPageDirectory).tables i)
    rw [setEntry_entry] at hi
    rw [setEntry_entry, setEntry_entry] at heq
    rw [setEntry_entry, setEntry_entry]
    split_ifs at heq hi with hc hc' hc'
    · exact ⟨hc.2.trans hc'.2.symm, Or.inl (hc.1.trans hc'.1.symm)⟩
    · exact absurd heq.symm (hfresh d' hd' i')
    · exact absurd heq (hfresh d hd i)
    · obtain ⟨rfl, hor⟩ := h.own d hd d' hd' i i' heq hi
      refine ⟨rfl, hor.imp_right fun hk => ?_⟩
      rw [if_neg hc, if_neg (hkernel i (hk ▸ hi))]
      exact hk
  · intro d hd i
    rw [setEntry_entry, setEntry_word]
    split_ifs with hc
    · rfl
    · exact h.physical d hd i
  · intro d hd i hi hne
    change ((setEntry s dir index table (hardwareEntry table)).directories
      s.kernelPageDirectory).tables i ≠ 0 at hne
    change _ = ((setEntry s dir index table (hardwareEntry table)).directories
      s.kernelPageDirectory).tables i
    rcases honly with hk | hk
    · have hsame := setEntry_entry s dir index table (hardwareEntry table) s.kernelPageDirectory i
      rw [if_neg fun hc => hk hc.1.symm] at hsame
      rw [hsame] at hne ⊢
      rw [setEntry_entry, if_neg]
      · exact h.shares d hd i hi hne
      · rintro ⟨rfl, rfl⟩
        rw [h.shares d hd i hi hne] at habsent
        exact hne habsent
    · rw [hk d hd, hk _ h.kernel]
  · intro j hpos hjk
    obtain ⟨hne, hframe⟩ := h.identity j hpos hjk
    change ((setEntry s dir index table (hardwareEntry table)).directories
      s.kernelPageDirectory).tables (j / 1024) ≠ 0 ∧ (s.pageTables (((setEntry s dir index table
      (hardwareEntry table)).directories s.kernelPageDirectory).tables (j / 1024)) (j % 1024)).frame = j
    rw [setEntry_entry, if_neg (hkernel _ hne)]
    exact ⟨hne, hframe⟩

theorem getPhysicalAddress_eq_some {a p : ℕ} : getPhysicalAddress s a = some p ↔
    (s.currentPageDirectory = 0 ∧ a = p) ∨
      (s.currentPageDirectory ≠ 0 ∧
        (s.directories s.currentPageDirectory).tables (a / 0x1000 / 1024) ≠ 0 ∧
        ((s.pageTables ((s.directories s.currentPageDirectory).tables (a / 0x1000 / 1024))
          (a / 0x1000 % 1024)).frame * 0x1000 + a % 0x1000) % 2 ^ 32 = p) := by
  by_cases hzero : s.currentPageDirectory = 0
  · simp only [getPhysicalAddress, if_pos hzero, Option.some.injEq]
    exact ⟨fun h => Or.inl ⟨hzero, h⟩, fun h => h.elim And.right fun hc => absurd hzero hc.1⟩
  · by_cases htable : (s.directories s.currentPageDirectory).tables (a / 0x1000 / 1024) = 0
    · simp only [getPhysicalAddress, if_neg hzero, if_pos htable]
      exact ⟨fun h => absurd h (Option.some_ne_none p).symm, fun h => h.elim (fun hc => absurd hc.1 hzero)
        fun hc => absurd htable hc.2.1⟩
    · simp only [getPhysicalAddress, if_neg hzero, if_neg htable, Option.some.injEq]
      exact ⟨fun h => Or.inr ⟨hzero, htable, h⟩, fun h => h.elim (fun hc => absurd hc.1 hzero)
        fun hc => hc.2.2⟩

/-- Where a directory has no table yet, entering one changes no translation. -/
theorem getPhysicalAddress_setTable {a p : ℕ} (habsent : (s.directories dir).tables index = 0)
    (h : getPhysicalAddress s a = some p) :
    getPhysicalAddress (setTable s dir index table) a = some p := by
  apply getPhysicalAddress_eq_some.mpr
  refine (getPhysicalAddress_eq_some.mp h).imp_right ?_
  rintro ⟨hzero, hne, hp⟩
  have hsame : ((setTable s dir index table).directories s.currentPageDirectory).tables
      (a / 0x1000 / 1024) =
      (s.directories s.currentPageDirectory).tables (a / 0x1000 / 1024) := by
    by_cases hd : s.currentPageDirectory = dir
    · have hi : a / 0x1000 / 1024 ≠ index := by
        intro hi
        rw [hd, hi] at hne
        exact hne habsent
      simp only [setTable, hd, Function.update_self, Function.update_of_ne hi]
    · simp only [setTable, Function.update_of_ne hd]
  refine ⟨hzero, ?_, ?_⟩
  · exact hsame ▸ hne
  · change ((s.pageTables (((setTable s dir index table).directories s.currentPageDirectory).tables
      (a / 0x1000 / 1024)) (a / 0x1000 % 1024)).frame * 0x1000 + a % 0x1000) % 2 ^ 32 = p
    rw [hsame]
    exact hp

/-- What `get_page` gives: a page of the directory, in a new table if it had none there. -/
structure Found (n k : ℕ) (s s' : Machine) (dir address t e : ℕ) : Prop where
  layout : Layout n k s'
  kept : Kept s s'
  table : t = (s'.directories dir).tables (address / 0x1000 / 1024)
  nonzero : t ≠ 0
  entry : e = address / 0x1000 % 1024
  tables : ∀ d i, (d = dir → i ≠ address / 0x1000 / 1024) →
    (s'.directories d).tables i = (s.directories d).tables i
  old : (s.directories dir).tables (address / 0x1000 / 1024) ≠ 0 →
    t = (s.directories dir).tables (address / 0x1000 / 1024)
  fresh : (s.directories dir).tables (address / 0x1000 / 1024) = 0 →
    ∀ e, s'.pageTables t e = zeroPage
  glbFrames : s'.glbFrames = s.glbFrames
  kernel : s'.kernelPageDirectory = s.kernelPageDirectory
  current : s'.currentPageDirectory = s.currentPageDirectory
  allDirectories : s'.allDirectories = s.allDirectories

theorem getPage_spec {init : Bool} (h : Layout n k s) (hdir : dir ∈ s.allDirectories)
    (honly : dir ≠ s.kernelPageDirectory ∨ ∀ d ∈ s.allDirectories, d = dir)
    (hinit : init = true ∨ n = k) (hget : getPage s address init dir = some (s', t, e)) :
    Found n k s s' dir address t e := by
  rw [getPage] at hget
  by_cases habsent : (s.directories dir).tables (address / 0x1000 / 1024) = 0
  · simp only [if_pos habsent] at hget
    obtain ⟨⟨table, s₁⟩, hnew, hget⟩ := Option.bind_eq_some_iff.mp hget
    obtain ⟨p, hp, heq⟩ := Option.map_eq_some_iff.mp hget
    obtain ⟨hlayout, hkept, hfresh⟩ := h.newTable hnew
    obtain ⟨-, htables, hlist, hbits, -, hdirs, hld, hk, hc⟩ := newTable_some hnew
    have hmem : table ∈ s₁.allTables := by
      rw [hlist]
      exact List.mem_cons_self
    obtain ⟨hne, hmod, hlt⟩ := hlayout.place table (Or.inr hmem)
    have habsent₁ : (s₁.directories dir).tables (address / 0x1000 / 1024) = 0 := by
      rw [hdirs]
      exact habsent
    have hphys : p = table := by
      rcases hinit with rfl | rfl
      · simpa using hp.symm
      · have htrans := physical_eq hlayout.toDirectories (by omega) hlt
        have hp' := @getPhysicalAddress_setTable _ _ _ table _ _ habsent₁ htrans
        split_ifs at hp
        · exact (Option.some.inj hp).symm
        · exact Option.some.inj (hp.symm.trans hp')
    obtain ⟨rfl, rfl, rfl⟩ : setPhysical (setTable s₁ dir (address / 0x1000 / 1024) table) dir
        (address / 0x1000 / 1024) (p ||| 0x7) = s' ∧ table / 0x1000 * 0x1000 = t ∧
        address / 0x1000 % 1024 = e := by simpa using heq
    have htable : table / 0x1000 * 0x1000 = table := by omega
    have hentry : setPhysical (setTable s₁ dir (address / 0x1000 / 1024) table) dir
        (address / 0x1000 / 1024) (p ||| 0x7) =
        setEntry s₁ dir (address / 0x1000 / 1024) table (hardwareEntry table) := by
      rw [hphys, hardwareEntry, if_neg hne]
      rfl
    rw [hentry, htable]
    have hlater := hlayout.enter hmem habsent₁
      (fun d hd i hi => hfresh (hi ▸ (by
        rw [hdirs] at hi
        rw [hld] at hd
        have hmemd := h.tables d hd i (by rw [hi]; exact hne)
        rw [hdirs]
        exact hmemd)))
      (by rw [hk, hld]; exact honly)
    refine ⟨hlater, ⟨hkept.tables, hkept.allTables, hkept.marked, hkept.contents⟩, ?_, hne, rfl, ?_,
      fun hc' => absurd habsent hc', ?_, hbits, hk, hc, hld⟩
    · rw [setEntry_entry, if_pos ⟨rfl, rfl⟩]
    · intro d i hdi
      rw [setEntry_entry, if_neg fun hc' => hdi hc'.1 hc'.2, hdirs]
    · intro _ e
      change s₁.pageTables table e = zeroPage
      rw [htables, Function.update_self]
  · simp only [if_neg habsent] at hget
    obtain ⟨rfl, rfl, rfl⟩ : s = s' ∧
        (s.directories dir).tables (address / 0x1000 / 1024) / 0x1000 * 0x1000 = t ∧
        address / 0x1000 % 1024 = e := by simpa using hget
    obtain ⟨hne, hmod, -⟩ := h.place _ (Or.inr (h.tables dir hdir _ habsent))
    have htable : (s.directories dir).tables (address / 0x1000 / 1024) / 0x1000 * 0x1000 =
        (s.directories dir).tables (address / 0x1000 / 1024) := by omega
    rw [htable]
    exact ⟨h, .refl s, rfl, hne, rfl, fun _ _ _ => rfl, fun _ => rfl, fun hc => absurd hc habsent,
      rfl, rfl, rfl, rfl⟩

/-- A page without a frame takes the first free one. -/
theorem Layout.take {w u : Bool} (h : Layout n k s) (hpage : (s.pageTables t e).frame = 0)
    (halloc : allocFrame s t e w u = some s') :
    ∃ idx, bitsetFirstUnset s.glbFrames = some idx ∧
      s' = setPage { s with glbFrames := bitsetSet s.glbFrames idx true } t e
        { s.pageTables t e with frame := idx, present := true, rw := w, user := !u } ∧
      Layout n k s' := by
  obtain ⟨idx, hidx, rfl⟩ := allocFrame_some halloc
  have hfree := (bitsetFirstUnset_some hidx).2.1
  refine ⟨idx, hidx, rfl,
    h.frames_changed ⟨rfl, rfl, rfl, rfl, rfl, rfl⟩ (h.toFrames.take hfree rfl) ?_⟩
  intro j hpos hjk
  obtain ⟨-, hframe⟩ := h.identity j hpos hjk
  rw [setPage_frame, if_neg]
  · exact hframe
  · rintro ⟨rfl, rfl⟩
    change (s.pageTables _ _).frame = j at hframe
    omega

end Mapping

/-- The page that a directory maps an address to, by the number of the page. -/
def pageOf (s : Machine) (dir page : ℕ) : PageT :=
  let table := (s.directories dir).tables (page / 1024)
  if table = 0 then zeroPage else s.pageTables table (page % 1024)

section Map

variable {n : ℕ} {s s' : Machine} {address : ℕ} {w u : Bool}

theorem pageOf_pos {dir page : ℕ} (h : (s.directories dir).tables (page / 1024) ≠ 0) :
    pageOf s dir page = s.pageTables ((s.directories dir).tables (page / 1024)) (page % 1024) :=
  if_neg h

/-- The page found is the one the directory maps the address to. -/
theorem Found.pageOf_eq {k dir t e : ℕ} (h : Found n k s s' dir address t e)
    (hdir : dir ∈ s.allDirectories) (hs : Layout n k s) (d page : ℕ) (hd : d ∈ s.allDirectories) :
    pageOf s' d page = pageOf s d page := by
  by_cases hc : d = dir ∧ page / 1024 = address / 0x1000 / 1024
  · obtain ⟨rfl, hpage⟩ := hc
    have ht := h.table
    rw [← hpage] at ht
    rw [pageOf_pos (ht ▸ h.nonzero), ← ht]
    by_cases hold : (s.directories d).tables (page / 1024) = 0
    · rw [h.fresh (hpage ▸ hold), pageOf, if_pos hold]
    · rw [pageOf_pos hold, h.old (hpage ▸ hold), ← hpage]
      rw [h.kept.tables _ (hs.tables d hdir _ hold)]
  · have hsame := h.tables d (page / 1024) fun hd' hp => hc ⟨hd', hp⟩
    by_cases hold : (s.directories d).tables (page / 1024) = 0
    · rw [pageOf, pageOf, hsame, if_pos hold, if_pos hold]
    · rw [pageOf, pageOf, hsame, if_neg hold, if_neg hold, h.kept.tables _ (hs.tables d hd _ hold)]

theorem pageOf_setPage (s : Machine) (t e : ℕ) (p : PageT) (d page : ℕ) :
    pageOf (setPage s t e p) d page =
      if (s.directories d).tables (page / 1024) = t ∧ t ≠ 0 ∧ page % 1024 = e then p
      else pageOf s d page := by
  by_cases hzero : (s.directories d).tables (page / 1024) = 0
  · rw [if_neg fun hc => hc.2.1 (hc.1.symm.trans hzero)]
    exact (if_pos hzero).trans (if_pos hzero).symm
  · rw [pageOf_pos (s := setPage s t e p) hzero, setPage_frame]
    change (if (s.directories d).tables (page / 1024) = t ∧ page % 1024 = e then p else _) = _
    split_ifs with h1 h2 h2
    · rfl
    · exact absurd ⟨h1.1, h1.1 ▸ hzero, h1.2⟩ h2
    · exact absurd ⟨h2.1, h2.2.2⟩ h1
    · exact (pageOf_pos hzero).symm

/-- What mapping a page of the current directory does. -/
structure Mapping (n : ℕ) (s s' : Machine) (address : ℕ) : Prop where
  sound : Sound n s'
  kernel : s'.kernelPageDirectory = s.kernelPageDirectory
  current : s'.currentPageDirectory = s.currentPageDirectory
  allDirectories : s'.allDirectories = s.allDirectories
  mapped : (pageOf s' s.currentPageDirectory (address / 0x1000)).frame ≠ 0
  others : ∀ page, page ≠ address / 0x1000 → ∀ d ∈ s.allDirectories, pageOf s' d page = pageOf s d page
  kept : (pageOf s s.currentPageDirectory (address / 0x1000)).frame ≠ 0 →
    ∀ d ∈ s.allDirectories, ∀ page, pageOf s' d page = pageOf s d page

theorem mapPage_spec (hs : Sound n s) (hcur : s.currentPageDirectory ∈ s.allDirectories)
    (hne : s.currentPageDirectory ≠ s.kernelPageDirectory) (h : mapPage s address w u = some s') :
    Mapping n s s' address := by
  obtain ⟨⟨s₁, t, e⟩, hget, h⟩ := Option.bind_eq_some_iff.mp h
  have hf := getPage_spec hs.toLayout hcur (Or.inl hne) (Or.inr rfl) hget
  have hpages := hf.pageOf_eq hcur hs.toLayout
  have hzero : bitsetGet s₁.glbFrames 0 = true := by
    rw [hf.glbFrames]
    exact hs.zero
  have hpage : pageOf s₁ s.currentPageDirectory (address / 0x1000) = s₁.pageTables t e := by
    rw [pageOf_pos (hf.table ▸ hf.nonzero), hf.table, hf.entry]
  simp only at h
  split_ifs at h with hframe
  · obtain ⟨idx, hidx, rfl, hlayout⟩ := hf.layout.take hframe h
    obtain ⟨-, hfree, -⟩ := bitsetFirstUnset_some hidx
    have hidx0 : idx ≠ 0 := by
      rintro rfl
      rw [hzero] at hfree
      cases hfree
    refine ⟨⟨hlayout, ?_⟩, hf.kernel, hf.current, hf.allDirectories, ?_, ?_, fun hold => ?_⟩
    · change bitsetGet (bitsetSet s₁.glbFrames idx true) 0 = true
      rw [bitsetGet_set, hzero, Bool.or_true]
    · rw [pageOf_setPage, if_pos ⟨hf.table.symm, hf.nonzero, hf.entry.symm⟩]
      exact hidx0
    · intro page hpage d hd
      rw [pageOf_setPage, if_neg]
      · exact hpages d page hd
      · rintro ⟨ht, -, he⟩
        change (s₁.directories d).tables (page / 1024) = t at ht
        have hcur₁ : s.currentPageDirectory ∈ s₁.allDirectories := hf.allDirectories ▸ hcur
        have hd₁ : d ∈ s₁.allDirectories := hf.allDirectories ▸ hd
        have htable := hf.table
        have hidx := hf.layout.own d hd₁ _ hcur₁ _ _ (ht.trans htable) (ht ▸ hf.nonzero)
        have hentry := hf.entry
        omega
    · rw [← hpages _ _ hcur, hpage] at hold
      exact absurd hframe hold
  · obtain rfl := Option.some.inj h
    exact ⟨⟨hf.layout, hzero⟩, hf.kernel, hf.current, hf.allDirectories, hpage ▸ hframe,
      fun page _ d hd => hpages d page hd, fun _ d hd page => hpages d page hd⟩

end Map

section Boot

variable {n k heapEnd : ℕ} {s s' : Machine}

/-- The machine before paging: `kmalloc_a` gives pages of the kernel heap. -/
structure Booting (s : Machine) (heapEnd : ℕ) : Prop where
  bound : heapEnd ≤ 0xfffff000
  current : s.currentPageDirectory = 0
  tables : s.allTables = []
  directories : s.allDirectories = []
  nodup : s.heap.Nodup
  heap : ∀ a ∈ s.heap, a ≠ 0 ∧ a % 0x1000 = 0 ∧ a < heapEnd

/-- The kernel directory maps the first `k` pages, to the frames of the same numbers. -/
structure Identity (n k : ℕ) (s : Machine) : Prop extends Layout n k s where
  bits : ∀ j < 2 ^ 20, bitsetGet s.glbFrames j = decide (j < k)
  len : s.glbFrames.len = 2 ^ 20
  only : s.allDirectories = [s.kernelPageDirectory]
  above : ∀ page, k ≤ page → (pageOf s s.kernelPageDirectory page).frame = 0
  unset : s.currentPageDirectory = 0

theorem Identity.unset_bit (h : Identity n k s) {idx : ℕ} (hk : k < 2 ^ 20)
    (hidx : bitsetFirstUnset s.glbFrames = some idx) : idx = k := by
  obtain ⟨hlt, hfree, hbelow⟩ := bitsetFirstUnset_some hidx
  rw [h.len] at hlt
  have hge : ¬ idx < k := by
    have hbit := h.bits idx hlt
    rw [hfree] at hbit
    simpa using hbit.symm
  have hle : ¬ k < idx := by
    intro hlt'
    have hbit := h.bits k hk
    rw [hbelow k hlt'] at hbit
    simp at hbit
  omega

theorem identityMap_spec (h : Identity n 0 s) (hk : k ≤ 2 ^ 20) (hmap : identityMap s k = some s') :
    Identity n k s' ∧ s'.kernelPageDirectory = s.kernelPageDirectory := by
  induction k generalizing s' with
  | zero =>
    obtain rfl : s = s' := Option.some.inj hmap
    exact ⟨h, rfl⟩
  | succ k ih =>
    obtain ⟨s₁, hs₁, hmap⟩ := Option.bind_eq_some_iff.mp hmap
    obtain ⟨⟨s₂, t, e⟩, hget, hmap⟩ := Option.bind_eq_some_iff.mp hmap
    obtain ⟨hid, hkernel⟩ := ih (by omega) hs₁
    have honly : ∀ d ∈ s₁.allDirectories, d = s₁.kernelPageDirectory := by
      intro d hd
      rw [hid.only] at hd
      exact List.mem_singleton.mp hd
    have hf := getPage_spec hid.toLayout hid.kernel (Or.inr honly) (Or.inl rfl) hget
    have hpageNumber : k * 0x1000 / 0x1000 = k := by omega
    have ht := hf.table
    have he := hf.entry
    rw [hpageNumber] at ht he
    have hcurrent : s₂.kernelPageDirectory ∈ s₂.allDirectories := hf.layout.kernel
    have hpage : pageOf s₂ s₁.kernelPageDirectory k = s₂.pageTables t e := by
      rw [pageOf_pos (ht ▸ hf.nonzero), ht, he]
    have hframe : (s₂.pageTables t e).frame = 0 := by
      rw [← hpage, hf.pageOf_eq hid.kernel hid.toLayout _ _ hid.kernel]
      exact hid.above k le_rfl
    obtain ⟨idx, hidx, rfl, hlayout⟩ := hf.layout.take hframe hmap
    have hidk : idx = k := by
      rw [hf.glbFrames] at hidx
      exact hid.unset_bit (by omega) hidx
    subst hidk
    refine ⟨{ toLayout := ?_, bits := ?_, len := ?_, only := ?_, above := ?_, unset := ?_ }, ?_⟩
    · refine { toHeap := hlayout.toHeap, toDirectories := ?_, toFrames := hlayout.toFrames }
      refine ⟨by omega, hlayout.kernel, hlayout.current, hlayout.tables, hlayout.own, hlayout.physical,
        hlayout.shares, fun j hpos hj => ?_⟩
      rcases Nat.lt_succ_iff_lt_or_eq.mp hj with hlt | rfl
      · exact hlayout.identity j hpos hlt
      · have htable : (s₂.directories s₂.kernelPageDirectory).tables (j / 1024) = t := by
          rw [hf.kernel]
          exact ht.symm
        refine ⟨htable.symm ▸ hf.nonzero, ?_⟩
        rw [setPage_frame, if_pos ⟨htable, he.symm⟩]
    · intro j hj
      change bitsetGet (bitsetSet s₂.glbFrames idx true) j = _
      rw [bitsetGet_set, hf.glbFrames, hid.bits j hj]
      simp only [← Bool.decide_or, decide_eq_decide]
      omega
    · change s₂.glbFrames.len = _
      rw [hf.glbFrames, hid.len]
    · change s₂.allDirectories = [s₂.kernelPageDirectory]
      rw [hf.allDirectories, hf.kernel, hid.only]
    · intro page hle
      change (pageOf _ s₂.kernelPageDirectory page).frame = 0
      rw [pageOf_setPage, hf.kernel, if_neg]
      · change (pageOf s₂ s₁.kernelPageDirectory page).frame = 0
        rw [hf.pageOf_eq hid.kernel hid.toLayout _ _ hid.kernel]
        exact hid.above page (by omega)
      · rintro ⟨htable, -, hentry⟩
        change (s₂.directories s₁.kernelPageDirectory).tables (page / 1024) = t at htable
        rw [← hf.kernel] at htable ht
        have hsame := hf.layout.own _ hcurrent _ hcurrent _ _ (htable.trans ht) (htable ▸ hf.nonzero)
        omega
    · exact hf.current.trans hid.unset
    · exact hf.kernel.trans hkernel

/-- `paging_init` leaves a clone of the kernel's directory in use. -/
theorem pagingInit_sound (hb : Booting s heapEnd) (h : pagingInit s heapEnd = some s') :
    Sound ((heapEnd + 0xfff) / 0x1000) s' ∧ s'.currentPageDirectory ∈ s'.allDirectories ∧
      s'.currentPageDirectory ≠ s'.kernelPageDirectory := by
  obtain ⟨⟨dir, s₁⟩, hnew, h⟩ := Option.bind_eq_some_iff.mp h
  obtain ⟨s₂, hmap, h⟩ := Option.bind_eq_some_iff.mp h
  obtain ⟨⟨new, s₃⟩, hclone, rfl⟩ := Option.map_eq_some_iff.mp h
  obtain ⟨hheap, hdirs, hrest⟩ := newDirectory_some hnew
  have hbound := hb.bound
  have hnodup := hb.nodup
  have hheap : s.heap = dir :: s₁.heap := hheap
  rw [hheap, List.nodup_cons] at hnodup
  have hdir := hb.heap dir (by rw [hheap]; exact List.mem_cons_self)
  have hempty : s₁.allDirectories = [] := hrest.allDirectories.trans hb.directories
  have hstart : Identity ((heapEnd + 0xfff) / 0x1000) 0
      { s₁ with kernelPageDirectory := dir, allDirectories := dir :: s₁.allDirectories } := by
    have hself : s₁.directories dir = zeroDirectory := by rw [hdirs, Function.update_self]
    have htables (i : ℕ) : (s₁.directories dir).tables i = 0 := by
      rw [hself]
      rfl
    have honly (d : ℕ) (hd : d ∈ dir :: s₁.allDirectories) : d = dir := by
      rw [hempty] at hd
      exact List.mem_singleton.mp hd
    have hnone : s₁.allTables = [] := hrest.allTables.trans hb.tables
    refine { toLayout := { toHeap := ⟨hnodup.2, ?_, ?_⟩, toDirectories := ?_, toFrames := ?_ },
             bits := ?_, len := ?_, only := by rw [hempty], above := ?_, unset := ?_ }
    · intro a ha
      change a ∉ s₁.allTables ∧ a ∉ dir :: s₁.allDirectories
      rw [hnone, hempty, List.mem_singleton]
      refine ⟨List.not_mem_nil, ?_⟩
      rintro rfl
      exact hnodup.1 ha
    · intro a ha
      change a ∈ s₁.heap ∨ a ∈ s₁.allTables at ha
      rw [hnone] at ha
      obtain ⟨h0, hmod, hlt⟩ := hb.heap a (by
        rw [hheap]
        exact List.mem_cons_of_mem _ (ha.resolve_right List.not_mem_nil))
      exact ⟨h0, hmod, by omega⟩
    · refine ⟨Nat.zero_le _, List.mem_cons_self, Or.inl ?_, ?_, ?_, ?_, ?_,
        fun j _ hj => absurd hj (by omega)⟩
      · exact hrest.current.trans hb.current
      · intro d hd i hi
        obtain rfl := honly d hd
        exact absurd (htables i) hi
      · intro d hd d' hd' i i' heq hi
        obtain rfl := honly d hd
        exact absurd (htables i) hi
      · intro d hd i
        obtain rfl := honly d hd
        change (s₁.directories d).tablesPhysical i = hardwareEntry ((s₁.directories d).tables i)
        rw [hself]
        rfl
      · intro d hd i _ hne
        exact absurd (htables i) hne
    · refine ⟨fun t ht => ?_, fun t ht => ?_⟩
      all_goals
        change t ∈ s₁.allTables at ht
        rw [hnone] at ht
        exact absurd ht List.not_mem_nil
    · intro j hj
      change bitsetGet s₁.glbFrames j = _
      rw [hrest.glbFrames, bitsetGet_init _ (by omega)]
      simp
    · exact congrArg BitsetT.len hrest.glbFrames
    · intro page _
      exact congrArg PageT.frame (if_pos (htables (page / 1024)))
    · exact hrest.current.trans hb.current
  obtain ⟨hid, hkernel⟩ := identityMap_spec hstart (by omega) hmap
  change s₂.kernelPageDirectory = dir at hkernel
  have hs₂ : Sound ((heapEnd + 0xfff) / 0x1000) { s₂ with
      directories := Function.update s₂.directories dir { s₂.directories dir with
        physical := dir + 0x1000 } } := by
    have hsound : Sound ((heapEnd + 0xfff) / 0x1000) s₂ := by
      refine ⟨hid.toLayout, ?_⟩
      rw [hid.bits 0 (by omega)]
      simp only [decide_eq_true_eq]
      omega
    refine hsound.congr rfl rfl (fun d _ => ?_) rfl rfl rfl hsound.current hsound.nodup fun _ h => h
    by_cases hd : d = dir
    · subst hd
      simp only [Function.update_self, and_self]
    · simp only [Function.update_of_ne hd, and_self]
  have hmem : dir ∈ s₂.allDirectories := hkernel ▸ hid.kernel
  obtain ⟨s₄, rfl, hcloned, hsound, hfresh, -⟩ := pageDirectoryClone_spec hs₂ hmem hclone
  refine ⟨?_, List.mem_cons_self, ?_⟩
  · exact hsound.congr rfl rfl (fun _ _ => ⟨rfl, rfl⟩) rfl rfl rfl (Or.inr List.mem_cons_self)
      hsound.nodup fun _ h => h
  · intro hnew
    change new = s₄.kernelPageDirectory at hnew
    rw [hnew, hcloned.kernel] at hfresh
    exact hfresh hid.kernel

end Boot

inductive Action where
  | map (address : UInt32) (isWritable isKernel : Bool)
  | clone (dir : ℕ)
  | switch (dir : ℕ)
  | store (address : UInt32) (value : UInt8)

def storeByte (s : Machine) (frame offset : ℕ) (value : UInt8) : Machine :=
  { s with frames := Function.update s.frames frame (Function.update (s.frames frame) offset value) }

/-- No directory is freed. A store to a page that is not mapped, read-only or of the kernel faults. -/
def step (s : Machine) : Action → Option Machine
  | .map address isWritable isKernel => mapPage s address.toNat isWritable isKernel
  | .clone dir => if dir ∈ s.allDirectories then (pageDirectoryClone s dir).map Prod.snd else none
  | .switch dir =>
    if dir ∈ s.allDirectories ∧ dir ≠ s.kernelPageDirectory then
      some { s with currentPageDirectory := dir }
    else none
  | .store address value =>
    let page := pageOf s s.currentPageDirectory (address.toNat / 0x1000)
    if page.present && page.rw && page.user then
      some (storeByte s page.frame (address.toNat % 0x1000) value)
    else none

/-- A page that two directories map is one they share with the kernel, at one address; and the hardware
finds the tables of every directory. -/
structure Isolated (s : Machine) : Prop where
  apart : ∀ d ∈ s.allDirectories, ∀ d' ∈ s.allDirectories, ∀ page page',
    (pageOf s d page).frame = (pageOf s d' page').frame → (pageOf s d page).frame ≠ 0 →
    page = page' ∧ (d = d' ∨
      ((s.directories d).tables (page / 1024) =
          (s.directories s.kernelPageDirectory).tables (page / 1024) ∧
        (s.directories d').tables (page / 1024) =
          (s.directories s.kernelPageDirectory).tables (page / 1024)))
  hardware : ∀ d ∈ s.allDirectories, ∀ i, (s.directories d).tables i ≠ 0 →
    ∃ p, getPhysicalAddress s ((s.directories d).tables i) = some p ∧
      (s.directories d).tablesPhysical i = p ||| 0x7
  absent : ∀ d ∈ s.allDirectories, ∀ i, (s.directories d).tables i = 0 →
    (s.directories d).tablesPhysical i = 0

/-- `new` maps the pages `dir` maps, in frames of its own where the kernel's tables do not map them. -/
structure CloneOf (s s' : Machine) (dir new : ℕ) : Prop where
  fresh : new ∉ s.allDirectories
  directories : s'.allDirectories = new :: s.allDirectories
  pages : ∀ page < 2 ^ 20, (pageOf s' new page).frame = 0 ↔ (pageOf s dir page).frame = 0
  copies : ∀ page < 2 ^ 20, (pageOf s dir page).frame ≠ 0 →
    pageOf s' new page = { pageOf s dir page with frame := (pageOf s' new page).frame } ∧
      s'.frames (pageOf s' new page).frame = s.frames (pageOf s dir page).frame
  shared : ∀ i < 1024,
    (s.directories dir).tables i = (s.directories s.kernelPageDirectory).tables i →
    (s'.directories new).tables i = (s.directories dir).tables i
  kept : ∀ d ∈ s.allDirectories, s'.directories d = s.directories d ∧ ∀ page,
    pageOf s' d page = pageOf s d page ∧ ((pageOf s d page).frame ≠ 0 →
      s'.frames (pageOf s d page).frame = s.frames (pageOf s d page).frame)

section Runs

variable {n : ℕ} {s s' : Machine} {dir new : ℕ}

theorem Sound.isolated (h : Sound n s) : Isolated s := by
  have hpage {d page : ℕ} (hne : (pageOf s d page).frame ≠ 0) :
      (s.directories d).tables (page / 1024) ≠ 0 := by
    intro hzero
    rw [pageOf, if_pos hzero] at hne
    exact hne rfl
  refine ⟨?_, ?_, ?_⟩
  · intro d hd d' hd' page page' heq hne
    have ht := hpage hne
    have ht' := hpage (heq ▸ hne)
    rw [pageOf_pos ht] at heq hne
    rw [pageOf_pos ht'] at heq
    obtain ⟨htable, hentry⟩ := h.apart _ (h.tables d hd _ ht) _ (h.tables d' hd' _ ht') _ _ heq hne
    obtain ⟨hindex, hor⟩ := h.own d hd d' hd' _ _ htable ht
    refine ⟨by omega, hor.imp_right fun hk => ⟨hk, ?_⟩⟩
    rw [← hk, htable, hindex]
  · intro d hd i hi
    obtain ⟨-, hmod, hlt⟩ := h.place _ (Or.inr (h.tables d hd i hi))
    refine ⟨_, physical_eq h.toDirectories (by omega) hlt, ?_⟩
    rw [h.physical d hd i, hardwareEntry, if_neg hi]
  · intro d hd i hi
    rw [h.physical d hd i, hi, hardwareEntry, if_pos rfl]

theorem pageDirectoryClone_cloneOf (h : Sound n s) (hdir : dir ∈ s.allDirectories)
    (hclone : pageDirectoryClone s dir = some (new, s')) : CloneOf s s' dir new := by
  obtain ⟨s₁, rfl, hc, hsound, hfresh, -⟩ := pageDirectoryClone_spec h hdir hclone
  have hold (d : ℕ) (hd : d ∈ s.allDirectories) : s₁.directories d = s.directories d := by
    apply hc.others
    rintro rfl
    exact hfresh hd
  have hkept (d : ℕ) (hd : d ∈ s.allDirectories) (page : ℕ) : pageOf s₁ d page = pageOf s d page := by
    rw [pageOf, pageOf, hold d hd]
    by_cases hzero : (s.directories d).tables (page / 1024) = 0
    · rw [if_pos hzero, if_pos hzero]
    · rw [if_neg hzero, if_neg hzero, hc.kept.tables _ (h.tables d hd _ hzero)]
  have hcontents (d : ℕ) (hd : d ∈ s.allDirectories) (page : ℕ) (hne : (pageOf s d page).frame ≠ 0) :
      s₁.frames (pageOf s d page).frame = s.frames (pageOf s d page).frame := by
    apply hc.kept.contents
    by_cases hzero : (s.directories d).tables (page / 1024) = 0
    · rw [pageOf, if_pos hzero] at hne
      exact absurd rfl hne
    · rw [pageOf_pos hzero] at hne ⊢
      exact h.held _ (h.tables d hd _ hzero) _ hne
  have hpage (page : ℕ) (hlt : page < 2 ^ 20) :
      pageOf s₁ new page = pageOf s dir page ∨
        ((pageOf s₁ new page).frame = 0 ↔ (pageOf s dir page).frame = 0) ∧
          ((pageOf s dir page).frame ≠ 0 →
            pageOf s₁ new page = { pageOf s dir page with frame := (pageOf s₁ new page).frame } ∧
              s₁.frames (pageOf s₁ new page).frame = s.frames (pageOf s dir page).frame) := by
    have hindex : page / 1024 < 1024 := by omega
    by_cases hzero : (s.directories dir).tables (page / 1024) = 0
    · left
      rw [pageOf, pageOf, if_pos hzero, if_pos (hc.absent _ hindex hzero)]
    · by_cases hk : (s.directories dir).tables (page / 1024) =
          (s.directories s.kernelPageDirectory).tables (page / 1024)
      · left
        rw [← hkept dir hdir page, pageOf, pageOf, hc.shared _ hindex hzero hk, hold dir hdir]
      · right
        obtain ⟨hne, -, -, hcopied⟩ := hc.own _ hindex hzero hk
        rw [pageOf_pos hzero, pageOf_pos hne]
        exact hcopied _ (by omega)
  refine ⟨hfresh, rfl, ?_, ?_, ?_, fun d hd => ⟨hold d hd, fun page =>
    ⟨hkept d hd page, hcontents d hd page⟩⟩⟩
  · intro page hlt
    change (pageOf s₁ new page).frame = 0 ↔ _
    rcases hpage page hlt with heq | ⟨hiff, -⟩
    · rw [heq]
    · exact hiff
  · intro page hlt hne
    rcases hpage page hlt with heq | ⟨-, hcopy⟩
    · change pageOf s₁ new page = { pageOf s dir page with frame := (pageOf s₁ new page).frame } ∧
        s₁.frames (pageOf s₁ new page).frame = _
      rw [heq]
      exact ⟨rfl, hcontents dir hdir page hne⟩
    · exact hcopy hne
  · intro i hi hk
    by_cases hzero : (s.directories dir).tables i = 0
    · rw [hzero]
      exact hc.absent i hi hzero
    · exact hc.shared i hi hzero hk

/-- The machine between actions. -/
structure Running (n : ℕ) (s : Machine) : Prop where
  sound : Sound n s
  mem : s.currentPageDirectory ∈ s.allDirectories
  ne : s.currentPageDirectory ≠ s.kernelPageDirectory

theorem step_running {a : Action} (h : Running n s) (hstep : step s a = some s') : Running n s' := by
  cases a with
  | map address w u =>
    have hm := mapPage_spec h.sound h.mem h.ne hstep
    refine ⟨hm.sound, ?_, ?_⟩
    · rw [hm.current, hm.allDirectories]
      exact h.mem
    · rw [hm.current, hm.kernel]
      exact h.ne
  | clone dir =>
    simp only [step] at hstep
    split_ifs at hstep with hdir
    obtain ⟨⟨new, s₁⟩, hclone, rfl⟩ := Option.map_eq_some_iff.mp hstep
    obtain ⟨s₂, rfl, hc, hsound, -⟩ := pageDirectoryClone_spec h.sound hdir hclone
    refine ⟨hsound, ?_, ?_⟩
    · change s₂.currentPageDirectory ∈ new :: s.allDirectories
      rw [hc.current]
      exact List.mem_cons_of_mem _ h.mem
    · change s₂.currentPageDirectory ≠ s₂.kernelPageDirectory
      rw [hc.current, hc.kernel]
      exact h.ne
  | switch dir =>
    simp only [step] at hstep
    split_ifs at hstep with hdir
    obtain rfl := Option.some.inj hstep
    refine ⟨?_, hdir.1, hdir.2⟩
    exact h.sound.congr rfl rfl (fun _ _ => ⟨rfl, rfl⟩) rfl rfl rfl (Or.inr hdir.1) h.sound.nodup
      fun _ h => h
  | store address value =>
    simp only [step] at hstep
    split_ifs at hstep
    obtain rfl := Option.some.inj hstep
    refine ⟨?_, h.mem, h.ne⟩
    exact h.sound.congr rfl rfl (fun _ _ => ⟨rfl, rfl⟩) rfl rfl rfl h.sound.current h.sound.nodup
      fun _ h => h

theorem reachable_running {boot : Machine} {heapEnd : ℕ} {as : List Action} (hb : Booting boot heapEnd)
    (hboot : pagingInit boot heapEnd = some s) (hrun : Library.Runs.exec step s as = some s') :
    Running ((heapEnd + 0xfff) / 0x1000) s' := by
  obtain ⟨hsound, hmem, hne⟩ := pagingInit_sound hb hboot
  exact Library.Runs.exec_invariant (fun _ _ _ h _ => step_running h) ⟨hsound, hmem, hne⟩
    (Library.Runs.meets_true s as) hrun

/-- However directories are cloned, switched, filled and written to, no frame is in two places. -/
theorem reachable_isolated {boot : Machine} {heapEnd : ℕ} {as : List Action}
    (hb : Booting boot heapEnd) (hboot : pagingInit boot heapEnd = some s)
    (hrun : Library.Runs.exec step s as = some s') :
    Isolated s' ∧ ∀ dir ∈ s'.allDirectories, ∀ new t,
      pageDirectoryClone s' dir = some (new, t) → CloneOf s' t dir new := by
  have hr := reachable_running hb hboot hrun
  exact ⟨hr.sound.isolated, fun dir hdir new t hclone => pageDirectoryClone_cloneOf hr.sound hdir hclone⟩

end Runs

def sampleBoot : Machine :=
  { glbFrames := ⟨fun _ => 0, 0⟩
    pageTables := fun _ _ => zeroPage
    directories := fun _ => zeroDirectory
    frames := fun _ _ => 0
    heap := [0x1000, 0x2000, 0x3000, 0x4000, 0x5000, 0x6000, 0x7000, 0x8000]
    kernelPageDirectory := 0
    currentPageDirectory := 0
    allTables := []
    allDirectories := [] }

def sampleActions : List Action :=
  [.map 0x400000 true false, .store 0x400010 7, .clone 0x3000, .switch 0x5000]

theorem reachable_isolated_sample : ∃ s s', pagingInit sampleBoot 0x9000 = some s ∧
    Library.Runs.exec step s sampleActions = some s' ∧ Isolated s' ∧
    ∃ new t, pageDirectoryClone s' 0x5000 = some (new, t) ∧ CloneOf s' t 0x5000 new := by
  have h : ((pagingInit sampleBoot 0x9000).bind fun s =>
      (Library.Runs.exec step s sampleActions).bind fun s' =>
        if 0x5000 ∈ s'.allDirectories then pageDirectoryClone s' 0x5000 else none).isSome = true := by
    decide +kernel
  obtain ⟨⟨new, t⟩, h⟩ := Option.isSome_iff_exists.mp h
  obtain ⟨s, hboot, h⟩ := Option.bind_eq_some_iff.mp h
  obtain ⟨s', hrun, h⟩ := Option.bind_eq_some_iff.mp h
  split_ifs at h with hdir
  have hbooting : Booting sampleBoot 0x9000 :=
    ⟨by decide, rfl, rfl, rfl, by decide, by decide⟩
  obtain ⟨hisolated, hclones⟩ := reachable_isolated hbooting hboot hrun
  exact ⟨s, s', hboot, hrun, hisolated, new, t, h, hclones 0x5000 hdir new t h⟩

end Eedox.AddressSpaces
