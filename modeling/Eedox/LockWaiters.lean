import Eedox.ReaderWriterLock

namespace Eedox.LockWaiters

open Library.Runs ReaderWriterLock

variable {T : Type}

def Unheld (s : State T) : Prop := ∀ t op, s.phase t ≠ .holds op

structure Inv (s : State T) (q : List (T × Operation)) (rs : List T) : Prop where
  queued : Queued s q
  nodup : rs.Nodup
  inside : ∀ t ∈ rs, s.phase t = .holds .read
  readers : s.lock.readers ≤ rs.length
  unheld : Unheld s → s.lock.operation = .none ∧ (q ≠ [] → ∃ t op, s.phase t = .woken op)

variable {s : State T} {q : List (T × Operation)} {rs : List T} {t : T}

theorem inv_init : Inv (init : State T) [] [] where
  queued := ⟨rfl, rfl, List.nodup_nil, by simp [init]⟩
  nodup := List.nodup_nil
  inside := by simp
  readers := le_rfl
  unheld := fun _ => ⟨rfl, by simp⟩

variable [DecidableEq T]

theorem inv_block (h : Inv s q rs) (ht : s.phase t = .out) (hop : s.lock.operation ≠ .none)
    (op : Operation) : Inv (block s t op) (q ++ [(t, op)]) rs := by
  have hq := h.queued
  have hne : ∀ o, s.phase t ≠ .asleep o := by simp [ht]
  have hother : ∀ u, u ≠ t → (block s t op).phase u = s.phase u := by
    intro u hu
    simp [block, hu]
  have hself : (block s t op).phase t = .asleep op := by simp [block]
  refine ⟨⟨?_, ?_, ?_, ?_⟩, h.nodup, ?_, h.readers, ?_⟩
  · simp [block, enqueue, hq.procq]
  · simp [block, enqueue, hq.opq]
  · rw [List.map_append, List.nodup_append]
    refine ⟨hq.nodup, by simp, ?_⟩
    rintro a ha b hb rfl
    obtain rfl : a = t := by simpa using hb
    exact hq.not_mem hne ha
  · intro u o
    rw [List.mem_append, hq.asleep]
    by_cases hu : u = t
    · subst hu
      simp [hself, hne, eq_comm]
    · simp [hother u hu, hu]
  · intro u hu
    have hin := h.inside u hu
    rw [hother u (by rintro rfl; simp [ht] at hin)]
    exact hin
  · intro hun
    refine absurd (h.unheld fun u o hu => hun u o ?_).1 hop
    rw [hother u (by rintro rfl; simp [ht] at hu)]
    exact hu

theorem woken_front (hq : Queued s q) {ph : Phase} (ht : ∀ o, s.phase t ≠ .asleep o)
    (hph : ∀ o, ph ≠ .asleep o) {w r : List (T × Operation)} (hwr : w ++ r = q) :
    Woken (Function.update s.phase t ph) (awake (Function.update s.phase t ph) (w.map Prod.fst)) w r := by
  refine awake_woken (hwr.symm ▸ hq.nodup) ?_
  rw [hwr]
  intro u o
  rw [hq.asleep]
  by_cases hu : u = t
  · subst hu
    simp [ht, hph]
  · simp [hu]

theorem inv_acquire_read (h : Inv s q rs) (ht : s.phase t = .out ∨ s.phase t = .woken .read) :
    Inv (acquire s t .read) (q.dropWhile fun e => e.2 = .read) (t :: rs) := by
  have hq := h.queued
  have hna : ∀ o, s.phase t ≠ .asleep o := by rcases ht with ht | ht <;> simp [ht]
  have hnh : ∀ o, s.phase t ≠ .holds o := by rcases ht with ht | ht <;> simp [ht]
  have hk := @woken_front _ _ _ _ _ hq (.holds .read) hna (by simp) _ _
    (List.takeWhile_append_dropWhile (p := fun e => decide (e.2 = .read)) (l := q))
  have hacq : acquire s t .read =
      ⟨⟨(q.dropWhile fun e => e.2 = .read).map Prod.fst, (q.dropWhile fun e => e.2 = .read).map Prod.snd,
        s.lock.readers + 1, .read⟩, awake (Function.update s.phase t (.holds .read))
          ((q.takeWhile fun e => e.2 = .read).map Prod.fst)⟩ := by
    simp only [acquire, krwlockReadEnd, hq.procq, hq.opq, wakeReaders_zip]
  rw [hacq]
  have hself := (hk.holds t .read).mpr (Function.update_self t _ _)
  refine ⟨⟨rfl, rfl, ((List.dropWhile_sublist _).map Prod.fst).nodup hq.nodup, hk.asleep⟩, ?_, ?_, ?_, ?_⟩
  · exact List.nodup_cons.mpr ⟨fun hm => hnh _ (h.inside t hm), h.nodup⟩
  · intro u hu
    rcases List.mem_cons.mp hu with rfl | hu
    · exact hself
    · refine (hk.holds u .read).mpr ?_
      have hin := h.inside u hu
      rw [Function.update_of_ne (by rintro rfl; exact hnh _ hin), hin]
  · simpa using h.readers
  · intro hun
    exact absurd hself (hun t .read)

theorem inv_acquire_write (h : Inv s q rs) {op : Operation} (hop : op ≠ .read)
    (ht : s.phase t = .out ∨ s.phase t = .woken op) : Inv (acquire s t op) q rs := by
  have hq := h.queued
  have hacq : acquire s t op = ⟨krwlockWriteEnd s.lock, Function.update s.phase t (.holds op)⟩ := by
    cases op with
    | read => exact absurd rfl hop
    | none => rfl
    | write => rfl
  have hnh : ∀ o, s.phase t ≠ .holds o := by rcases ht with ht | ht <;> simp [ht]
  have hna : ∀ o, s.phase t ≠ .asleep o := by rcases ht with ht | ht <;> simp [ht]
  rw [hacq]
  refine ⟨⟨hq.procq, hq.opq, hq.nodup, ?_⟩, h.nodup, ?_, h.readers, ?_⟩
  · intro u o
    rw [hq.asleep]
    by_cases hu : u = t
    · subst hu
      simp [hna]
    · simp [hu]
  · intro u hu
    have hin := h.inside u hu
    have hut : u ≠ t := by
      rintro rfl
      exact hnh _ hin
    exact (Function.update_of_ne hut _ _).trans hin
  · intro hun
    exact absurd (Function.update_self t _ _) (hun t op)

omit [DecidableEq T] in
theorem krwlockRelease_cases (l : Krwlock T) : krwlockRelease l = free { l with readers := 0 } ∧ l.readers ≤ 1 ∨
    krwlockRelease l = ({ l with readers := l.readers - 1 }, []) ∧ 1 < l.readers := by
  unfold krwlockRelease
  by_cases h0 : l.readers = 0
  · rw [if_pos h0]
    exact Or.inl ⟨by rw [← h0], by omega⟩
  · rw [if_neg h0]
    by_cases h1 : l.readers - 1 = 0
    · rw [if_pos h1]
      exact Or.inl ⟨rfl, by omega⟩
    · rw [if_neg h1]
      exact Or.inr ⟨rfl, by omega⟩

theorem inv_release (h : Inv s q rs) {op : Operation} (ht : s.phase t = .holds op) :
    ∃ q' rs', Inv ⟨(krwlockRelease s.lock).1,
      awake (Function.update s.phase t .out) (krwlockRelease s.lock).2⟩ q' rs' := by
  have hq := h.queued
  have hna : ∀ o, s.phase t ≠ .asleep o := by simp [ht]
  rcases krwlockRelease_cases s.lock with ⟨he, _⟩ | ⟨he, hr⟩
  · have hwr : q.take 1 ++ q.tail = q := by cases q <;> simp
    have hk := @woken_front _ _ _ _ _ hq .out hna (by simp) _ _ hwr
    have hfree : free { s.lock with readers := 0 } =
        (⟨q.tail.map Prod.fst, q.tail.map Prod.snd, 0, .none⟩, (q.take 1).map Prod.fst) := by
      cases q <;> simp [free, hq.procq, hq.opq]
    rw [he, hfree]
    refine ⟨q.tail, [], ⟨rfl, rfl, ((List.tail_sublist q).map Prod.fst).nodup hq.nodup, hk.asleep⟩,
      List.nodup_nil, by simp, le_rfl, fun _ => ⟨rfl, fun hne => ?_⟩⟩
    cases q with
    | nil => exact absurd rfl hne
    | cons e q => exact ⟨e.1, e.2, (hk.woken e.1 e.2).mpr (Or.inr (by simp))⟩
  · have hother : ∀ u, u ≠ t → awake (Function.update s.phase t .out) [] u = s.phase u := by
      intro u hu
      simp [awake, hu]
    have hself : awake (Function.update s.phase t .out) [] t = .out := by simp [awake]
    rw [he]
    simp only
    generalize awake (Function.update s.phase t .out) [] = phase' at hother hself ⊢
    refine ⟨q, rs.erase t, ⟨hq.procq, hq.opq, hq.nodup, ?_⟩, h.nodup.erase t, ?_, ?_, ?_⟩
    · intro u o
      rw [hq.asleep]
      by_cases hu : u = t
      · subst hu
        simp [hself, hna]
      · simp [hother u hu]
    · intro u hu
      obtain ⟨hut, hm⟩ := h.nodup.mem_erase_iff.mp hu
      exact (hother u hut).trans (h.inside u hm)
    · have hlen := List.le_length_erase (a := t) (l := rs)
      have := h.readers
      simp only
      omega
    · -- the counter says that another reader is inside
      intro hun
      have hpos : 0 < (rs.erase t).length := by
        have := h.readers
        have := List.le_length_erase (a := t) (l := rs)
        omega
      obtain ⟨u, hu⟩ := List.exists_mem_of_length_pos hpos
      obtain ⟨hut, hm⟩ := h.nodup.mem_erase_iff.mp hu
      exact absurd ((hother u hut).trans (h.inside u hm)) (hun u .read)

/-- The queues of a lock that is idle, with nobody inside or on the way in, are empty. -/
def NoneStranded (s : State T) : Prop :=
  s.lock.procq.length = s.lock.opq.length ∧
    (Unheld s → (∀ t op, s.phase t ≠ .woken op) →
      s.lock.procq = [] ∧ s.lock.opq = [] ∧ s.lock.readers = 0 ∧ s.lock.operation = .none)

omit [DecidableEq T] in
theorem Inv.noneStranded (h : Inv s q rs) : NoneStranded s := by
  refine ⟨by rw [h.queued.procq, h.queued.opq, List.length_map, List.length_map], fun hun hw => ?_⟩
  obtain ⟨hop, hq⟩ := h.unheld hun
  have hq0 : q = [] := by
    by_contra hne
    obtain ⟨t, op, ht⟩ := hq hne
    exact hw t op ht
  have hrs : rs = [] := List.eq_nil_iff_forall_not_mem.mpr fun t ht => hun t .read (h.inside t ht)
  have hr := h.readers
  rw [hrs] at hr
  refine ⟨?_, ?_, Nat.le_zero.mp hr, hop⟩
  · rw [h.queued.procq, hq0, List.map_nil]
  · rw [h.queued.opq, hq0, List.map_nil]

theorem inv_step {s' : State T} {a : Action T} (h : ∃ q rs, Inv s q rs) (hs : step s a = some s') :
    ∃ q rs, Inv s' q rs := by
  obtain ⟨q, rs, h⟩ := h
  cases a with
  | read t =>
    simp only [step, Option.ite_none_right_eq_some, Option.some.injEq] at hs
    obtain ⟨ht, rfl⟩ := hs
    by_cases hb : readBlocked s.lock = true
    · rw [if_pos hb]
      refine ⟨_, _, inv_block h ht (fun hn => ?_) .read⟩
      simp [readBlocked, hn] at hb
    · rw [if_neg hb]
      exact ⟨_, _, inv_acquire_read h (Or.inl ht)⟩
  | write t =>
    simp only [step, Option.ite_none_right_eq_some, Option.some.injEq] at hs
    obtain ⟨ht, rfl⟩ := hs
    by_cases hb : writeBlocked s.lock = true
    · rw [if_pos hb]
      refine ⟨_, _, inv_block h ht (fun hn => ?_) .write⟩
      simp [writeBlocked, hn] at hb
    · rw [if_neg hb]
      exact ⟨_, _, inv_acquire_write h (by simp) (Or.inl ht)⟩
  | resume t =>
    simp only [step] at hs
    split at hs
    · rename_i op ht
      obtain rfl := Option.some.inj hs
      by_cases hop : op = .read
      · subst hop
        exact ⟨_, _, inv_acquire_read h (Or.inr ht)⟩
      · exact ⟨_, _, inv_acquire_write h hop (Or.inr ht)⟩
    · cases hs
  | release t =>
    simp only [step] at hs
    split at hs
    · rename_i op ht
      obtain rfl := Option.some.inj hs
      exact inv_release h ht
    · cases hs

/-- However wake-ups are delayed and overtaken, nobody is left behind in the queues. -/
theorem noneStranded_exec (as : List (Action T)) (s : State T) (h : exec step init as = some s) :
    NoneStranded s := by
  have hi : ∃ q rs, Inv s q rs := exec_invariant
    (fun _ _ _ hi _ hs => inv_step hi hs) ⟨[], [], inv_init⟩ (meets_true _ _) h
  obtain ⟨q, rs, hi⟩ := hi
  exact hi.noneStranded

theorem noneStranded_overtaken : ∃ s : State ℕ, exec step init
    [.write 0, .read 1, .release 0, .write 2, .resume 1, .release 2, .release 1] = some s ∧
      NoneStranded s :=
  ⟨_, rfl, noneStranded_exec
    [.write 0, .read 1, .release 0, .write 2, .resume 1, .release 2, .release 1] _ rfl⟩

end Eedox.LockWaiters
