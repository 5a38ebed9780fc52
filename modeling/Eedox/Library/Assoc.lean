import Mathlib.Logic.Function.Basic
import Mathlib.Data.List.Nodup

namespace Eedox.Library.Assoc

variable {κ ν : Type*}

def keys (rs : List (κ × ν)) : List κ := rs.map Prod.fst

@[simp] theorem keys_cons (r : κ × ν) (rs : List (κ × ν)) : keys (r :: rs) = r.1 :: keys rs := rfl

@[simp] theorem keys_append (rs qs : List (κ × ν)) : keys (rs ++ qs) = keys rs ++ keys qs :=
  List.map_append

variable {rs qs ts : List (κ × ν)} {key k : κ} {v : ν}

theorem absent_of_split (hn : (keys (qs ++ (key, v) :: ts)).Nodup) : key ∉ keys qs ∧ key ∉ keys ts := by
  rw [keys_append, keys_cons] at hn
  obtain ⟨-, hts, hdisjoint⟩ := List.nodup_append.mp hn
  exact ⟨fun h => hdisjoint _ h _ List.mem_cons_self rfl, (List.nodup_cons.mp hts).1⟩

theorem nodup_add (hn : (keys rs).Nodup) (hk : key ∉ keys rs) : (keys (rs ++ [(key, v)])).Nodup := by
  rw [keys_append]
  exact hn.append (List.nodup_singleton key) (by simpa [keys] using hk)

variable [DecidableEq κ]

/-- The finite map that an association list stands for; the first entry of a key counts. -/
def entries (rs : List (κ × ν)) (key : κ) : Option ν := rs.lookup key

def without (rs : List (κ × ν)) (key : κ) : List (κ × ν) := rs.filter fun r => r.1 ≠ key

def assign (rs : List (κ × ν)) (key : κ) (v : ν) : List (κ × ν) :=
  rs.map fun r => if r.1 = key then (r.1, v) else r

theorem entries_cons (r : κ × ν) (rs : List (κ × ν)) (key : κ) :
    entries (r :: rs) key = if r.1 = key then some r.2 else entries rs key := by
  unfold entries
  rw [List.lookup_cons]
  by_cases h : r.1 = key
  · simp [h]
  · have hne : (key == r.1) = false := by simpa using Ne.symm h
    simp [h, hne]

theorem entries_eq_none : entries rs key = none ↔ key ∉ keys rs := by
  induction rs with
  | nil => simp [entries, keys]
  | cons r rs ih =>
    rw [entries_cons, keys_cons, List.mem_cons, not_or, ← ih]
    by_cases h : r.1 = key
    · simp [h]
    · simp [h, Ne.symm h]

theorem entries_append_left (hk : key ∉ keys qs) :
    entries (qs ++ ts) key = entries ts key := by
  induction qs with
  | nil => rfl
  | cons q qs ih =>
    rw [keys_cons, List.mem_cons, not_or] at hk
    rw [List.cons_append, entries_cons, if_neg (Ne.symm hk.1), ih hk.2]

theorem entries_append_right (hk : key ∈ keys qs) :
    entries (qs ++ ts) key = entries qs key := by
  induction qs with
  | nil => simp [keys] at hk
  | cons q qs ih =>
    rw [List.cons_append, entries_cons, entries_cons]
    by_cases h : q.1 = key
    · simp [h]
    · rw [keys_cons, List.mem_cons] at hk
      rw [if_neg h, if_neg h, ih (hk.resolve_left (Ne.symm h))]

/-- A key of the list is met after a part without it. -/
theorem split_key (hk : key ∈ keys rs) : ∃ qs v ts, rs = qs ++ (key, v) :: ts ∧ key ∉ keys qs := by
  induction rs with
  | nil => simp [keys] at hk
  | cons r rs ih =>
    by_cases h : r.1 = key
    · exact ⟨[], r.2, rs, by rw [← h]; rfl, by simp [keys]⟩
    · rw [keys_cons, List.mem_cons] at hk
      obtain ⟨qs, v, ts, rfl, hq⟩ := ih (hk.resolve_left (Ne.symm h))
      exact ⟨r :: qs, v, ts, rfl, by simpa using ⟨Ne.symm h, hq⟩⟩

theorem without_absent (hk : key ∉ keys rs) : without rs key = rs := by
  apply List.filter_eq_self.mpr
  intro r hr
  rw [decide_eq_true_eq]
  rintro rfl
  exact hk (List.mem_map_of_mem hr)

theorem assign_absent (hk : key ∉ keys rs) : assign rs key v = rs := by
  unfold assign
  conv_rhs => rw [← List.map_id rs]
  apply List.map_congr_left
  intro r hr
  rw [if_neg, id_eq]
  rintro rfl
  exact hk (List.mem_map_of_mem hr)

theorem without_split (hn : (keys (qs ++ (key, v) :: ts)).Nodup) :
    without (qs ++ (key, v) :: ts) key = qs ++ ts := by
  obtain ⟨hq, ht⟩ := absent_of_split hn
  have h1 := without_absent hq
  have h2 := without_absent ht
  unfold without at *
  rw [List.filter_append, List.filter_cons, h1, h2]
  simp

theorem assign_split {w : ν} (hn : (keys (qs ++ (key, v) :: ts)).Nodup) :
    assign (qs ++ (key, v) :: ts) key w = qs ++ (key, w) :: ts := by
  obtain ⟨hq, ht⟩ := absent_of_split hn
  have h1 := assign_absent (v := w) hq
  have h2 := assign_absent (v := w) ht
  unfold assign at *
  rw [List.map_append, List.map_cons, h1, h2, if_pos rfl]

theorem keys_assign (rs : List (κ × ν)) (key : κ) (v : ν) : keys (assign rs key v) = keys rs := by
  unfold keys assign
  rw [List.map_map]
  apply List.map_congr_left
  intro r _
  rw [Function.comp_apply]
  split_ifs <;> rfl

theorem mem_keys_without : k ∈ keys (without rs key) ↔ k ∈ keys rs ∧ k ≠ key := by
  simp only [keys, without, List.mem_map, List.mem_filter, decide_eq_true_eq]
  constructor
  · rintro ⟨r, ⟨hr, hne⟩, rfl⟩
    exact ⟨⟨r, hr, rfl⟩, hne⟩
  · rintro ⟨⟨r, hr, rfl⟩, hne⟩
    exact ⟨r, ⟨hr, hne⟩, rfl⟩

theorem nodup_without (hn : (keys rs).Nodup) (key : κ) : (keys (without rs key)).Nodup :=
  hn.sublist (List.filter_sublist.map _)

theorem entries_add (hk : key ∉ keys rs) :
    entries (rs ++ [(key, v)]) = Function.update (entries rs) key (some v) := by
  funext k
  by_cases h : k = key
  · subst h
    rw [Function.update_self, entries_append_left hk, entries_cons, if_pos rfl]
  · rw [Function.update_of_ne h]
    by_cases hmem : k ∈ keys rs
    · rw [entries_append_right hmem]
    · rw [entries_append_left hmem, entries_cons, if_neg (Ne.symm h), entries_eq_none.mpr hmem]
      rfl

theorem entries_without (rs : List (κ × ν)) (key : κ) :
    entries (without rs key) = Function.update (entries rs) key none := by
  funext k
  by_cases h : k = key
  · subst h
    rw [Function.update_self, entries_eq_none, mem_keys_without]
    exact fun hc => hc.2 rfl
  · rw [Function.update_of_ne h]
    induction rs with
    | nil => rfl
    | cons r rs ih =>
      unfold without at ih ⊢
      rw [List.filter_cons]
      by_cases hr : r.1 = key
      · rw [if_neg (by simpa using hr), ih, entries_cons, if_neg (fun he => h (he.symm.trans hr))]
      · rw [if_pos (by simpa using hr), entries_cons, entries_cons, ih]

theorem entries_assign (rs : List (κ × ν)) (key : κ) (v : ν) (k : κ) :
    entries (assign rs key v) k =
      if k = key then (entries rs k).map fun _ => v else entries rs k := by
  induction rs with
  | nil => simp [assign, entries]
  | cons r rs ih =>
    unfold assign at ih ⊢
    rw [List.map_cons, entries_cons, entries_cons, ih]
    by_cases hr : r.1 = k
    · subst hr
      by_cases hk : r.1 = key
      · simp [hk]
      · simp [hk]
    · have hr' : (if r.1 = key then (r.1, v) else r).1 ≠ k := by split_ifs <;> exact hr
      rw [if_neg hr', if_neg hr]

end Eedox.Library.Assoc
