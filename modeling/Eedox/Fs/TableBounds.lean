import Eedox.Fs.TableBuffer
import Eedox.Library.Runs

namespace Eedox.Fs.TableBounds

open Util Library.Assoc Library.Runs TableBuffer
open Childtable (strlen_str encode_append encode_cons encode_nil length_record encode)

/-- An operation with what the block holds that it may get from `kmalloc`. -/
abbrev Call := (ℕ → UInt8) × Operation

def step (table : Table) (c : Call) : Option Table := c.2.run c.1 table

def NamedWell : Operation → Prop
  | .add name _ => Named name
  | .remove _ => True
  | .editIndex _ _ => True
  | .editName _ new => Named new

/-- A table that grows is given its new block. -/
def Supplied (table : Table) : Operation → Prop
  | .add name _ => Grows table name → BothBlocks table
  | .remove _ => True
  | .editIndex _ _ => True
  | .editName old new => ∀ t', childtableRemove table old = some t' → Grows t' new → BothBlocks t'

/-- As many sectors as the bytes take. -/
def Counted (table : Table) : Prop := table.sectors = (table.size + 511) / 512

/-- The operation stores in the table's block only, and counts the sectors right. -/
def Kept (table : Table) (c : Call) : Prop := ∃ t', step table c = some t' ∧ Counted t'

structure Bounded (table : Table) : Prop where
  counted : Counted table
  held : ∃ rs, Holds table rs ∧ ∀ r ∈ rs, Named r.1

variable {table t' : Table} {rs qs ts : List (Str × ℕ)} {name old new : Str} {index : ℕ} {junk : ℕ → UInt8}

theorem childtableAdd_sectors (h : childtableAdd junk table name index = some t') (hholds : Holds table rs)
    (hname : name.chars.length ≤ 256) (hblocks : Grows table name → BothBlocks table) :
    (Grows table name → t'.sectors = table.sectors + 1) ∧ (¬ Grows table name → t'.sectors = table.sectors) := by
  have hfits := hholds.fits
  have hroom := hholds.room
  have haddr := hholds.addressed
  unfold Grows BothBlocks at *
  unfold childtableAdd at h
  simp only [strlen_str] at h
  obtain ⟨⟨buffer, sectors⟩, hgrown, h⟩ := Option.bind_eq_some_iff.mp h
  obtain ⟨b1, -, h⟩ := Option.bind_eq_some_iff.mp h
  obtain ⟨b2, -, h⟩ := Option.bind_eq_some_iff.mp h
  obtain ⟨b3, -, rfl⟩ := Option.map_eq_some_iff.mp h
  constructor
  · intro hg
    have hb := hblocks hg
    rw [if_pos (by omega), if_pos (by omega)] at hgrown
    obtain ⟨b, -, hpair⟩ := Option.map_eq_some_iff.mp hgrown
    obtain ⟨rfl, rfl⟩ := Prod.mk.inj hpair
    exact Nat.mod_eq_of_lt (by omega)
  · intro hg
    rw [if_neg (by omega)] at hgrown
    obtain ⟨rfl, rfl⟩ := Prod.mk.inj (Option.some.inj hgrown)
    rfl

theorem childtableAdd_bounded (h : Bounded table) (hname : Named name) (hblocks : Grows table name → BothBlocks table)
    (junk : ℕ → UInt8) (index : ℕ) : ∃ t', childtableAdd junk table name index = some t' ∧ Bounded t' := by
  obtain ⟨rs, hholds, hnamed⟩ := h.held
  obtain ⟨t', ht, hholds'⟩ := childtableAdd_record junk index hholds hname.2 hblocks
  obtain ⟨hgrown, hkept⟩ := childtableAdd_sectors ht hholds hname.2 hblocks
  have hcounted := h.counted
  have hle := hname.2
  have hsize := hholds.size
  have hsize' : t'.size = table.size + (name.chars.length + 5) := by
    rw [hholds'.size, hsize, encode_append, encode_cons, encode_nil, List.append_nil, List.length_append, length_record]
  refine ⟨t', ht, ?_, rs ++ [(name, index)], hholds', ?_⟩
  · unfold Counted Grows at *
    by_cases hg : 512 * table.sectors < table.size + name.chars.length + 5
    · have := hgrown hg
      omega
    · have := hkept hg
      omega
  · intro r hr
    rcases List.mem_append.mp hr with hr | hr
    · exact hnamed r hr
    · rw [List.mem_singleton.mp hr]
      exact hname

theorem childtableRemove_sectors {rec : ℕ} (hfind : childtableFind table.buffer table.size name 0 = some (some rec))
    (h : childtableRemove table name = some t') : t'.size = (table.size + 2 ^ 32 - name.chars.length - 1 - 4) % 2 ^ 32 ∧
      t'.sectors = if t'.size ≤ (table.sectors + 2 ^ 32 - 1) % 2 ^ 32 * 512 % 2 ^ 32
        then (table.sectors + 2 ^ 32 - 1) % 2 ^ 32 else table.sectors := by
  rw [childtableRemove, hfind, Option.bind_some, strlen_str] at h
  obtain ⟨buffer, -, rfl⟩ := Option.map_eq_some_iff.mp h
  exact ⟨rfl, rfl⟩

theorem childtableRemove_bounded (h : Bounded table) (name : Str) :
    ∃ t', childtableRemove table name = some t' ∧ Bounded t' := by
  obtain ⟨rs, hholds, hnamed⟩ := h.held
  by_cases hk : name ∈ keys rs
  · obtain ⟨qs, index, ts, rfl, hq⟩ := split_key hk
    obtain ⟨t', ht, hholds', -, -⟩ := childtableRemove_record hholds hq
    obtain ⟨hsize', hsectors⟩ := childtableRemove_sectors (hholds.find_record hq) ht
    have hle : name.chars.length ≤ 256 := (hnamed (name, index) (by simp)).2
    have hcounted := h.counted
    have hsize := hholds.size
    have hroom := hholds.room
    have haddr := hholds.addressed
    have hlen : (encode (qs ++ (name, index) :: ts)).length =
        (encode qs).length + (name.chars.length + 5) + (encode ts).length := by
      simp only [encode_append, encode_cons, List.length_append, length_record]
      omega
    refine ⟨t', ht, ?_, qs ++ ts, hholds', fun r hr => hnamed r ?_⟩
    · unfold Counted at *
      split_ifs at hsectors with hfewer
      · omega
      · omega
    · rcases List.mem_append.mp hr with hr | hr
      · exact List.mem_append_left _ hr
      · exact List.mem_append_right _ (List.mem_cons_of_mem _ hr)
  · refine ⟨table, ?_, h⟩
    rw [childtableRemove, hholds.find_absent hk]
    rfl

theorem childtableEditIndex_bounded (h : Bounded table) (name : Str) (new : ℕ) :
    ∃ t', childtableEditIndex table name new = some t' ∧ Bounded t' := by
  obtain ⟨rs, hholds, hnamed⟩ := h.held
  by_cases hk : name ∈ keys rs
  · obtain ⟨qs, index, ts, rfl, hq⟩ := split_key hk
    obtain ⟨t', ht, hholds'⟩ := @childtableEditIndex_record _ _ _ _ _ new hholds hq
    have hfind := ht
    rw [childtableEditIndex, hholds.find_record hq, Option.bind_some] at hfind
    obtain ⟨buffer, -, rfl⟩ := Option.map_eq_some_iff.mp hfind
    refine ⟨_, ht, h.counted, _, hholds', fun r hr => ?_⟩
    rcases List.mem_append.mp hr with hr | hr
    · exact hnamed r (List.mem_append_left _ hr)
    · rcases List.mem_cons.mp hr with rfl | hr
      · exact hnamed (name, index) (by simp)
      · exact hnamed r (List.mem_append_right _ (List.mem_cons_of_mem _ hr))
  · refine ⟨table, ?_, h⟩
    rw [childtableEditIndex, hholds.find_absent hk]
    rfl

/-- A record with the index 0 counts as none. -/
theorem childtableGet_some (h : Bounded table) (name : Str) : ∃ index, childtableGet table name = some index := by
  obtain ⟨rs, hholds, -⟩ := h.held
  by_cases hk : name ∈ keys rs
  · obtain ⟨qs, index, ts, rfl, hq⟩ := split_key hk
    exact ⟨_, childtableGet_record hholds hq⟩
  · exact ⟨0, childtableGet_absent hholds hk⟩

theorem step_bounded (h : Bounded table) {c : Call} (hnamed : NamedWell c.2) (hsupplied : Supplied table c.2) :
    ∃ t', step table c = some t' ∧ Bounded t' := by
  obtain ⟨junk, op⟩ := c
  cases op with
  | add name index => exact childtableAdd_bounded h hnamed hsupplied junk index
  | remove name => exact childtableRemove_bounded h name
  | editIndex name new => exact childtableEditIndex_bounded h name new
  | editName old new =>
    obtain ⟨index, hget⟩ := childtableGet_some h old
    simp only [step, Operation.run, childtableEditName, hget, Option.bind_some]
    split_ifs with hzero
    · exact ⟨table, rfl, h⟩
    · obtain ⟨t1, ht1, hbounded⟩ := childtableRemove_bounded h old
      obtain ⟨t2, ht2, hbounded2⟩ := childtableAdd_bounded hbounded hnamed (hsupplied t1 ht1) junk index
      exact ⟨t2, by rw [ht1, Option.bind_some, ht2], hbounded2⟩

/-- Over a whole run every store lies in the table's block, and the sectors stay those that its bytes take. -/
theorem run_kept {calls : List Call} (hholds : Holds table rs) (hcounted : Counted table)
    (hnamed : ∀ r ∈ rs, Named r.1)
    (hcalls : Meets step (fun table c => NamedWell c.2 ∧ Supplied table c.2) table calls) :
    Meets step Kept table calls := by
  have hpreserve : ∀ (table : Table) (c : Call) (t' : Table), Bounded table →
      NamedWell c.2 ∧ Supplied table c.2 → step table c = some t' → Bounded t' := by
    intro table c t' h hc ht
    obtain ⟨u, hu, hbounded⟩ := step_bounded h hc.1 hc.2
    obtain rfl : u = t' := Option.some.inj (hu.symm.trans ht)
    exact hbounded
  refine meets_imp hpreserve (fun table c h hc => ?_) ⟨hcounted, rs, hholds, hnamed⟩ hcalls
  obtain ⟨u, hu, hbounded⟩ := step_bounded h hc.1 hc.2
  exact ⟨u, hu, hbounded.counted⟩

/-- A second record, then the first one goes. -/
theorem run_kept_sample : Meets step Kept sampleTable
    [(fun _ => 0, .add otherName 7), (fun _ => 0, .remove sampleName)] := by
  have hb : BothBlocks sampleTable := by
    rw [BothBlocks, length_sampleTable]
    decide
  refine run_kept sampleTable_holds rfl ?_ ⟨⟨⟨by decide, by decide⟩, fun _ => hb⟩, fun t _ => ?_⟩
  · rw [List.forall_mem_singleton]
    exact ⟨by decide, by decide⟩
  · exact ⟨⟨trivial, trivial⟩, fun _ _ => trivial⟩

end Eedox.Fs.TableBounds
