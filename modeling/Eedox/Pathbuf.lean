import Eedox.Util
import Mathlib.Algebra.Group.Int.Defs
import Mathlib.Algebra.Group.Nat.Defs
import Mathlib.Logic.Function.Iterate

namespace Eedox.Pathbuf

open Util

structure PathbufT where
  fields : List Str
  isAbsolute : Bool
  back : ℕ

def pathbufRoot : PathbufT := ⟨[], true, 0⟩

def kstringStr (buffer : List UInt8) : Str := ⟨text buffer, zero_notMem_text buffer⟩

def component (path : PathbufT) (buffer : List UInt8) : PathbufT :=
  if buffer = [46, 46] then
    if path.fields ≠ [] then { path with fields := path.fields.dropLast }
    else if !path.isAbsolute then { path with back := path.back + 1 }
    else path
  else if buffer = [46] then path
  else if buffer ≠ [] then { path with fields := path.fields ++ [kstringStr buffer] }
  else path

def parseFrom : List UInt8 → List UInt8 → PathbufT → PathbufT
  | [], buffer, path => component path buffer
  | c :: cs, buffer, path =>
    if c ≠ 47 then parseFrom cs (buffer ++ [c]) path
    else parseFrom cs [] (component path buffer)

def pathbufParse (address : Str) : PathbufT :=
  parseFrom address.chars [] ⟨[], address.chars.head? = some 47, 0⟩

def stepBack (res : PathbufT) : PathbufT :=
  if res.fields ≠ [] then { res with fields := res.fields.dropLast }
  else if !res.isAbsolute then { res with back := res.back + 1 }
  else res

def pathbufJoin (buf1 buf2 : PathbufT) : PathbufT :=
  if buf2.isAbsolute then pathbufRoot
  else
    let res := stepBack^[buf2.back] buf1
    { res with fields := res.fields ++ buf2.fields }

def pathbufLen (buf : PathbufT) : ℕ := buf.fields.length

def pathbufCmp (buf1 buf2 : PathbufT) : Bool :=
  if pathbufLen buf1 ≠ pathbufLen buf2 ∨ buf1.isAbsolute ≠ buf2.isAbsolute ∨ buf1.back ≠ buf2.back then
    false
  else (buf1.fields.zip buf2.fields).all fun f => strcmp f.1.chars f.2.chars = 0

/-- The null pointer when there are no fields. -/
def pathbufName (buf : PathbufT) : Option Str := buf.fields.getLast?

def pathbufChild (buf : PathbufT) (name : Str) : PathbufT := { buf with fields := buf.fields ++ [name] }

def resolvePath (cwd path : PathbufT) : PathbufT :=
  if path.isAbsolute then path else pathbufJoin cwd path

theorem fields_eq {fs gs : List Str} (h : fs.length = gs.length) :
    ((fs.zip gs).all fun f => strcmp f.1.chars f.2.chars = 0) = true ↔ fs = gs := by
  induction fs generalizing gs with
  | nil =>
    cases gs with
    | nil => simp
    | cons g gs => simp at h
  | cons f fs ih =>
    cases gs with
    | nil => simp at h
    | cons g gs =>
      rw [List.zip_cons_cons, List.all_cons, Bool.and_eq_true, ih (Nat.succ.inj h),
        decide_eq_true_eq, Str.strcmp_eq_zero, List.cons.injEq]

theorem pathbufCmp_iff (buf1 buf2 : PathbufT) : pathbufCmp buf1 buf2 = true ↔
    buf1.fields = buf2.fields ∧ buf1.isAbsolute = buf2.isAbsolute ∧ buf1.back = buf2.back := by
  unfold pathbufCmp
  by_cases h : pathbufLen buf1 ≠ pathbufLen buf2 ∨ buf1.isAbsolute ≠ buf2.isAbsolute ∨
      buf1.back ≠ buf2.back
  · rw [if_pos h]
    simp only [Bool.false_eq_true, false_iff]
    rintro ⟨hf, ha, hb⟩
    simp [pathbufLen, hf, ha, hb] at h
  · rw [if_neg h]
    push Not at h
    rw [fields_eq h.1]
    simp [h.2]

theorem pathbufCmp_eq {buf1 buf2 : PathbufT} : pathbufCmp buf1 buf2 = true ↔ buf1 = buf2 := by
  rw [pathbufCmp_iff]
  cases buf1
  cases buf2
  simp

/-- The paths that the system calls pass to the file system. -/
def Rooted (buf : PathbufT) : Prop := buf.isAbsolute = true ∧ buf.back = 0

theorem rooted_root : Rooted pathbufRoot := ⟨rfl, rfl⟩

theorem rooted_component {path : PathbufT} (h : Rooted path) (buffer : List UInt8) :
    Rooted (component path buffer) := by
  unfold component
  split_ifs <;> simp_all [Rooted]

theorem rooted_parseFrom {path : PathbufT} (h : Rooted path) (cs buffer : List UInt8) :
    Rooted (parseFrom cs buffer path) := by
  induction cs generalizing buffer path with
  | nil => exact rooted_component h buffer
  | cons c cs ih =>
    rw [parseFrom]
    split_ifs
    · exact ih h _
    · exact ih (rooted_component h buffer) _

theorem component_isAbsolute (path : PathbufT) (buffer : List UInt8) :
    (component path buffer).isAbsolute = path.isAbsolute := by
  unfold component
  split_ifs <;> rfl

theorem parseFrom_isAbsolute (path : PathbufT) (cs buffer : List UInt8) :
    (parseFrom cs buffer path).isAbsolute = path.isAbsolute := by
  induction cs generalizing buffer path with
  | nil => exact component_isAbsolute path buffer
  | cons c cs ih =>
    rw [parseFrom]
    split_ifs
    · exact ih _ _
    · rw [ih, component_isAbsolute]

theorem rooted_stepBack {res : PathbufT} (h : Rooted res) : Rooted (stepBack res) := by
  unfold stepBack
  split_ifs <;> simp_all [Rooted]

theorem rooted_stepBacks {res : PathbufT} (h : Rooted res) (n : ℕ) : Rooted (stepBack^[n] res) := by
  induction n generalizing res with
  | zero => exact h
  | succ n ih => exact ih (rooted_stepBack h)

theorem rooted_join {buf1 : PathbufT} (h : Rooted buf1) (buf2 : PathbufT) :
    Rooted (pathbufJoin buf1 buf2) := by
  unfold pathbufJoin
  split_ifs
  · exact rooted_root
  · exact rooted_stepBacks h buf2.back

/-- Whatever string a task passes, the resolved path starts at the root. -/
theorem rooted_resolvePath {cwd : PathbufT} (h : Rooted cwd) (address : Str) :
    Rooted (resolvePath cwd (pathbufParse address)) := by
  unfold resolvePath
  by_cases ha : (pathbufParse address).isAbsolute = true
  · rw [if_pos ha]
    have hh := parseFrom_isAbsolute ⟨[], address.chars.head? = some 47, 0⟩ address.chars []
    rw [← pathbufParse, ha] at hh
    exact rooted_parseFrom ⟨hh.symm, rfl⟩ _ _
  · rw [if_neg ha]
    exact rooted_join h _

/-- A name that leads one level down. -/
def Plain (f : Str) : Prop := f.chars ≠ [] ∧ 47 ∉ f.chars ∧ f.chars ≠ [46] ∧ f.chars ≠ [46, 46]

def PlainFields (buf : PathbufT) : Prop := ∀ f ∈ buf.fields, Plain f

def Canonical (buf : PathbufT) : Prop := Rooted buf ∧ PlainFields buf

theorem canonical_root : Canonical pathbufRoot := ⟨rooted_root, fun _ hf => absurd hf List.not_mem_nil⟩

theorem plainFields_component {path : PathbufT} {buffer : List UInt8} (h : PlainFields path)
    (hnul : 0 ∉ buffer) (hsep : 47 ∉ buffer) : PlainFields (component path buffer) := by
  unfold component
  split_ifs with hback hfields habs hdot hempty
  · intro f hf
    exact h f (List.dropLast_subset _ hf)
  · exact h
  · exact h
  · exact h
  · intro f hf
    rcases List.mem_append.mp hf with hf | hf
    · exact h f hf
    · rw [List.mem_singleton.mp hf]
      have hchars : (kstringStr buffer).chars = buffer := text_of_notMem hnul
      rw [Plain, hchars]
      exact ⟨hempty, hsep, hdot, hback⟩
  · exact h

theorem plainFields_parseFrom {path : PathbufT} {cs buffer : List UInt8} (h : PlainFields path)
    (hcs : 0 ∉ cs) (hnul : 0 ∉ buffer) (hsep : 47 ∉ buffer) : PlainFields (parseFrom cs buffer path) := by
  induction cs generalizing buffer path with
  | nil => exact plainFields_component h hnul hsep
  | cons c cs ih =>
    rw [List.mem_cons, not_or] at hcs
    rw [parseFrom]
    split_ifs with hc
    · apply ih h hcs.2
      · rw [List.mem_append, List.mem_singleton, not_or]
        exact ⟨hnul, hcs.1⟩
      · rw [List.mem_append, List.mem_singleton, not_or]
        exact ⟨hsep, Ne.symm hc⟩
    · exact ih (plainFields_component h hnul hsep) hcs.2 List.not_mem_nil List.not_mem_nil

theorem plainFields_parse (address : Str) : PlainFields (pathbufParse address) :=
  plainFields_parseFrom (fun _ hf => absurd hf List.not_mem_nil) address.nul List.not_mem_nil List.not_mem_nil

theorem plainFields_stepBacks {res : PathbufT} (h : PlainFields res) (n : ℕ) :
    PlainFields (stepBack^[n] res) := by
  induction n generalizing res with
  | zero => exact h
  | succ n ih =>
    apply ih
    unfold stepBack
    split_ifs
    · intro f hf
      exact h f (List.dropLast_subset _ hf)
    · exact h
    · exact h

theorem plainFields_join {buf1 buf2 : PathbufT} (h1 : PlainFields buf1) (h2 : PlainFields buf2) :
    PlainFields (pathbufJoin buf1 buf2) := by
  unfold pathbufJoin
  split_ifs
  · exact canonical_root.2
  · intro f hf
    rcases List.mem_append.mp hf with hf | hf
    · exact plainFields_stepBacks h1 buf2.back f hf
    · exact h2 f hf

theorem canonical_resolvePath {cwd : PathbufT} (h : Canonical cwd) (address : Str) :
    Canonical (resolvePath cwd (pathbufParse address)) := by
  refine ⟨rooted_resolvePath h.1 address, ?_⟩
  unfold resolvePath
  split_ifs
  · exact plainFields_parse address
  · exact plainFields_join h.2 (plainFields_parse address)

end Eedox.Pathbuf
