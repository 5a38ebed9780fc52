import Eedox.Kstring
import Eedox.PathAlgebra

namespace Eedox.PathPrint

open Util Pathbuf PathAlgebra Kstring Library.Moves
open Fs.TableBuffer (strlenIn strlenIn_terminated strcmpIn strcmpIn_terminated store store_stale)

section model

-- What a new block of memory holds.
variable (junk : ℕ → UInt8)

def strdup (str : List UInt8) : Option Str := (strlenIn str).map fun _ => kstringStr str

/-- What the parser does at a separator and at the end. -/
def pushComponent (buffer : KstringT) (pathbuf : PathbufT) : Option (KstringT × PathbufT) :=
  (strcmpIn buffer.buffer [46, 46]).bind fun up =>
    if up = 0 then
      let pathbuf :=
        if pathbuf.fields.length > 0 then { pathbuf with fields := pathbuf.fields.dropLast }
        else if !pathbuf.isAbsolute then { pathbuf with back := pathbuf.back + 1 }
        else pathbuf
      (kstringClear buffer).map fun buffer => (buffer, pathbuf)
    else (strcmpIn buffer.buffer [46]).bind fun dot =>
      if dot = 0 then (kstringClear buffer).map fun buffer => (buffer, pathbuf)
      else if buffer.size ≠ 0 then
        (strdup buffer.buffer).bind fun field =>
          (kstringNew junk).map fun buffer => (buffer, { pathbuf with fields := pathbuf.fields ++ [field] })
      else some (buffer, pathbuf)

/-- The loop over the bytes from `p` to the end of the block that holds the string. -/
def parseLoop : List UInt8 → KstringT → PathbufT → Option PathbufT
  | [], _, _ => none
  | c :: p, buffer, pathbuf =>
    if c ≠ 47 ∧ c ≠ 0 then
      (kstringPush junk buffer c).bind fun buffer => parseLoop p buffer pathbuf
    else
      (kstringFit junk buffer).bind fun buffer =>
        (pushComponent junk buffer pathbuf).bind fun (buffer, pathbuf) =>
          if c = 0 then some pathbuf else parseLoop p buffer pathbuf

def parse (address : List UInt8) : Option PathbufT :=
  (kstringNew junk).bind fun buffer =>
    address.head?.bind fun c => parseLoop junk address buffer ⟨[], decide (c = 47), 0⟩

def stringifyBack (back : ℕ) (strep : KstringT) : Option KstringT :=
  (List.range back).foldlM (fun strep _ => kstringAppend junk strep [46, 46, 47, 0]) strep

def stringifyFields (fields : List Str) (strep : KstringT) : Option KstringT :=
  fields.foldlM (fun strep field =>
    (kstringAppend junk strep (field.chars ++ [0])).bind (kstringPush junk · 47)) strep

def pathbufStringify (buf : PathbufT) : Option (List UInt8) :=
  (kstringNew junk).bind fun strep =>
    (if buf.isAbsolute then kstringPush junk strep 47 else some strep).bind fun strep =>
      (stringifyBack junk buf.back strep).bind fun strep =>
        (stringifyFields junk buf.fields strep).bind fun strep =>
          (kstringFit junk strep).map KstringT.buffer

/-- `buffer` is the memory of the task from the pointer in `ebx`. -/
def syscallGetcwd (taskCwd : PathbufT) (buffer : List UInt8) : Option (List UInt8) :=
  (pathbufStringify junk taskCwd).bind fun cwd =>
    (Kstring.strcpy buffer 0 cwd).bind fun buffer =>
      (strlenIn cwd).bind fun len => store buffer len [0]

/-- The directory that `syscall_setcwd` opens. -/
def setcwdPath (taskCwd : PathbufT) (address : List UInt8) : Option PathbufT :=
  (parse junk address).map (resolvePath taskCwd)

end model

variable {junk : ℕ → UInt8} {buffer : KstringT} {cs : List UInt8}

theorem strcmp_buffer (h : Holds buffer cs) {name : List UInt8} (hn : 0 ∉ name) :
    ∃ order, strcmpIn buffer.buffer name = some order ∧ (order = 0 ↔ cs = name) := by
  obtain ⟨stale, hbytes⟩ := h.bytes
  refine ⟨strcmp (cs ++ 0 :: stale) name, ?_, ?_⟩
  · rw [hbytes, strcmpIn_terminated h.nul stale hn]
  · rw [strcmp_eq_zero, text_terminated h.nul, text_of_notMem hn]

theorem strdup_buffer (h : Holds buffer cs) : strdup buffer.buffer = some (kstringStr cs) := by
  obtain ⟨stale, hbytes⟩ := h.bytes
  have htext : kstringStr buffer.buffer = kstringStr cs := by
    apply Str.ext
    exact h.text.trans (text_of_notMem h.nul).symm
  rw [strdup, htext, hbytes, strlenIn_terminated h.nul, Option.map_some]

theorem pushComponent_eq (junk : ℕ → UInt8) (h : Holds buffer cs) (pathbuf : PathbufT) :
    ∃ b', pushComponent junk buffer pathbuf = some (b', component pathbuf cs) ∧ Holds b' [] := by
  obtain ⟨up, hup, hup0⟩ := @strcmp_buffer _ _ h [46, 46] (by decide)
  obtain ⟨dot, hdot, hdot0⟩ := @strcmp_buffer _ _ h [46] (by decide)
  obtain ⟨cleared, hclear, hempty⟩ := holds_clear h
  obtain ⟨fresh, hnew, hfresh⟩ := holds_new junk
  rw [pushComponent, hup, Option.bind_some, component]
  by_cases hback : cs = [46, 46]
  · refine ⟨cleared, ?_, hempty⟩
    rw [if_pos (hup0.mpr hback), if_pos hback, hclear]
    simp only [Option.map_some, gt_iff_lt, List.length_pos_iff]
  · rw [if_neg (mt hup0.mp hback), if_neg hback, hdot, Option.bind_some]
    by_cases hhere : cs = [46]
    · refine ⟨cleared, ?_, hempty⟩
      rw [if_pos (hdot0.mpr hhere), if_pos hhere, hclear, Option.map_some]
    · rw [if_neg (mt hdot0.mp hhere), if_neg hhere]
      by_cases hnil : cs = []
      · refine ⟨buffer, ?_, hnil ▸ h⟩
        rw [if_neg (by simp [h.size, hnil]), if_neg (not_not.mpr hnil)]
      · refine ⟨fresh, ?_, hfresh⟩
        rw [if_pos (by simp [h.size, hnil]), if_pos hnil, strdup_buffer h, hnew, Option.bind_some,
          Option.map_some]

/-- The growing buffer holds what the parser has read of a component. -/
theorem parseLoop_eq (junk : ℕ → UInt8) (h : Holds buffer cs) {p : List UInt8} (hp : 0 ∉ p)
    (tail : List UInt8) (pathbuf : PathbufT) :
    parseLoop junk (p ++ 0 :: tail) buffer pathbuf = some (parseFrom p cs pathbuf) := by
  induction p generalizing buffer cs pathbuf with
  | nil =>
    obtain ⟨fitted, hfit, hheld⟩ := holds_fit junk h
    obtain ⟨b', hpush, -⟩ := pushComponent_eq junk hheld pathbuf
    rw [List.nil_append, parseLoop, if_neg (by simp), hfit, Option.bind_some, hpush, Option.bind_some]
    exact if_pos rfl
  | cons c p ih =>
    rw [List.mem_cons, not_or] at hp
    rw [List.cons_append, parseLoop, parseFrom]
    by_cases hc : c = 47
    · obtain ⟨fitted, hfit, hheld⟩ := holds_fit junk h
      obtain ⟨b', hpush, hb'⟩ := pushComponent_eq junk hheld pathbuf
      rw [if_neg (by simp [hc]), if_neg (not_not.mpr hc), hfit, Option.bind_some, hpush, Option.bind_some]
      exact (if_neg (Ne.symm hp.1)).trans (ih hb' hp.2 _)
    · obtain ⟨b', hpush, hb'⟩ := holds_push junk h (Ne.symm hp.1)
      rw [if_pos (And.intro hc (Ne.symm hp.1)), if_pos hc, hpush, Option.bind_some, ih hb' hp.2]

theorem parse_eq (junk : ℕ → UInt8) (address : Str) (tail : List UInt8) :
    parse junk (address.chars ++ 0 :: tail) = some (pathbufParse address) := by
  obtain ⟨fresh, hnew, hfresh⟩ := holds_new junk
  have hhead : ∃ c, (address.chars ++ 0 :: tail).head? = some c ∧
      decide (c = 47) = decide (address.chars.head? = some 47) := by
    cases address.chars with
    | nil => exact ⟨0, rfl, rfl⟩
    | cons c cs => exact ⟨c, rfl, by simp⟩
  obtain ⟨c, hc, habs⟩ := hhead
  rw [parse, hnew, Option.bind_some, hc, Option.bind_some, parseLoop_eq junk hfresh address.nul, habs]
  rfl

/-- The printed form: each level and each field with a separator behind it. -/
def printed (buf : PathbufT) : List UInt8 :=
  (if buf.isAbsolute then [47] else []) ++
    ((List.replicate buf.back [46, 46] ++ buf.fields.map Str.chars).map (· ++ [47])).flatten

theorem stringifyBack_eq (junk : ℕ → UInt8) (h : Holds buffer cs) (back : ℕ) :
    ∃ b', stringifyBack junk back buffer = some b' ∧
      Holds b' (cs ++ ((List.replicate back [46, 46]).map (· ++ [47])).flatten) := by
  induction back with
  | zero => exact ⟨buffer, rfl, by simpa using h⟩
  | succ back ih =>
    obtain ⟨b', hb', hheld⟩ := ih
    obtain ⟨grown, happend, hgrown⟩ := @holds_append _ _ [46, 46, 47] junk hheld (by decide) []
    refine ⟨grown, ?_, ?_⟩
    · rw [stringifyBack, List.range_succ, List.foldlM_append]
      rw [stringifyBack] at hb'
      rw [hb']
      simp only [List.foldlM_cons, List.foldlM_nil, Option.bind_eq_bind, Option.bind_some]
      rw [show ([46, 46, 47, 0] : List UInt8) = [46, 46, 47] ++ 0 :: [] from rfl, happend]
      rfl
    · simpa [List.replicate_succ'] using hgrown

theorem stringifyFields_eq (junk : ℕ → UInt8) (h : Holds buffer cs) (fields : List Str) :
    ∃ b', stringifyFields junk fields buffer = some b' ∧
      Holds b' (cs ++ ((fields.map Str.chars).map (· ++ [47])).flatten) := by
  induction fields generalizing buffer cs with
  | nil => exact ⟨buffer, rfl, by simpa using h⟩
  | cons field fields ih =>
    obtain ⟨b', happend, hheld⟩ := holds_append junk h field.nul []
    obtain ⟨b'', hpush, hheld⟩ := holds_push junk hheld (by decide : (47 : UInt8) ≠ 0)
    obtain ⟨last, hlast, hdone⟩ := ih hheld
    refine ⟨last, ?_, by simpa using hdone⟩
    rw [stringifyFields, List.foldlM_cons, happend, Option.bind_some, hpush]
    exact hlast

theorem pathbufStringify_eq (junk : ℕ → UInt8) (buf : PathbufT) :
    ∃ k, pathbufStringify junk buf = some k.buffer ∧ Holds k (printed buf) := by
  obtain ⟨fresh, hnew, hfresh⟩ := holds_new junk
  have hroot : ∃ b', (if buf.isAbsolute then kstringPush junk fresh 47 else some fresh) = some b' ∧
      Holds b' (if buf.isAbsolute then [47] else []) := by
    by_cases habs : buf.isAbsolute = true
    · rw [if_pos habs, if_pos habs]
      exact holds_push junk hfresh (by decide)
    · rw [if_neg habs, if_neg habs]
      exact ⟨fresh, rfl, hfresh⟩
  obtain ⟨b1, h1, hb1⟩ := hroot
  obtain ⟨b2, h2, hb2⟩ := stringifyBack_eq junk hb1 buf.back
  obtain ⟨b3, h3, hb3⟩ := stringifyFields_eq junk hb2 buf.fields
  obtain ⟨b4, h4, hb4⟩ := holds_fit junk hb3
  refine ⟨b4, ?_, ?_⟩
  · rw [pathbufStringify, hnew, Option.bind_some, h1, Option.bind_some, h2, Option.bind_some, h3,
      Option.bind_some, h4, Option.map_some]
  · simpa [printed] using hb4

theorem splitOn_parts {parts : List (List UInt8)} (h : ∀ part ∈ parts, 47 ∉ part) :
    (parts.map (· ++ [47])).flatten.splitOn 47 = parts ++ [[]] := by
  induction parts with
  | nil => rfl
  | cons part parts ih =>
    rw [List.forall_mem_cons] at h
    rw [List.map_cons, List.flatten_cons, List.append_assoc, List.singleton_append,
      List.splitOn_append_cons_self_of_not_mem h.1, ih h.2, List.cons_append]

theorem printed_eq (buf : PathbufT) : printed buf =
    (((if buf.isAbsolute then [[]] else []) ++ (List.replicate buf.back [46, 46] ++
      buf.fields.map Str.chars)).map (· ++ [47])).flatten := by
  rw [List.map_append, List.flatten_append, printed]
  congr 1
  split_ifs <;> rfl

theorem moveOf_field {field : Str} (h : Plain field) : moveOf field.chars = some (.down field) := by
  have hfield : kstringStr field.chars = field := Str.ext (text_of_notMem field.nul)
  rw [moveOf, if_neg h.2.2.2, if_neg (not_or.mpr ⟨h.2.2.1, h.1⟩), hfield]

theorem filterMap_fields {fields : List Str} (h : ∀ f ∈ fields, Plain f) :
    (fields.map Str.chars).filterMap moveOf = fields.map .down := by
  induction fields with
  | nil => rfl
  | cons field fields ih =>
    rw [List.forall_mem_cons] at h
    rw [List.map_cons, List.filterMap_cons_some (moveOf_field h.1), ih h.2, List.map_cons]

theorem filterMap_back (back : ℕ) :
    (List.replicate back [46, 46]).filterMap moveOf = List.replicate back .up :=
  List.filterMap_replicate_of_some rfl

theorem movesOf_printed {buf : PathbufT} (h : PlainFields buf) {address : Str}
    (ha : address.chars = printed buf) : movesOf address = (placeOf buf).moves := by
  have hseparator : ∀ part ∈ (if buf.isAbsolute then [[]] else []) ++ (List.replicate buf.back [46, 46] ++
      buf.fields.map Str.chars), (47 : UInt8) ∉ part := by
    intro part hpart
    rcases List.mem_append.mp hpart with hpart | hpart
    · split_ifs at hpart
      · rw [List.mem_singleton.mp hpart]
        exact List.not_mem_nil
      · exact absurd hpart List.not_mem_nil
    · rcases List.mem_append.mp hpart with hpart | hpart
      · rw [List.eq_of_mem_replicate hpart]
        decide
      · obtain ⟨field, hfield, rfl⟩ := List.mem_map.mp hpart
        exact (h field hfield).2.1
  have hroot : (if buf.isAbsolute then [[]] else []).filterMap moveOf = [] := by split_ifs <;> rfl
  have hend : [[]].filterMap moveOf = [] := rfl
  rw [movesOf, components, ha, printed_eq, splitOn_parts hseparator, List.filterMap_append,
    List.filterMap_append, List.filterMap_append, hroot, filterMap_back, filterMap_fields h, hend,
    List.nil_append, List.append_nil]
  rfl

/-- What is printed starts with a separator just when the path does. -/
theorem head_printed {buf : PathbufT} (h : PlainFields buf) :
    decide ((printed buf).head? = some 47) = buf.isAbsolute := by
  unfold printed
  cases habs : buf.isAbsolute with
  | true => rfl
  | false =>
    cases hback : buf.back with
    | succ back => simp [List.replicate_succ]
    | zero =>
      cases hfields : buf.fields with
      | nil => rfl
      | cons field fields =>
        obtain ⟨hne, hsep, -⟩ := h field (hfields ▸ List.mem_cons_self)
        cases hchars : field.chars with
        | nil => exact absurd hchars hne
        | cons c cs =>
          rw [hchars, List.mem_cons, not_or] at hsep
          simp [hchars, Ne.symm hsep.1]

theorem parse_printed {buf : PathbufT} (h : PlainFields buf) (hc : Counting buf) {address : Str}
    (ha : address.chars = printed buf) : pathbufParse address = buf := by
  apply placeOf_inj
  rw [placeOf_parse, normalise, movesOf_printed h ha, ha, head_printed h]
  cases habs : buf.isAbsolute with
  | false => exact join_origin habs
  | true =>
    rw [Place.moves, goAll_append]
    have hback : (placeOf buf).back = 0 := hc habs
    rw [hback, List.replicate_zero, goAll_nil, goAll_downs]
    ext1
    · rfl
    · exact habs.symm
    · exact hback.symm

theorem goAll_root (ms : List (Move Str)) (x : Place Str) (hf : x.fixed = true) (hb : x.back = 0) :
    (goAll x ms).back = 0 := by
  induction ms generalizing x with
  | nil => exact hb
  | cons m ms ih =>
    apply ih
    · rw [go_fixed, hf]
    · cases m with
      | down name => exact hb
      | up =>
        unfold go
        split_ifs
        · exact hb
        · exact hb

theorem counting_parse (address : Str) : Counting (pathbufParse address) := by
  intro habs
  have hplace : (placeOf (pathbufParse address)).back = 0 := by
    rw [placeOf_parse]
    rw [parse_isAbsolute] at habs
    exact goAll_root _ _ habs rfl
  exact hplace

/-- The bytes that are printed are read as the path. -/
theorem parse_held {buf : PathbufT} {k : KstringT} (junk : ℕ → UInt8) (h : PlainFields buf)
    (hc : Counting buf) (hheld : Holds k (printed buf)) : parse junk k.buffer = some buf := by
  obtain ⟨stale, hbytes⟩ := hheld.bytes
  rw [hbytes, parse_eq junk ⟨printed buf, hheld.nul⟩ stale, parse_printed h hc rfl]

theorem syscallGetcwd_eq (junk : ℕ → UInt8) (cwd : PathbufT) {buffer : List UInt8}
    (hroom : (printed cwd).length < buffer.length) : 0 ∉ printed cwd ∧
    syscallGetcwd junk cwd buffer =
      some (printed cwd ++ 0 :: (buffer.drop (printed cwd).length).drop 1) := by
  obtain ⟨k, hk, hheld⟩ := pathbufStringify_eq junk cwd
  obtain ⟨stale, hbytes⟩ := hheld.bytes
  have hcopy := @strcpy_stale _ [] buffer hheld.nul stale hroom.le
  have hend := @store_end (printed cwd) (buffer.drop (printed cwd).length)
    (by rw [List.length_drop]; omega)
  rw [List.nil_append, List.length_nil, List.nil_append] at hcopy
  refine ⟨hheld.nul, ?_⟩
  rw [syscallGetcwd, hk, Option.bind_some, hbytes, hcopy, Option.bind_some, strlenIn_terminated hheld.nul,
    Option.bind_some, hend]

/-- A path that is printed and parsed again is the same path, and the directory that `getcwd` names is
the one that `setcwd` resolves the name to, from any directory. -/
theorem print_parse (junk : ℕ → ℕ → UInt8) (address : Str) (tail : List UInt8) {cwd : PathbufT}
    {buffer : List UInt8} (hcwd : Canonical cwd) (hroom : (printed cwd).length < buffer.length) :
    (∃ path str again, parse (junk 0) (address.chars ++ 0 :: tail) = some path ∧
      pathbufStringify (junk 1) path = some str ∧ parse (junk 2) str = some path ∧
      pathbufStringify (junk 3) path = some again ∧ text again = text str) ∧
    ∃ name, syscallGetcwd (junk 4) cwd buffer = some name ∧
      ∀ other, setcwdPath (junk 5) other name = some cwd := by
  constructor
  · obtain ⟨k, hk, hheld⟩ := pathbufStringify_eq (junk 1) (pathbufParse address)
    obtain ⟨k', hk', hheld'⟩ := pathbufStringify_eq (junk 3) (pathbufParse address)
    exact ⟨_, _, _, parse_eq (junk 0) address tail, hk,
      parse_held (junk 2) (plainFields_parse address) (counting_parse address) hheld, hk',
      hheld'.text.trans hheld.text.symm⟩
  · obtain ⟨hnul, hname⟩ := syscallGetcwd_eq (junk 4) cwd hroom
    refine ⟨_, hname, fun other => ?_⟩
    rw [setcwdPath, parse_eq (junk 5) ⟨printed cwd, hnul⟩, parse_printed hcwd.2 (fun _ => hcwd.1.2) rfl,
      Option.map_some, resolvePath, if_pos hcwd.1.1]

/-- `//a/.././` is the root, whose name is a separator. -/
theorem print_parse_root : Canonical pathbufRoot ∧
    ∃ path str again, parse (fun _ => 7) ([47, 47, 97, 47, 46, 46, 47, 46, 47] ++ 0 :: [9]) = some path ∧
      pathbufStringify (fun _ => 7) path = some str ∧ parse (fun _ => 7) str = some path ∧
      pathbufStringify (fun _ => 7) path = some again ∧ text again = text str :=
  ⟨canonical_root, (@print_parse (fun _ _ => 7) ⟨[47, 47, 97, 47, 46, 46, 47, 46, 47], by decide⟩ [9]
    pathbufRoot [1, 2, 3] canonical_root (by decide)).1⟩

end Eedox.PathPrint
