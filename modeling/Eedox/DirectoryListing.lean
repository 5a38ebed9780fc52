import Eedox.Kstring
import Eedox.DiskFiles
import Eedox.Syscall
import Eedox.Fs.ReadWrite
import Eedox.Library.Words

namespace Eedox.DirectoryListing

open Util Fs Fs.Childtable Descriptor DiskFiles Syscall Library.Bytes
open Kstring (strcpy)
open Library.Words (word_bmod)
open Fs.TableBuffer (strlenIn strlenIn_terminated store store_append store_stale)

/-- The length and the buffer after the call; no value when an access leaves the block it is in. -/
def inodeReaddir (s : Volume) (node : InodeT) (bytesFrom : ℕ) (buffer : List UInt8) :
    Option (ℕ × List UInt8) :=
  if bytesFrom = node.size then some (0, buffer)
  else
    let size := sub32 node.size bytesFrom
    (store (slice s.junk 0 size) 0 (inodeRead s node bytesFrom size)).bind fun dir =>
      (strlenIn dir).bind fun dirlen =>
        (strcpy buffer 0 dir).bind fun buffer =>
          (store buffer dirlen [0]).map fun buffer => ((dirlen + 5) % 2 ^ 32, buffer)

def fsReaddir (s : Volume) (node : ℕ) (buffer : List UInt8) (bytesFrom : ℤ) : Option (ℤ × List UInt8) :=
  if (s.inodes node).isvalid ≠ 0 then
    (inodeReaddir s (s.inodes node) (bytesFrom % 2 ^ 32).toNat buffer).map fun (len, buffer) =>
      (Int.bmod len (2 ^ 32), buffer)
  else some (fsErrDeleted, buffer)

def syscallReaddir (s : Volume) (table : FdTable) (fdId : ℕ) (buffer : List UInt8) :
    Option (FdTable × ℤ × List UInt8) :=
  match table.records[fdId]? with
  | none => some (table, syscallErrInvalidFd, buffer)
  | some fd =>
    if !fd.isopen then some (table, syscallErrInvalidFd, buffer)
    else
      match fd.target with
      | .dir node =>
        (fsReaddir s node buffer (Int.bmod fd.pos (2 ^ 32))).map fun (ret, buffer) =>
          if ret = fsErrDeleted then (table, syscallErrUnlinkedFile, buffer)
          else (fdTableSet table fdId (advance fd ret), ret, buffer)
      | _ => some (table, syscallErrInvalidFd, buffer)

/-- The volume and the caller's buffer that a call finds. -/
structure Call where
  volume : Volume
  buffer : List UInt8

/-- The table after the calls, and what they return. -/
def readdirs (fdId : ℕ) : List Call → FdTable → Option (FdTable × List (ℤ × List UInt8))
  | [], table => some (table, [])
  | call :: calls, table =>
    (syscallReaddir call.volume table fdId call.buffer).bind fun (table, result) =>
      (readdirs fdId calls table).map fun (table, results) => (table, result :: results)

/-- The loop of `ls`, with the volume that each call finds; its value is what it prints. It has not ended
when the volumes do. -/
def ls (fdId : ℕ) : List Volume → FdTable → (name : List UInt8) → Option (List UInt8)
  | [], _, _ => none
  | s :: volumes, table, name =>
    (syscallReaddir s table fdId name).bind fun (table, rsl, name) =>
      if rsl = 0 then some []
      else (strlenIn name).bind fun len =>
        (ls fdId volumes table name).map fun printed => name.take len ++ 10 :: printed

/-- The directory's table is the encoding of these records. -/
structure Directory (s : Volume) (node : ℕ) (rs : List (Str × ℕ)) : Prop where
  valid : (s.inodes node).isvalid ≠ 0
  fits : Fits (s.inodes node).toHeader
  table : fileBytes s node = encode rs

/-- The length of the record is returned and its name is in the buffer. -/
def Returned (r : Str × ℕ) (result : ℤ × List UInt8) : Prop :=
  result.1 = r.1.chars.length + 5 ∧ ∃ stale, result.2 = r.1.chars ++ 0 :: stale

variable {s : Volume} {node fdId : ℕ} {qs rs ts us : List (Str × ℕ)} {r : Str × ℕ} {buffer : List UInt8}
  {table : FdTable} {fd : Fd}

theorem Directory.size (h : Directory s node rs) : (s.inodes node).size = (encode rs).length := by
  rw [← h.table, fileBytes, length_slice]

theorem inodeReaddir_end (h : Directory s node rs) (buffer : List UInt8) :
    inodeReaddir s (s.inodes node) (encode rs).length buffer = some (0, buffer) := by
  rw [inodeReaddir, if_pos h.size.symm]

/-- At the start of a record its name is copied. -/
theorem inodeReaddir_record (h : Directory s node (qs ++ r :: ts)) (hlen : r.1.chars.length < buffer.length) :
    inodeReaddir s (s.inodes node) (encode qs).length buffer =
      some (r.1.chars.length + 5, r.1.chars ++ 0 :: buffer.drop (r.1.chars.length + 1)) := by
  have hsize := h.size
  have hword := h.fits.word
  rw [encode_append, encode_cons, List.length_append, List.length_append, length_record] at hsize
  have hrest : inodeRead s (s.inodes node) (encode qs).length ((s.inodes node).size - (encode qs).length) =
      record r ++ encode ts := by
    rw [inodeRead_fileBytes h.fits (by omega) (by omega), h.table, encode_append, encode_cons, List.drop_left]
    apply List.take_of_length_le
    rw [List.length_append, length_record]
    omega
  have hblock : store (slice s.junk 0 ((s.inodes node).size - (encode qs).length)) 0 (record r ++ encode ts) =
      some (record r ++ encode ts) := by
    have := @store_append [] [] (slice s.junk 0 ((s.inodes node).size - (encode qs).length)) (record r ++ encode ts)
      (by rw [length_slice, List.length_append, length_record]; omega)
    simpa using this
  have hname := @Kstring.strcpy_stale r.1.chars [] buffer r.1.nul (wordBytes r.2 ++ encode ts) hlen.le
  have hend := @Kstring.store_end r.1.chars (buffer.drop r.1.chars.length) (by rw [List.length_drop]; omega)
  rw [List.nil_append, List.length_nil, List.nil_append] at hname
  rw [inodeReaddir, if_neg (by omega)]
  dsimp only
  rw [sub32_of_le (by omega) hword, hrest, hblock, Option.bind_some, record, List.append_assoc, List.cons_append,
    strlenIn_terminated r.1.nul, Option.bind_some, hname, Option.bind_some, hend, Option.map_some,
    Nat.mod_eq_of_lt (by omega), List.drop_drop]

theorem bmod_small {k : ℕ} (hk : k < 2 ^ 31) : Int.bmod k (2 ^ 32) = k :=
  Int.bmod_eq_of_le (by omega) (by omega)

/-- The descriptor stands in the directory, at the end of these records. -/
structure Stands (table : FdTable) (fdId : ℕ) (fd : Fd) (node : ℕ) (qs : List (Str × ℕ)) : Prop where
  record : table.records[fdId]? = some { fd with pos := (encode qs).length }
  isopen : fd.isopen = true
  target : fd.target = .dir node

theorem syscallReaddir_eq {len : ℕ} {after : List UInt8} (h : Stands table fdId fd node qs)
    (hdir : Directory s node rs) (hle : (encode qs).length ≤ (encode rs).length) (hlen : len < 2 ^ 31)
    (hread : inodeReaddir s (s.inodes node) (encode qs).length buffer = some (len, after)) :
    syscallReaddir s table fdId buffer =
      some (fdTableSet table fdId (advance { fd with pos := (encode qs).length } len), (len : ℤ), after) := by
  have hword := hdir.fits.word
  rw [hdir.size] at hword
  have hsmall := bmod_small hlen
  have hret : ¬ (len : ℤ) = fsErrDeleted := by
    rw [fsErrDeleted]
    omega
  rw [syscallReaddir, h.record]
  simp only [h.isopen, h.target, Bool.not_true, Bool.false_eq_true, ↓reduceIte]
  rw [fsReaddir, if_pos hdir.valid, word_bmod (by omega), hread, Option.map_some, Option.map_some]
  simp only [hsmall, if_neg hret]

theorem stands_set (h : Stands table fdId fd node qs) {ret : ℕ} {us : List (Str × ℕ)}
    (hret : (encode us).length = (encode qs).length + ret) (hlt : (encode us).length < 2 ^ 32) :
    Stands (fdTableSet table fdId (advance { fd with pos := (encode qs).length } ret)) fdId fd node us := by
  refine ⟨?_, h.isopen, h.target⟩
  have hi := (List.getElem?_eq_some_iff.mp h.record).1
  have hpos : (((encode qs).length + ret : ℤ) % 2 ^ 32).toNat = (encode us).length := by omega
  rw [fdTableSet, List.getElem?_set_self hi, advance]
  dsimp only
  rw [hpos]

/-- A call at the start of a record. -/
theorem syscallReaddir_record (h : Stands table fdId fd node qs) (hdir : Directory s node (qs ++ r :: ts))
    (hname : r.1.chars.length ≤ 255) (hbuffer : 256 ≤ buffer.length) : ∃ table' result,
      syscallReaddir s table fdId buffer = some (table', result) ∧ Returned r result ∧
        result.2.length = buffer.length ∧ Stands table' fdId fd node (qs ++ [r]) := by
  have hword := hdir.fits.word
  rw [hdir.size, encode_append, encode_cons, List.length_append, List.length_append, length_record] at hword
  have hread := @inodeReaddir_record s node qs ts r buffer hdir (by omega)
  refine ⟨fdTableSet table fdId (advance { fd with pos := (encode qs).length } (r.1.chars.length + 5 : ℕ)),
    ((r.1.chars.length + 5 : ℕ), r.1.chars ++ 0 :: buffer.drop (r.1.chars.length + 1)), ?_, ⟨rfl, _, rfl⟩, ?_, ?_⟩
  · exact syscallReaddir_eq h hdir (by rw [encode_append, List.length_append]; omega) (by omega) hread
  · simp only [List.length_append, List.length_cons, List.length_drop]
    omega
  · refine stands_set h ?_ ?_
    · rw [encode_append, encode_cons, encode_nil, List.append_nil, List.length_append, length_record]
    · rw [encode_append, encode_cons, encode_nil, List.append_nil, List.length_append, length_record]
      omega

/-- A call at the end of the table. -/
theorem syscallReaddir_end (h : Stands table fdId fd node rs) (hdir : Directory s node rs) (buffer : List UInt8) :
    ∃ table', syscallReaddir s table fdId buffer = some (table', 0, buffer) ∧ Stands table' fdId fd node rs := by
  have hword := hdir.fits.word
  rw [hdir.size] at hword
  refine ⟨fdTableSet table fdId (advance { fd with pos := (encode rs).length } (0 : ℕ)), ?_,
    stands_set h (by rw [Nat.add_zero]) hword⟩
  exact syscallReaddir_eq h hdir le_rfl (by omega) (inodeReaddir_end hdir buffer)

/-- The calls from a record on return the names of the records that follow. -/
theorem readdirs_from {calls : List Call} (h : Stands table fdId fd node qs) (hlen : calls.length = ts.length)
    (hcalls : ∀ call ∈ calls, Directory call.volume node (qs ++ ts ++ us) ∧ 256 ≤ call.buffer.length)
    (hnames : ∀ r ∈ ts, r.1.chars.length ≤ 255) : ∃ table' results,
      readdirs fdId calls table = some (table', results) ∧ List.Forall₂ Returned ts results ∧
        Stands table' fdId fd node (qs ++ ts) := by
  induction calls generalizing table qs ts with
  | nil =>
    obtain rfl := List.eq_nil_of_length_eq_zero hlen.symm
    exact ⟨table, [], rfl, .nil, by rwa [List.append_nil]⟩
  | cons call calls ih =>
    cases ts with
    | nil => cases hlen
    | cons r ts =>
      have hsplit : qs ++ r :: ts = qs ++ [r] ++ ts := by rw [List.append_assoc, List.singleton_append]
      rw [List.forall_mem_cons] at hcalls hnames
      have hfirst := hcalls.1.1
      rw [List.append_assoc, List.cons_append] at hfirst
      obtain ⟨t₁, result, hcall, hresult, -, hstands⟩ := syscallReaddir_record h hfirst hnames.1 hcalls.1.2
      rw [hsplit] at hcalls ⊢
      obtain ⟨t₂, results, hrest, hall, hend⟩ := ih hstands (Nat.succ.inj hlen) hcalls.2 hnames.2
      refine ⟨t₂, result :: results, ?_, .cons hresult hall, hend⟩
      rw [readdirs, hcall, Option.bind_some]
      dsimp only
      rw [hrest, Option.map_some]

theorem readdirs_append (fdId : ℕ) (calls rest : List Call) (table : FdTable) :
    readdirs fdId (calls ++ rest) table = (readdirs fdId calls table).bind fun (table, results) =>
      (readdirs fdId rest table).map fun (table, more) => (table, results ++ more) := by
  induction calls generalizing table with
  | nil => simp [readdirs]
  | cons call calls ih =>
    rw [List.cons_append, readdirs, readdirs]
    cases syscallReaddir call.volume table fdId call.buffer with
    | none => rfl
    | some next =>
      simp only [Option.bind_some, ih]
      cases readdirs fdId calls next.1 with
      | none => rfl
      | some after => simp [Option.map_map, Function.comp_def]

/-- The loop of `ls` prints the names of the records that are left and ends. -/
theorem ls_from {volumes : List Volume} {name : List UInt8} (h : Stands table fdId fd node qs)
    (hlen : ts.length < volumes.length) (hvolumes : ∀ s ∈ volumes, Directory s node (qs ++ ts))
    (hnames : ∀ r ∈ ts, r.1.chars.length ≤ 255) (hname : 256 ≤ name.length) :
    ls fdId volumes table name = some (ts.flatMap fun r => r.1.chars ++ [10]) := by
  induction ts generalizing table qs volumes name with
  | nil =>
    cases volumes with
    | nil => cases hlen
    | cons s volumes =>
      rw [List.forall_mem_cons, List.append_nil] at hvolumes
      obtain ⟨t₁, hcall, -⟩ := syscallReaddir_end h hvolumes.1 name
      rw [ls, hcall]
      rfl
  | cons r ts ih =>
    cases volumes with
    | nil => cases hlen
    | cons s volumes =>
      rw [List.forall_mem_cons] at hvolumes hnames
      obtain ⟨t₁, ⟨ret, name'⟩, hcall, ⟨hret, stale, hbuffer⟩, hlength, hstands⟩ :=
        syscallReaddir_record h hvolumes.1 hnames.1 hname
      have hsplit : qs ++ r :: ts = qs ++ [r] ++ ts := by rw [List.append_assoc, List.singleton_append]
      rw [hsplit] at hvolumes
      dsimp only at hret hbuffer hlength
      have hrest := ih hstands (Nat.lt_of_succ_lt_succ hlen) hvolumes.2 hnames.2 (hname.trans_eq hlength.symm)
      rw [ls, hcall, Option.bind_some]
      dsimp only
      rw [if_neg (by omega), hrest, hbuffer, strlenIn_terminated r.1.nul, Option.bind_some, Option.map_some,
        List.take_left, List.flatMap_cons, List.append_assoc, List.singleton_append]

/-- From the position 0 on, the calls return the names one after the other and then 0, each call starts
at a record, and the loop of `ls` ends. -/
theorem readdir_complete {calls : List Call} (hfd : table.records[fdId]? = some fd) (hopen : fd.isopen = true)
    (htarget : fd.target = .dir node) (hpos : fd.pos = 0) (hnames : ∀ r ∈ rs, r.1.chars.length ≤ 255)
    (hlen : calls.length = rs.length + 1)
    (hcalls : ∀ call ∈ calls, Directory call.volume node rs ∧ 256 ≤ call.buffer.length) :
    (∃ table' results last, readdirs fdId calls table = some (table', results ++ [last]) ∧
      List.Forall₂ Returned rs results ∧ last.1 = 0) ∧
    (∀ k ≤ rs.length, ∃ table' results, readdirs fdId (calls.take k) table = some (table', results) ∧
      table'.records[fdId]? = some { fd with pos := (encode (rs.take k)).length }) ∧
    ∀ volumes name, rs.length < volumes.length → (∀ s ∈ volumes, Directory s node rs) → name.length = 256 →
      ls fdId volumes table name = some (rs.flatMap fun r => r.1.chars ++ [10]) := by
  have hstands : Stands table fdId fd node [] := by
    refine ⟨?_, hopen, htarget⟩
    rw [hfd, encode_nil, List.length_nil, ← hpos]
  have hrun (k : ℕ) (hk : k ≤ rs.length) : ∃ table' results,
      readdirs fdId (calls.take k) table = some (table', results) ∧ List.Forall₂ Returned (rs.take k) results ∧
        Stands table' fdId fd node (rs.take k) := by
    refine @readdirs_from node fdId [] (rs.take k) (rs.drop k) table fd (calls.take k) hstands ?_ ?_ ?_
    · rw [List.length_take_of_le (by omega), List.length_take_of_le hk]
    · rw [List.nil_append, List.take_append_drop]
      exact fun call hcall => hcalls call (List.mem_of_mem_take hcall)
    · exact fun r hr => hnames r (List.mem_of_mem_take hr)
  refine ⟨?_, fun k hk => ?_, fun volumes name hlt hvolumes hname => ?_⟩
  · obtain ⟨t₁, results, hreads, hall, hend⟩ := hrun rs.length le_rfl
    obtain ⟨last, hlast⟩ : ∃ last, calls.drop rs.length = [last] :=
      List.length_eq_one_iff.mp (by rw [List.length_drop, hlen, Nat.add_sub_cancel_left])
    have hmem : last ∈ calls := List.mem_of_mem_drop (hlast ▸ List.mem_singleton_self last)
    rw [List.take_length] at hall hend
    obtain ⟨t₂, hcall, -⟩ := syscallReaddir_end hend (hcalls last hmem).1 last.buffer
    refine ⟨t₂, results, (0, last.buffer), ?_, hall, rfl⟩
    rw [← List.take_append_drop rs.length calls, readdirs_append, hreads, hlast, Option.bind_some]
    simp only [readdirs, hcall, Option.bind_some, Option.map_some]
  · obtain ⟨t₁, results, hreads, -, hend⟩ := hrun k hk
    exact ⟨t₁, results, hreads, hend.record⟩
  · exact ls_from hstands hlt hvolumes hnames hname.ge

/-- The root directory with its one file. -/
theorem readdir_complete_root :
    ls 0 [oneFile, oneFile] (fdTableAdd (fdTableCreate 1 (by decide)) ⟨.dir 0, 0, true, fdAccessRead⟩).1
      (.replicate 256 0) = some [97, 10] := by
  have hdir : Directory oneFile 0 [(fileName, 4)] := ⟨by decide, ⟨by decide, by decide, by decide⟩, by decide⟩
  refine (@readdir_complete 0 0 [(fileName, 4)] (fdTableAdd (fdTableCreate 1 (by decide))
    ⟨.dir 0, 0, true, fdAccessRead⟩).1 ⟨.dir 0, 0, true, fdAccessRead⟩
    [⟨oneFile, .replicate 256 0⟩, ⟨oneFile, .replicate 256 0⟩] rfl rfl rfl rfl (by decide) rfl ?_).2.2
    [oneFile, oneFile] (.replicate 256 0) (by decide) ?_ List.length_replicate
  · intro call hcall
    rcases List.mem_pair.mp hcall with rfl | rfl
    · exact ⟨hdir, List.length_replicate.ge⟩
    · exact ⟨hdir, List.length_replicate.ge⟩
  · exact List.forall_mem_cons.mpr ⟨hdir, List.forall_mem_singleton.mpr hdir⟩

end Eedox.DirectoryListing
