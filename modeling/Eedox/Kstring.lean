import Eedox.Fs.TableBuffer

namespace Eedox.Kstring

open Util Library.Bytes
open Fs.TableBuffer (strlenIn strlenIn_terminated store store_stale memcpyUp)

/-- The buffer is the whole block from the heap: the characters, their end, and stale bytes. -/
structure KstringT where
  buffer : List UInt8
  size : ℕ
  cap : ℕ

section model

-- What a new block of memory holds.
variable (junk : ℕ → UInt8)

def strcpy (dest : List UInt8) (k : ℕ) (src : List UInt8) : Option (List UInt8) :=
  (strlenIn src).bind fun len => store dest k (src.take len)

def kstringAlloc (size : ℕ) : List UInt8 := slice junk 0 (size + 1)

def kstringNewS (size : ℕ) : Option KstringT :=
  (store (kstringAlloc junk size) 0 [0]).map fun buffer => ⟨buffer, 0, size⟩

def kstringNew : Option KstringT := kstringNewS junk 4

def kstringResize (kstr : KstringT) (size : ℕ) : Option KstringT :=
  if size ≥ kstr.size ∧ size ≠ 0 then
    (strcpy (kstringAlloc junk size) 0 kstr.buffer).bind fun newbuffer =>
      (store newbuffer kstr.size [0]).map fun newbuffer => ⟨newbuffer, kstr.size, size⟩
  else some kstr

def kstringPush (kstr : KstringT) (c : UInt8) : Option KstringT :=
  (if kstr.size = kstr.cap then kstringResize junk kstr (kstr.cap * 2) else some kstr).bind fun kstr =>
    (store kstr.buffer kstr.size [c]).bind fun buffer =>
      (store buffer (kstr.size + 1) [0]).map fun buffer => ⟨buffer, kstr.size + 1, kstr.cap⟩

/-- The loop that doubles the capacity; it does not end when that is 0. -/
def doubled (newCap newSize : ℕ) : Option ℕ :=
  if newSize > newCap then if newCap = 0 then none else doubled (newCap * 2) newSize
  else some newCap
termination_by newSize - newCap

def kstringAppend (kstr : KstringT) (str : List UInt8) : Option KstringT :=
  (strlenIn str).bind fun strSize =>
    let newSize := kstr.size + strSize
    (if newSize > kstr.cap then (doubled kstr.cap newSize).bind (kstringResize junk kstr)
      else some kstr).bind fun kstr =>
      (strcpy kstr.buffer kstr.size str).bind fun buffer =>
        (store buffer newSize [0]).map fun buffer => ⟨buffer, newSize, kstr.cap⟩

def kstringFit (kstr : KstringT) : Option KstringT := kstringResize junk kstr kstr.size

def kstringClear (kstr : KstringT) : Option KstringT :=
  (store kstr.buffer 0 [0]).map fun buffer => ⟨buffer, 0, kstr.cap⟩

def kstringErase (kstr : KstringT) (pos len : ℕ) : Option KstringT :=
  if pos + len ≥ kstr.size then
    if pos < kstr.size then (store kstr.buffer pos [0]).map fun buffer => ⟨buffer, pos, kstr.cap⟩
    else some kstr
  else
    (memcpyUp kstr.buffer pos (pos + len) (kstr.size - pos - len)).bind fun buffer =>
      (store buffer (kstr.size - len) [0]).map fun buffer => ⟨buffer, kstr.size - len, kstr.cap⟩

end model

/-- The string holds these characters, with room for their end. -/
structure Holds (kstr : KstringT) (cs : List UInt8) : Prop where
  size : kstr.size = cs.length
  nul : 0 ∉ cs
  fits : cs.length ≤ kstr.cap
  positive : 0 < kstr.cap
  room : kstr.buffer.length = kstr.cap + 1
  bytes : ∃ stale, kstr.buffer = cs ++ 0 :: stale

variable {junk : ℕ → UInt8} {kstr : KstringT} {cs ds : List UInt8} {c : UInt8}

theorem Holds.text (h : Holds kstr cs) : text kstr.buffer = cs := by
  obtain ⟨stale, hbytes⟩ := h.bytes
  rw [hbytes, text_terminated h.nul]

/-- The store of an end mark behind the characters. -/
theorem store_end {stale : List UInt8} (hlen : 0 < stale.length) :
    store (cs ++ stale) cs.length [0] = some (cs ++ 0 :: stale.drop 1) := by
  rw [store_stale cs (by rw [List.length_singleton]; omega), List.append_assoc]
  rfl

theorem strcpy_stale {pre stale : List UInt8} (hd : 0 ∉ ds) (tail : List UInt8)
    (hlen : ds.length ≤ stale.length) :
    strcpy (pre ++ stale) pre.length (ds ++ 0 :: tail) = some (pre ++ ds ++ stale.drop ds.length) := by
  rw [strcpy, strlenIn_terminated hd, Option.bind_some, List.take_left, store_stale pre hlen]

theorem holds_new (junk : ℕ → UInt8) : ∃ kstr, kstringNew junk = some kstr ∧ Holds kstr [] := by
  have hstore := @store_end [] (kstringAlloc junk 4) (by simp [kstringAlloc])
  refine ⟨⟨0 :: (kstringAlloc junk 4).drop 1, 0, 4⟩, ?_, ?_⟩
  · rw [kstringNew, kstringNewS]
    exact congrArg (Option.map fun buffer => (⟨buffer, 0, 4⟩ : KstringT)) hstore
  · exact ⟨rfl, List.not_mem_nil, Nat.zero_le 4, Nat.succ_pos 3, by simp [kstringAlloc], _, rfl⟩

theorem holds_resize {size : ℕ} (junk : ℕ → UInt8) (h : Holds kstr cs) (hsize : cs.length ≤ size)
    (hpos : 0 < size) : ∃ k', kstringResize junk kstr size = some k' ∧ Holds k' cs ∧ k'.cap = size := by
  obtain ⟨stale, hbytes⟩ := h.bytes
  have halloc : (kstringAlloc junk size).length = size + 1 := length_slice _ _ _
  have hcopy := @strcpy_stale _ [] (kstringAlloc junk size) h.nul stale (by omega)
  have hend := @store_end cs ((kstringAlloc junk size).drop cs.length) (by rw [List.length_drop]; omega)
  refine ⟨⟨cs ++ 0 :: ((kstringAlloc junk size).drop cs.length).drop 1, cs.length, size⟩, ?_, ?_, rfl⟩
  · rw [kstringResize, h.size, if_pos (And.intro hsize (by omega)), hbytes]
    rw [List.nil_append, List.length_nil, List.nil_append] at hcopy
    rw [hcopy, Option.bind_some, hend, Option.map_some]
  · refine ⟨rfl, h.nul, hsize, hpos, ?_, _, rfl⟩
    simp only [List.length_append, List.length_cons, List.length_drop, halloc]
    omega

theorem holds_fit (junk : ℕ → UInt8) (h : Holds kstr cs) :
    ∃ k', kstringFit junk kstr = some k' ∧ Holds k' cs := by
  unfold kstringFit
  by_cases hpos : 0 < cs.length
  · rw [h.size]
    obtain ⟨k', hresize, hk', -⟩ := holds_resize junk h le_rfl hpos
    exact ⟨k', hresize, hk'⟩
  · refine ⟨kstr, ?_, h⟩
    rw [kstringResize, h.size, if_neg (by omega)]

theorem holds_clear (h : Holds kstr cs) : ∃ k', kstringClear kstr = some k' ∧ Holds k' [] := by
  have hroom := h.room
  have hend := @store_end [] kstr.buffer (by omega)
  refine ⟨⟨0 :: kstr.buffer.drop 1, 0, kstr.cap⟩, ?_, ?_⟩
  · rw [kstringClear]
    exact congrArg (Option.map fun buffer => (⟨buffer, 0, kstr.cap⟩ : KstringT)) hend
  · refine ⟨rfl, List.not_mem_nil, Nat.zero_le _, h.positive, ?_, _, rfl⟩
    rw [List.length_cons, List.length_drop, hroom]
    rfl

/-- The two stores of a push, when there is room. -/
theorem holds_write (h : Holds kstr cs) (hc : c ≠ 0) (hlt : cs.length < kstr.cap) :
    ∃ buffer, ((store kstr.buffer kstr.size [c]).bind fun buffer => store buffer (kstr.size + 1) [0]) =
        some buffer ∧ Holds ⟨buffer, kstr.size + 1, kstr.cap⟩ (cs ++ [c]) := by
  obtain ⟨stale, hbytes⟩ := h.bytes
  have hroom := h.room
  rw [hbytes, List.length_append, List.length_cons] at hroom
  have hchar := @store_stale cs (0 :: stale) [c] (by simp)
  have hend := @store_end (cs ++ [c]) stale (by omega)
  rw [List.length_append, List.length_singleton] at hend
  refine ⟨cs ++ [c] ++ 0 :: stale.drop 1, ?_, ?_⟩
  · rw [h.size, hbytes, hchar, Option.bind_some]
    exact hend
  · refine ⟨by simp [h.size], ?_, by rw [List.length_append]; exact hlt, h.positive, ?_, _, rfl⟩
    · rw [List.mem_append, List.mem_singleton, not_or]
      exact ⟨h.nul, Ne.symm hc⟩
    · simp only [List.length_append, List.length_cons, List.length_drop, List.length_nil]
      omega

theorem holds_push (junk : ℕ → UInt8) (h : Holds kstr cs) (hc : c ≠ 0) :
    ∃ k', kstringPush junk kstr c = some k' ∧ Holds k' (cs ++ [c]) := by
  have hgrown : ∃ k', (if kstr.size = kstr.cap then kstringResize junk kstr (kstr.cap * 2) else some kstr) =
      some k' ∧ Holds k' cs ∧ cs.length < k'.cap := by
    have hfits := h.fits
    have hpos := h.positive
    by_cases hfull : kstr.size = kstr.cap
    · obtain ⟨k', hresize, hk', hcap⟩ := @holds_resize kstr cs (kstr.cap * 2) junk h (by omega) (by omega)
      rw [if_pos hfull]
      exact ⟨k', hresize, hk', by omega⟩
    · rw [if_neg hfull]
      rw [h.size] at hfull
      exact ⟨kstr, rfl, h, by omega⟩
  obtain ⟨k', hk', hheld, hlt⟩ := hgrown
  obtain ⟨buffer, hstores, hdone⟩ := holds_write hheld hc hlt
  refine ⟨_, ?_, hdone⟩
  obtain ⟨buffer', hchar, hend⟩ := Option.bind_eq_some_iff.mp hstores
  rw [kstringPush, hk', Option.bind_some, hchar, Option.bind_some, hend, Option.map_some]

theorem doubled_spec {newCap newSize : ℕ} (hpos : 0 < newCap) :
    ∃ cap, doubled newCap newSize = some cap ∧ newSize ≤ cap ∧ newCap ≤ cap := by
  induction newCap using doubled.induct newSize with
  | case1 hlt => omega
  | case2 newCap hlt hne ih =>
    obtain ⟨cap, hcap, hsize, hle⟩ := ih (by omega)
    refine ⟨cap, ?_, hsize, by omega⟩
    rw [doubled, if_pos hlt, if_neg hne, hcap]
  | case3 newCap hle =>
    refine ⟨newCap, ?_, by omega, le_rfl⟩
    rw [doubled, if_neg hle]

theorem holds_append (junk : ℕ → UInt8) (h : Holds kstr cs) (hd : 0 ∉ ds) (tail : List UInt8) :
    ∃ k', kstringAppend junk kstr (ds ++ 0 :: tail) = some k' ∧ Holds k' (cs ++ ds) := by
  have hgrown : ∃ k', (if kstr.size + ds.length > kstr.cap then
      (doubled kstr.cap (kstr.size + ds.length)).bind (kstringResize junk kstr) else some kstr) = some k' ∧
      Holds k' cs ∧ cs.length + ds.length ≤ k'.cap := by
    have hsize := h.size
    by_cases hlt : kstr.size + ds.length > kstr.cap
    · obtain ⟨cap, hcap, hle, hge⟩ := @doubled_spec kstr.cap (kstr.size + ds.length) h.positive
      have hpos := h.positive
      obtain ⟨k', hresize, hk', hk'cap⟩ := @holds_resize kstr cs cap junk h (by omega) (by omega)
      rw [if_pos hlt, hcap]
      exact ⟨k', hresize, hk', by omega⟩
    · rw [if_neg hlt]
      exact ⟨kstr, rfl, h, by omega⟩
  obtain ⟨k', hk', hheld, hle⟩ := hgrown
  obtain ⟨stale, hbytes⟩ := hheld.bytes
  have hroom := hheld.room
  rw [hbytes, List.length_append, List.length_cons] at hroom
  have hcopy := @strcpy_stale _ cs (0 :: stale) hd tail (by rw [List.length_cons]; omega)
  have hend := @store_end (cs ++ ds) ((0 :: stale).drop ds.length)
    (by rw [List.length_drop, List.length_cons]; omega)
  refine ⟨⟨cs ++ ds ++ 0 :: ((0 :: stale).drop ds.length).drop 1, kstr.size + ds.length, k'.cap⟩, ?_, ?_⟩
  · rw [kstringAppend, strlenIn_terminated hd, Option.bind_some]
    simp only
    rw [hk', Option.bind_some, hheld.size, hbytes, hcopy, Option.bind_some, h.size, ← List.length_append, hend,
      Option.map_some]
  · refine ⟨by simp [h.size], ?_, by simpa using hle, hheld.positive, ?_, _, rfl⟩
    · rw [List.mem_append, not_or]
      exact ⟨h.nul, hd⟩
    · simp only [List.length_append, List.length_cons, List.length_drop]
      omega

theorem holds_erase_last (h : Holds kstr cs) (hne : cs ≠ []) :
    ∃ k', kstringErase kstr (kstr.size - 1) 1 = some k' ∧ Holds k' cs.dropLast := by
  obtain ⟨stale, hbytes⟩ := h.bytes
  have hsize := h.size
  have hpos := List.length_pos_iff.mpr hne
  have hlast : cs.dropLast ++ (cs.getLast hne :: 0 :: stale) = kstr.buffer := by
    rw [hbytes, ← List.singleton_append, ← List.append_assoc, List.dropLast_append_getLast hne]
  have hend := @store_end cs.dropLast (cs.getLast hne :: 0 :: stale) (by simp)
  rw [List.length_dropLast, hlast] at hend
  have hroom := h.room
  rw [hbytes, List.length_append, List.length_cons] at hroom
  have hfits := h.fits
  refine ⟨⟨cs.dropLast ++ 0 :: (cs.getLast hne :: 0 :: stale).drop 1, cs.length - 1, kstr.cap⟩, ?_, ?_⟩
  · rw [kstringErase, if_pos (by omega), if_pos (by omega), hsize, hend, Option.map_some]
  · refine ⟨by simp, fun hm => h.nul (List.dropLast_subset _ hm), by simp only [List.length_dropLast]; omega,
      h.positive, ?_, _, rfl⟩
    simp only [List.length_append, List.length_dropLast, List.length_cons, List.drop_succ_cons, List.drop_zero]
    omega

/-- What is kept whatever the characters are: the end is where the size says. -/
structure Sized (kstr : KstringT) : Prop where
  fits : kstr.size ≤ kstr.cap
  positive : 0 < kstr.cap
  room : kstr.buffer.length = kstr.cap + 1
  ended : kstr.buffer[kstr.size]? = some 0

theorem Holds.sized (h : Holds kstr cs) : Sized kstr := by
  obtain ⟨stale, hbytes⟩ := h.bytes
  refine ⟨h.size.trans_le h.fits, h.positive, h.room, ?_⟩
  rw [h.size, hbytes, List.getElem?_append_right le_rfl, Nat.sub_self, List.getElem?_cons_zero]

theorem strlenIn_of_zero {str : List UInt8} {i : ℕ} (h : str[i]? = some 0) :
    ∃ n, strlenIn str = some n ∧ n ≤ i := by
  induction str generalizing i with
  | nil => simp at h
  | cons c str ih =>
    rw [strlenIn]
    by_cases hc : c = 0
    · exact ⟨0, if_pos hc, Nat.zero_le i⟩
    · cases i with
      | zero => exact absurd (Option.some.inj h) hc
      | succ i =>
        obtain ⟨n, hn, hle⟩ := ih h
        refine ⟨n + 1, ?_, by omega⟩
        rw [if_neg hc, hn, Option.map_some]

theorem store_one {buffer : List UInt8} {k : ℕ} (hk : k < buffer.length) (c : UInt8) :
    ∃ b', store buffer k [c] = some b' ∧ b'.length = buffer.length ∧ b'[k]? = some c := by
  have hlen : (overlay buffer k [c]).length = buffer.length := by
    rw [length_overlay hk.le, List.length_singleton]
    omega
  refine ⟨overlay buffer k [c], if_pos (by rw [List.length_singleton]; omega), hlen, ?_⟩
  have htake : (buffer.take k).length = k := List.length_take_of_le hk.le
  rw [overlay, List.getElem?_append_right (by omega), htake, Nat.sub_self]
  rfl

theorem sized_resize {size : ℕ} (junk : ℕ → UInt8) (h : Sized kstr) (hsize : kstr.size ≤ size)
    (hpos : 0 < size) :
    ∃ k', kstringResize junk kstr size = some k' ∧ Sized k' ∧ k'.cap = size ∧ k'.size = kstr.size := by
  obtain ⟨n, hn, hle⟩ := strlenIn_of_zero h.ended
  have halloc : (kstringAlloc junk size).length = size + 1 := length_slice _ _ _
  have hroom := h.room
  have hfits := h.fits
  have htake : (kstr.buffer.take n).length = n := List.length_take_of_le (by omega)
  have hcopy : store (kstringAlloc junk size) 0 (kstr.buffer.take n) =
      some (overlay (kstringAlloc junk size) 0 (kstr.buffer.take n)) := if_pos (by omega)
  have hlen : (overlay (kstringAlloc junk size) 0 (kstr.buffer.take n)).length = size + 1 := by
    rw [length_overlay (Nat.zero_le _)]
    omega
  obtain ⟨b', hstore, hlen', hget⟩ := @store_one _ kstr.size (by rw [hlen]; omega) 0
  refine ⟨⟨b', kstr.size, size⟩, ?_, ⟨hsize, hpos, hlen'.trans hlen, hget⟩, rfl, rfl⟩
  rw [kstringResize, if_pos (And.intro hsize (by omega)), strcpy, hn, Option.bind_some, hcopy,
    Option.bind_some, hstore, Option.map_some]

theorem sized_push (junk : ℕ → UInt8) (h : Sized kstr) (c : UInt8) :
    ∃ k', kstringPush junk kstr c = some k' ∧ Sized k' ∧ k'.size = kstr.size + 1 := by
  have hgrown : ∃ k', (if kstr.size = kstr.cap then kstringResize junk kstr (kstr.cap * 2) else some kstr) =
      some k' ∧ Sized k' ∧ k'.size < k'.cap ∧ k'.size = kstr.size := by
    have hfits := h.fits
    have hpos := h.positive
    by_cases hfull : kstr.size = kstr.cap
    · obtain ⟨k', hresize, hk', hcap, hsize⟩ := @sized_resize kstr (kstr.cap * 2) junk h (by omega) (by omega)
      rw [if_pos hfull]
      exact ⟨k', hresize, hk', by omega, hsize⟩
    · rw [if_neg hfull]
      exact ⟨kstr, rfl, h, by omega, rfl⟩
  obtain ⟨k', hk', hsized, hlt, hsize⟩ := hgrown
  have hroom := hsized.room
  obtain ⟨b1, hb1, hlen1, -⟩ := @store_one k'.buffer k'.size (by omega) c
  obtain ⟨b2, hb2, hlen2, hget⟩ := @store_one b1 (k'.size + 1) (by omega) 0
  refine ⟨⟨b2, k'.size + 1, k'.cap⟩, ?_, ⟨hlt, hsized.positive, by rw [hlen2, hlen1, hroom], hget⟩, by rw [hsize]⟩
  rw [kstringPush, hk', Option.bind_some, hb1, Option.bind_some, hb2, Option.map_some]

theorem sized_erase_last (h : Sized kstr) (hpos : 0 < kstr.size) :
    ∃ k', kstringErase kstr (kstr.size - 1) 1 = some k' ∧ Sized k' ∧ k'.size + 1 = kstr.size := by
  have hroom := h.room
  have hfits := h.fits
  obtain ⟨b', hstore, hlen, hget⟩ := @store_one kstr.buffer (kstr.size - 1) (by omega) 0
  refine ⟨⟨b', kstr.size - 1, kstr.cap⟩, ?_, ⟨?_, h.positive, hlen.trans hroom, hget⟩, ?_⟩
  · rw [kstringErase, if_pos (by omega), if_pos (by omega), hstore, Option.map_some]
  · simp only
    omega
  · simp only
    omega

end Eedox.Kstring
