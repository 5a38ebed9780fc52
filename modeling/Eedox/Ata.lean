import Eedox.Library.Bytes

namespace Eedox.Ata

open Library.Bytes

abbrev Disk := ℕ → ℕ → UInt8

/-- The drive is given 28 bits of the sector number. -/
def lba (sector : ℕ) : ℕ := sector % 2 ^ 28

def ataRead (d : Disk) (sector : ℕ) : ℕ → UInt8 := d (lba sector)

def ataWrite (d : Disk) (sector : ℕ) (buffer : ℕ → UInt8) : Disk := fun s o =>
  if s = lba sector ∧ o < 512 then buffer o else d s o

def readSectors (d : Disk) (secFrom : ℕ) (blocks : ℕ → UInt8) : (count : ℕ) → ℕ → UInt8
  | 0 => blocks
  | i + 1 => blit (readSectors d secFrom blocks i) (i * 512) (ataRead d (secFrom + i)) 512

def writeSectors (d : Disk) (secFrom : ℕ) (blocks : ℕ → UInt8) : (count : ℕ) → Disk
  | 0 => d
  | i + 1 =>
    ataWrite (writeSectors d secFrom blocks i) (secFrom + i) (fun o => blocks (i * 512 + o))

def copySectors (d : Disk) (src dst : ℕ) : (count : ℕ) → Disk
  | 0 => d
  | i + 1 =>
    ataWrite (copySectors d src dst i) (dst + i) (ataRead (copySectors d src dst i) (src + i))

theorem lba_of_lt {sector : ℕ} (h : sector < 2 ^ 28) : lba sector = sector := Nat.mod_eq_of_lt h

theorem ataWrite_self {d : Disk} {sector o : ℕ} {buffer : ℕ → UInt8} (hs : sector < 2 ^ 28)
    (ho : o < 512) : ataWrite d sector buffer sector o = buffer o := by
  rw [ataWrite, lba_of_lt hs, if_pos ⟨rfl, ho⟩]

theorem ataWrite_other {d : Disk} {sector s : ℕ} {buffer : ℕ → UInt8} (h : s ≠ lba sector) :
    ataWrite d sector buffer s = d s := by
  funext o
  exact if_neg fun hc => h hc.1

theorem readSectors_inside {d : Disk} {secFrom n k : ℕ} {blocks : ℕ → UInt8}
    (hn : secFrom + n ≤ 2 ^ 28) (hk : k < n * 512) :
    readSectors d secFrom blocks n k = d (secFrom + k / 512) (k % 512) := by
  induction n with
  | zero => omega
  | succ n ih =>
    rw [readSectors]
    by_cases h : k < n * 512
    · rw [blit_outside (Or.inl h), ih (by omega) h]
    · rw [blit_inside (by omega) (by omega), ataRead, lba_of_lt (by omega)]
      have hq : k / 512 = n := by omega
      have hm : k - n * 512 = k % 512 := by omega
      rw [hq, hm]

theorem writeSectors_inside {d : Disk} {secFrom n s o : ℕ} {blocks : ℕ → UInt8}
    (hn : secFrom + n ≤ 2 ^ 28) (hs : secFrom ≤ s) (hs' : s < secFrom + n) (ho : o < 512) :
    writeSectors d secFrom blocks n s o = blocks ((s - secFrom) * 512 + o) := by
  induction n with
  | zero => omega
  | succ n ih =>
    rw [writeSectors]
    by_cases h : s = secFrom + n
    · subst h
      rw [ataWrite_self (by omega) ho, Nat.add_sub_cancel_left]
    · rw [ataWrite_other (by rw [lba_of_lt (by omega)]; exact h), ih (by omega) (by omega)]

theorem writeSectors_outside {d : Disk} {secFrom n s : ℕ} {blocks : ℕ → UInt8}
    (hn : secFrom + n ≤ 2 ^ 28) (hs : s < secFrom ∨ secFrom + n ≤ s) :
    writeSectors d secFrom blocks n s = d s := by
  induction n with
  | zero => rfl
  | succ n ih =>
    rw [writeSectors, ataWrite_other (by rw [lba_of_lt (by omega)]; omega), ih (by omega) (by omega)]

theorem copySectors_outside {d : Disk} {src dst n s : ℕ} (hn : dst + n ≤ 2 ^ 28)
    (hs : s < dst ∨ dst + n ≤ s) : copySectors d src dst n s = d s := by
  induction n with
  | zero => rfl
  | succ n ih =>
    rw [copySectors, ataWrite_other (by rw [lba_of_lt (by omega)]; omega), ih (by omega) (by omega)]

theorem copySectors_inside {d : Disk} {src dst n i o : ℕ} (hsrc : src + n ≤ dst)
    (hdst : dst + n ≤ 2 ^ 28) (hi : i < n) (ho : o < 512) :
    copySectors d src dst n (dst + i) o = d (src + i) o := by
  induction n with
  | zero => omega
  | succ n ih =>
    rw [copySectors]
    by_cases h : i = n
    · subst h
      rw [ataWrite_self (by omega) ho, ataRead, lba_of_lt (by omega),
        copySectors_outside (by omega) (by omega)]
    · rw [ataWrite_other (by rw [lba_of_lt (by omega)]; omega),
        ih (by omega) (by omega) (by omega)]

end Eedox.Ata
