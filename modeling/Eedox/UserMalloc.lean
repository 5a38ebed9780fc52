import Eedox.UserHeapAgree

namespace Eedox.UserMalloc

open Library.Bytes Library.Words Library.Blocks Library.DoublyLinked UserHeap UserHeapShape
open UserHeapTiling UserHeapSteps UserHeapCalls UserHeapSearch UserHeapRuns UserRealloc UserHeapAgree

/-- The heap, `heap_size`, and how many bytes `sbrk` has handed out since `startup`. -/
structure Stdlib where
  heap : Heap
  heapSize : ℕ
  obtained : ℕ

/-- `sbrk(heap_size)`, where there is memory left. -/
def sbrk (s : Stdlib) : Stdlib := { s with obtained := s.obtained + s.heapSize }

def double (s : Stdlib) : Stdlib := { s with heapSize := s.heapSize * 2 % 2 ^ 32 }

/-- The loop of `malloc` and of `realloc` up to the call after `turns` turns, with what that call returned. -/
def retry (attempt : Stdlib → Option (Stdlib × ℕ)) (more : Stdlib → Stdlib) (size : ℕ) :
    ℕ → Stdlib → Option (Stdlib × ℕ)
  | 0, s => attempt s
  | turns + 1, s => (attempt s).bind fun (s, ptr) =>
      if size ≠ 0 ∧ ptr = 0 then retry attempt more size turns (more s) else none

def mallocAttempt (size : ℕ) (s : Stdlib) : Option (Stdlib × ℕ) :=
  (heapAlloc s.heap size 4).map fun r => ({ s with heap := r.1 }, r.2)

def mallocMore (s : Stdlib) : Stdlib :=
  let s := sbrk s
  let s := { s with heap := heapExpand s.heap s.heapSize }
  double s

def malloc (size : ℕ) : ℕ → Stdlib → Option (Stdlib × ℕ) := retry (mallocAttempt size) mallocMore size

def reallocAttempt (fuel pointer size : ℕ) (s : Stdlib) : Option (Stdlib × ℕ) :=
  (heapRealloc fuel s.heap pointer size 4).map fun r => ({ s with heap := r.1 }, r.2)

def reallocMore (s : Stdlib) : Stdlib := double (sbrk s)

/-- `fuel` is for each call of `heap_realloc`. -/
def realloc (fuel pointer size : ℕ) : ℕ → Stdlib → Option (Stdlib × ℕ) :=
  retry (reallocAttempt fuel pointer size) reallocMore size

/-- `turns` calls of `sbrk` fit into the address space, `heap_size` does not wrap around in them, and they
bring enough for a new block. -/
def Enough (s : Stdlib) (size turns : ℕ) : Prop :=
  s.heapSize * 2 ^ turns < 2 ^ 32 ∧
    s.heap.root + (s.heap.size + s.heapSize * (2 ^ turns - 1)) < 2 ^ 32 ∧
    s.heap.brk + (headerSize + alignment size 4) ≤ s.heap.size + s.heapSize * (2 ^ turns - 1)

/-- The user-heap invariants. -/
def WellFormed (h : Heap) : Prop := ∃ bs free, Shaped h bs free

/-- A block that is handed out. -/
def Live (h : Heap) (p : ℕ) : Prop :=
  ∃ a, p = a + headerSize ∧ IsHeader h a ∧ (header h.mem a).used ≠ 0

/-- The unused headers that follow bring the block up to the size, or a used one stops them and there is room
for a new block. -/
def Fits (h : Heap) (p size : ℕ) : Prop :=
  (∃ fuel m, absorbFrom fuel h.mem (p - headerSize) (alignment size 4) = some (m, true)) ∨
    ((∃ fuel m, absorbFrom fuel h.mem (p - headerSize) (alignment size 4) = some (m, false)) ∧
      headerSize + alignment size 4 ≤ heapRoom h)

section Sizes

variable {h h' : Heap} {size block best a r : ℕ}

end Sizes

section Malloc

variable {s : Stdlib} {bs : List Block} {free : List ℕ} {n k : ℕ}

theorem Enough.more {h : Heap} (he : Enough s n (k + 1)) (hroot : h.root = s.heap.root)
    (hsize : h.size = s.heap.size) (hbrk : h.brk = s.heap.brk) :
    h.root + h.size + s.heapSize < 2 ^ 32 ∧ Enough (mallocMore { s with heap := h }) n k := by
  obtain ⟨hdouble, hword, hroom⟩ := he
  have hpos : s.heapSize * 1 ≤ s.heapSize * 2 ^ k := Nat.mul_le_mul_left _ Nat.one_le_two_pow
  have h1 : s.heapSize * 2 ^ (k + 1) = 2 * (s.heapSize * 2 ^ k) := by
    rw [Nat.pow_succ, ← Nat.mul_assoc, Nat.mul_comm]
  have h2 : s.heapSize * (2 ^ (k + 1) - 1) = 2 * (s.heapSize * 2 ^ k) - s.heapSize := by
    rw [Nat.mul_sub, h1, Nat.mul_one]
  have h3 : s.heapSize * 2 * (2 ^ k - 1) = 2 * (s.heapSize * 2 ^ k) - 2 * s.heapSize := by
    rw [Nat.mul_sub, Nat.mul_right_comm, Nat.mul_one]
    omega
  rw [h1] at hdouble
  rw [h2] at hword hroom
  have htwice : s.heapSize * 2 % 2 ^ 32 = s.heapSize * 2 := Nat.mod_eq_of_lt (by omega)
  have hgrown : add32 h.size s.heapSize = h.size + s.heapSize := add32_of_lt (by omega)
  refine ⟨by omega, ?_, ?_, ?_⟩
  · change s.heapSize * 2 % 2 ^ 32 * 2 ^ k < 2 ^ 32
    rw [htwice]
    rw [Nat.mul_right_comm]
    omega
  · change h.root + (add32 h.size s.heapSize + s.heapSize * 2 % 2 ^ 32 * (2 ^ k - 1)) < 2 ^ 32
    rw [htwice, hgrown, h3]
    omega
  · change h.brk + (headerSize + alignment n 4) ≤ add32 h.size s.heapSize + s.heapSize * 2 % 2 ^ 32 * (2 ^ k - 1)
    rw [htwice, hgrown, h3]
    omega

end Malloc

section Realloc

variable {h : Heap} {bs : List Block} {free : List ℕ} {p n k : ℕ}

end Realloc

end Eedox.UserMalloc
