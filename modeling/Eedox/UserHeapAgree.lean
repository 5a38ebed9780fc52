import Eedox.UserRealloc

namespace Eedox.UserHeapAgree

open Library.Bytes Library.Words Library.Blocks Library.DoublyLinked UserHeap UserHeapShape
open UserHeapTiling UserHeapSteps UserHeapCalls UserHeapSearch UserHeapRuns

/-- The two differ only in the size field at `a`. -/
def Same (a : ℕ) (m m' : Mem) : Prop := ∀ x, x < a ∨ a + 4 ≤ x → m' x = m x

structure Agree (a : ℕ) (h h' : Heap) : Prop where
  root : h'.root = h.root
  size : h'.size = h.size
  brk : h'.brk = h.brk
  free : h'.free = h.free
  mem : Same a h.mem h'.mem

section Memory

variable {a x k v : ℕ} {m m' : Mem} {h h' : Heap}

theorem Same.put (hm : Same a m m') : Same a (putWord m k v) (putWord m' k v) := by
  intro y hy
  unfold putWord
  split_ifs
  · rfl
  · exact hm y hy

theorem Same.header_eq (hm : Same a m m') (hx : x + 16 ≤ a ∨ a + 16 ≤ x) : header m' x = header m x :=
  header_congr fun y _ _ => hm y (by omega)

theorem Same.size_eq (hm : Same a m m') (hx : x + 4 ≤ a ∨ a + 4 ≤ x) : (header m' x).size = (header m x).size :=
  wordAt_congr fun y _ _ => hm y (by omega)

theorem Same.used_eq (hm : Same a m m') (hx : Clear a x) : (header m' x).used = (header m x).used :=
  congrArg UInt8.toNat (hm (x + 4) (by unfold Clear at hx; omega))

end Memory

section Turns

variable {a k size best : ℕ} {h h' : Heap} {bs ds : List Block} {b : Block} {free : List ℕ}

end Turns

section Search

variable {a k size block best : ℕ} {lost : Bool} {h₀ h h' : Heap} {bs₀ bs : List Block} {seen rest : List ℕ}

end Search

end Eedox.UserHeapAgree
