import Eedox.Util
import Eedox.Semaphore

namespace Eedox.Pipe

open Util Semaphore

/-- `pipe_t`; the queue holds the message buffers, each with its terminator. -/
structure PipeT (T : Type) where
  list : List (List UInt8)
  readerCount : ℕ
  writerCount : ℕ
  dead : Bool
  lock : Ksemaphore T

variable {T : Type}

def pipeNew : PipeT T := ⟨[], 1, 1, false, ksemaphoreInit 0⟩

def pipeDestroy (pipe : PipeT T) : PipeT T := { pipe with list := [] }

def closeEnd (pipe : PipeT T) : PipeT T × Bool :=
  if pipe.readerCount = 0 ∧ pipe.writerCount = 0 then
    ({ pipeDestroy pipe with dead := true }, true)
  else (pipe, false)

def pipeCloseRd (pipe : PipeT T) : PipeT T × Bool :=
  closeEnd { pipe with readerCount := pipe.readerCount - 1 }

def pipeCloseWr (pipe : PipeT T) : PipeT T × Bool :=
  closeEnd { pipe with writerCount := pipe.writerCount - 1 }

def pipeWrite (pipe : PipeT T) (buffer : List UInt8) : PipeT T × Option T :=
  if pipe.readerCount = 0 then (pipe, none)
  else
    let signal := ksemaphoreSignal pipe.lock
    ({ pipe with list := pipe.list ++ [buffer ++ [0]], lock := signal.1 }, signal.2)

def atEnd (pipe : PipeT T) : Bool := pipe.list.length = 0 && pipe.writerCount = 0

/-- The front message after a read of `len` bytes that leaves `extra` bytes of it. -/
def shift (input : List UInt8) (len extra : ℕ) : List UInt8 :=
  (memcpy input (input.drop len) extra).set extra 0

/-- `pipe_read` below `ksemaphore_wait`: the pipe, the woken task and the bytes returned. Without a
message `kqueue_peek` reads through a null pointer. -/
def pipeReadEnd (pipe : PipeT T) (len : ℕ) : Option (PipeT T × Option T × List UInt8) :=
  match pipe.list with
  | [] => none
  | input :: rest =>
    let inputLen := strlen input
    let count := min len inputLen
    if len < inputLen then
      let signal := ksemaphoreSignal pipe.lock
      some ({ pipe with list := shift input len (inputLen - len) :: rest, lock := signal.1 },
        signal.2, input.take count)
    else some ({ pipe with list := rest }, none, input.take count)

theorem shift_terminated {data : List UInt8} {tail : List UInt8} {len : ℕ} (h : len < data.length) :
    ∃ tail', shift (data ++ 0 :: tail) len (data.length - len) = data.drop len ++ 0 :: tail' := by
  have hd : (data ++ 0 :: tail).drop len = data.drop len ++ 0 :: tail :=
    List.drop_append_of_le_length h.le
  have ht : (data.drop len ++ 0 :: tail).take (data.length - len) = data.drop len := by
    rw [← List.length_drop, List.take_left]
  obtain ⟨c, rest, hrest⟩ : ∃ c rest, (data ++ 0 :: tail).drop (data.length - len) = c :: rest := by
    apply List.exists_cons_of_ne_nil
    intro he
    have := List.drop_eq_nil_iff.mp he
    simp only [List.length_append, List.length_cons] at this
    omega
  refine ⟨rest, ?_⟩
  rw [shift, memcpy, hd, ht, hrest, List.set_append_right _ _ (by simp)]
  simp

end Eedox.Pipe
