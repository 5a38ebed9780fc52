import Eedox.Descriptor

namespace Eedox.Mq

open Util Pipe Descriptor

structure QueueEntry where
  name : Str
  pipe : ℕ

abbrev Mqlist := List QueueEntry

/-- The pipe of the list with the given name; a dead one starts again, a live one has one more end of
either kind. -/
def reopenPipe (o : Objects) (entPipe : ℕ) : Objects :=
  let pipe := o.pipes entPipe
  setPipe o entPipe
    (if pipe.dead then pipeNew
    else { pipe with readerCount := pipe.readerCount + 1, writerCount := pipe.writerCount + 1 })

/-- The objects, the list and the pipe returned. A new name takes the first entry whose pipe is dead,
and the old pipe of the entry stays allocated. -/
def mqlistOpen (o : Objects) (list : Mqlist) (name : Str) : Objects × Mqlist × ℕ :=
  match list.find? fun entry => strcmp entry.name.chars name.chars = 0 with
  | some entry => (reopenPipe o entry.pipe, list, entry.pipe)
  | none =>
    let freeIndex := list.findIdx fun entry => (o.pipes entry.pipe).dead
    let pipe := o.nextPipe
    let o := allocPipe o true
    if freeIndex = list.length then (o, list ++ [⟨name, pipe⟩], pipe)
    else (o, list.set freeIndex ⟨name, pipe⟩, pipe)

end Eedox.Mq
