import Eedox.Fs.Files
import Eedox.Image.Agreement

namespace Eedox.Image

open Util Library.Bytes Ata Pathbuf Fs

def Item.shown : Item → Fs.Node
  | .file content => .file content
  | .dir _ => .dir

variable {P : Str → Prop} {tree : Children} {path : List Str}

end Eedox.Image
