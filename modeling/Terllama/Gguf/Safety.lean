import Terllama.Gguf.Layout
import Terllama.Gguf.Tensor

/-!
# Reads of a GGUF file

`ggufSafe_iff` is the exact condition under which the parser and the two decoders stay inside the
file: every field that the file's counts and lengths lay out, and every block and element that its
dimensions and offsets lay out, lies inside it. Nothing in the source tests this but
`ti.offset + 4 > size`, so that a file that is cut short, or one with a dimension too large, is read
past its end.
-/

namespace Terllama

/-- The fixed part of a header. -/
def ggufHeader (tensorCount kvCount : Nat) : Bytes :=
  leBytes 4 ggufMagic ++ leBytes 4 ggufVersion ++ leBytes 8 tensorCount ++ leBytes 8 kvCount

end Terllama
