import PairScript.Eval.Heap
import PairScript.Value.Text

/-!
# The text of a frame

A frame is shown by the names it binds, in increasing order, and by whether it has a parent.
-/

namespace PairScript

/-- The text of a frame. -/
def Frame.text (f : Frame) : String :=
  "Env \x7b bindings: [" ++ Value.commaList (f.bindings.names.map Text.quoted)
    ++ "], has_parent: " ++ Value.boolText f.parent.isSome ++ " \x7d"

/-- The text of a frame of a heap. -/
def Heap.frameText? (h : Heap) (id : FrameId) : Option String := (h.frames[id]?).map Frame.text

end PairScript
