import PairScript.Value.Basic

/-!
# Frames of variables

Variables live in frames.  A frame binds names to values and may have a parent; a name means its
binding in the nearest frame, going outward from a given one.

Frames are numbered in the order in which they are made, and a parent is always older than its
child, so a walk outward ends.  Frames are never removed: whoever holds the number of a frame
shares it with everyone else who does.

The heap also remembers which closures have a frame of members, and how many pairs were made.
-/

namespace PairScript

/-! ### Bindings -/

/-- The names of a frame and their values; a name occurs once. -/
abbrev Bindings := List (String × Value)

namespace Bindings

/-- The value of a name. -/
def get? (name : String) (b : Bindings) : Option Value := b.lookup name

/-- Whether a name is bound. -/
def contains (name : String) (b : Bindings) : Bool := b.any (·.1 == name)

/-- Overwrites the value of a bound name. -/
def replace (name : String) (value : Value) : Bindings → Bindings
  | [] => []
  | (n, v) :: rest =>
    if n == name then (name, value) :: rest else (n, v) :: replace name value rest

/-- Binds a name, overwriting a value it may have. -/
def insert (name : String) (value : Value) (b : Bindings) : Bindings :=
  if b.contains name then b.replace name value else (name, value) :: b

/-- Binds names to values one to one, from left to right. -/
def insertAll (b : Bindings) : List String → List Value → Bindings
  | n :: ns, v :: vs => insertAll (b.insert n v) ns vs
  | _, _ => b

/-- The bound names in increasing order. -/
def names (b : Bindings) : List String := (b.map (·.1)).mergeSort (· ≤ ·)

end Bindings

/-! ### Frames and heap -/

/-- One level of scope. -/
structure Frame where
  bindings : Bindings
  parent : Option FrameId

/-- All frames, and what is remembered about closures and pairs. -/
structure Heap where
  frames : Array Frame
  /-- For every closure, the frame of its members, once there is one. -/
  memberFrames : Array (Option FrameId)
  /-- Number of the next pair. -/
  nextCell : CellId

namespace Heap

/-- A heap without frames. -/
def empty : Heap := ⟨#[], #[], 0⟩

/-- Makes a frame. -/
def push (frame : Frame) (h : Heap) : FrameId × Heap :=
  (h.frames.size, { h with frames := h.frames.push frame })

/-- Makes an empty frame without a parent. -/
def root (h : Heap) : FrameId × Heap := h.push ⟨[], none⟩

/-- Makes an empty frame inside another. -/
def child (parent : FrameId) (h : Heap) : FrameId × Heap := h.push ⟨[], some parent⟩

/-- Makes a frame inside another that binds names to values one to one. -/
def bind (parent : FrameId) (names : List String) (values : List Value) (h : Heap) :
    FrameId × Heap :=
  h.push ⟨Bindings.insertAll [] names values, some parent⟩

/-! ### Looking outward -/

/-- The nearest frame that binds a name, looking through at most `n` frames from `id` outward, and
the value there. -/
def resolveWithin (h : Heap) (name : String) : (n : Nat) → FrameId → Option (FrameId × Value)
  | 0, _ => none
  | n + 1, id =>
    match h.frames[id]? with
    | none => none
    | some frame =>
      match frame.bindings.get? name with
      | some value => some (id, value)
      | none =>
        match frame.parent with
        | some parent => h.resolveWithin name n parent
        | none => none

/-- The nearest frame that binds a name, from `id` outward, and the value there.  Parents have
smaller numbers, so at most `id + 1` frames are on the way. -/
def resolve (h : Heap) (id : FrameId) (name : String) : Option (FrameId × Value) :=
  h.resolveWithin name (id + 1) id

/-- The value of a name, from a frame outward. -/
def lookup (h : Heap) (id : FrameId) (name : String) : Option Value :=
  (h.resolve id name).map (·.2)

/-! ### Changing frames -/

/-- Binds a name in a frame, overwriting a value it may have there. -/
def define (id : FrameId) (name : String) (value : Value) (h : Heap) : Heap :=
  { h with frames := h.frames.modify id fun f => { f with bindings := f.bindings.insert name value } }

/-- Overwrites the nearest binding of a name, and says whether there is one. -/
def assign (id : FrameId) (name : String) (value : Value) (h : Heap) : Bool × Heap :=
  match h.resolve id name with
  | some (owner, _) => (true, h.define owner name value)
  | none => (false, h)

/-! ### Closures and pairs -/

/-- Reserves the number of a new closure. -/
def newClosure (h : Heap) : ClosureId × Heap :=
  (h.memberFrames.size, { h with memberFrames := h.memberFrames.push none })

/-- The frame of the members of a closure, if it has one. -/
def memberFrame? (h : Heap) (id : ClosureId) : Option FrameId := (h.memberFrames[id]?).join

/-- Makes a frame the frame of the members of a closure. -/
def setMemberFrame (id : ClosureId) (frame : FrameId) (h : Heap) : Heap :=
  { h with memberFrames := h.memberFrames.modify id fun _ => some frame }

/-- Makes a pair. -/
def cons (head tail : Value) (h : Heap) : Value × Heap :=
  (.pair h.nextCell head tail, { h with nextCell := h.nextCell + 1 })

/-- Makes a chain of pairs that ends in `tail`. -/
def chain (items : List Value) (tail : Value) (h : Heap) : Value × Heap :=
  (Value.chainOnto h.nextCell tail items.reverse,
    { h with nextCell := h.nextCell + items.length })

/-- Makes a list. -/
def list (items : List Value) (h : Heap) : Value × Heap := h.chain items .empty

/-! ### The root frame -/

/-- The bindings that every program starts with: the constants and the primitives. -/
def standardBindings : Bindings :=
  [("null", .null), ("undefined", .null), ("true", .bool true), ("false", .bool false)]
    ++ Primitive.all.map fun p => (p.name, .primitive p)

/-- Makes a frame with the standard bindings and no parent. -/
def standardRoot (h : Heap) : FrameId × Heap := h.push ⟨standardBindings, none⟩

end Heap

end PairScript
