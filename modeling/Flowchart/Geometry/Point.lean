import Flowchart.Scalar

/-!
Points and sizes of the diagram plane.  The first axis points right, the second
one down.
-/

namespace Flowchart

open Scalar

structure Point (α : Type) where
  x : α
  y : α
deriving DecidableEq, BEq, Repr, Inhabited

namespace Point

variable {α : Type} [Scalar α]

instance : Add (Point α) :=
  ⟨fun left right => ⟨left.x + right.x, left.y + right.y⟩⟩

instance : Sub (Point α) :=
  ⟨fun left right => ⟨left.x - right.x, left.y - right.y⟩⟩

def origin : Point α := ⟨zero, zero⟩

def scale (point : Point α) (factor : α) : Point α :=
  ⟨point.x * factor, point.y * factor⟩

/-- Whether two points coincide within the tolerance. -/
def near (left right : Point α) : Bool :=
  Scalar.near left.x right.x && Scalar.near left.y right.y

def isFinite (point : Point α) : Bool :=
  Scalar.isFinite point.x && Scalar.isFinite point.y

end Point

structure Size (α : Type) where
  width : α
  height : α
deriving DecidableEq, BEq, Repr, Inhabited

namespace Size

variable {α : Type} [Scalar α]

/-- The smallest size that holds both. -/
def max (left right : Size α) : Size α :=
  ⟨larger left.width right.width, larger left.height right.height⟩

/-- Whether both dimensions are finite and not negative. -/
def isValid (size : Size α) : Bool :=
  Scalar.isFinite size.width && Scalar.isFinite size.height &&
    decide (zero ≤ size.width) && decide (zero ≤ size.height)

end Size

/-- Free space kept on the four sides of a container. -/
structure Insets (α : Type) where
  top : α
  right : α
  bottom : α
  left : α
deriving DecidableEq, BEq, Repr, Inhabited

namespace Insets

/-- The same free space on every side. -/
def uniform {α : Type} (value : α) : Insets α := ⟨value, value, value, value⟩

end Insets

end Flowchart
