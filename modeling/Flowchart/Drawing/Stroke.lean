import Flowchart.Color.Basic

/-!
How lines are drawn.
-/

namespace Flowchart

inductive Dash where
  | solid
  | dashed
  | dotted
deriving DecidableEq, Repr, Inhabited

namespace Dash

/-- The lengths of the dashes and the gaps between them. -/
def pattern? : Dash → Option String
  | .solid => none
  | .dashed => some "6,4"
  | .dotted => some "2,3"

end Dash

structure Stroke where
  color : Color
  width : Float32
  dash : Dash
deriving BEq, Repr, Inhabited

namespace Stroke

def standardWidth : Float32 := 1.5

def solid (color : Color) (width : Float32) : Stroke := ⟨color, width, .solid⟩

def standard : Stroke := solid .black standardWidth

/-- The same line where no control flow gets to. -/
def unreachable (stroke : Stroke) : Stroke :=
  { stroke with color := stroke.color.faded, dash := .dashed }

def attributes (stroke : Stroke) : List (String × String) :=
  let dash :=
    stroke.dash.pattern?.toList.map fun pattern => ("stroke-dasharray", pattern)
  [("stroke", stroke.color.text),
    ("stroke-opacity", Number.text stroke.color.alpha),
    ("stroke-width", Number.text stroke.width)] ++ dash

end Stroke

end Flowchart
