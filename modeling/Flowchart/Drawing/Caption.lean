import Flowchart.Drawing.Layer
import Flowchart.Drawing.Stroke
import Flowchart.Geometry.Rect

/-!
Single lines of text.  The width of a text is estimated from its number of
characters; what does not fit into a figure is cut off.
-/

namespace Flowchart

structure TextStyle where
  family : String
  size : Float32
  color : Color
deriving BEq, Repr, Inhabited

namespace TextStyle

def standard : TextStyle := ⟨"monospace", 12, .black⟩

/-- The width that a character takes on average. -/
def charWidth (style : TextStyle) : Float32 := style.size * 0.6

end TextStyle

inductive Placement where
  | centered (bounds : Rect Float32)
  | startingAt (point : Point Float32)
deriving BEq, Repr, Inhabited

structure Caption where
  text : String
  style : TextStyle
  placement : Placement
deriving BEq, Repr, Inhabited

namespace Caption

/-- The free space on either side of a text in a figure. -/
def sidePadding : Float32 := 6

/-- A text of at most so many characters; the last one tells that some are
missing. -/
def cut (text : String) (capacity : Nat) : String :=
  if text.length ≤ capacity then text
  else if capacity = 0 then ""
  else String.ofList (text.toList.take (capacity - 1)) ++ "…"

/-- Cuts a text to a width.  Characters without a width always fit. -/
def fit (text : String) (available charWidth : Float32) : String :=
  if 0 < charWidth then
    cut text (available / charWidth).floor.toUInt64.toNat
  else text

/-- A text in the middle of a figure, cut to its width. -/
def centered (text : String) (bounds : Rect Float32) (style : TextStyle) :
    Caption :=
  let available := Scalar.larger (bounds.width - 2 * sidePadding) 0
  ⟨fit text available style.charWidth, style, .centered bounds⟩

/-- A text to the right of a point. -/
def startingAt (text : String) (point : Point Float32) (style : TextStyle) :
    Caption :=
  ⟨text, style, .startingAt point⟩

def draw (caption : Caption) : Layered :=
  if caption.text.isEmpty then []
  else
    let (point, anchor) :=
      match caption.placement with
      | .centered bounds => (bounds.center, "middle")
      | .startingAt point => (point, "start")
    let style := caption.style
    let attributes :=
      [("x", Number.text point.x), ("y", Number.text point.y),
        ("text-anchor", anchor), ("dominant-baseline", "middle"),
        ("font-family", style.family), ("font-size", Number.text style.size),
        ("fill", style.color.text),
        ("fill-opacity", Number.text style.color.alpha)]
    [(.text, .element "text" attributes [.text "", .text caption.text])]

end Caption

end Flowchart
