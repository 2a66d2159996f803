import Flowchart.Drawing.Markup

/-!
Layers of a drawing.  What is drawn on a higher layer covers what is below, in
whatever order it was drawn.
-/

namespace Flowchart

inductive Layer where
  | background
  | chrome
  | connector
  | text
deriving DecidableEq, Repr, Inhabited

namespace Layer

/-- The layers from the lowest to the highest. -/
def all : List Layer := [.background, .chrome, .connector, .text]

def name : Layer → String
  | .background => "background"
  | .chrome => "chrome"
  | .connector => "connector"
  | .text => "text"

/-- How many layers are below. -/
def rank : Layer → Nat
  | .background => 0
  | .chrome => 1
  | .connector => 2
  | .text => 3

end Layer

/-- Elements that stand together in a document, all of one layer. -/
structure LayerGroup where
  layer : Layer
  elements : List Markup
deriving BEq, Repr, Inhabited

def LayerGroup.markup (group : LayerGroup) : Markup :=
  .element "g" [("data-layer", group.layer.name)] group.elements

/-- Groups while elements are added.  Only the current one still grows. -/
structure Gathering where
  closed : List LayerGroup
  current : Option LayerGroup
deriving BEq, Repr, Inhabited

namespace Gathering

def start : Gathering := ⟨[], none⟩

def groups (gathering : Gathering) : List LayerGroup :=
  gathering.closed ++ gathering.current.toList

/-- Closes the current group and begins one with an element. -/
def opened (gathering : Gathering) (layer : Layer) (element : Markup) :
    Gathering :=
  ⟨gathering.groups, some ⟨layer, [element]⟩⟩

/-- Adds an element to the current group if that is one of its layer, and
begins a group with it otherwise. -/
def add (gathering : Gathering) (item : Layer × Markup) : Gathering :=
  let (layer, element) := item
  match gathering.current with
  | some group =>
      if group.layer = layer then
        { gathering with
          current := some ⟨layer, group.elements ++ [element]⟩ }
      else gathering.opened layer element
  | none => gathering.opened layer element

end Gathering

/-- Elements with their layers, in the order they were drawn. -/
abbrev Layered : Type := List (Layer × Markup)

namespace Layered

/-- The elements of one layer. -/
def onLayer (drawn : Layered) (layer : Layer) : List Markup :=
  drawn.filterMap fun (other, element) =>
    if other = layer then some element else none

/-- The elements from the lowest layer to the highest; those of one layer stay
in the order they were drawn. -/
def sorted (drawn : Layered) : Layered :=
  drawn.mergeSort fun left right => decide (left.1.rank ≤ right.1.rank)

/-- The sorted elements, gathered one after the other. -/
def gathered (drawn : Layered) : List LayerGroup :=
  (drawn.sorted.foldl Gathering.add .start).groups

/-- A group for each layer that is used, the lowest first. -/
def groups (drawn : Layered) : List Markup :=
  drawn.gathered.map LayerGroup.markup

end Layered

end Flowchart
