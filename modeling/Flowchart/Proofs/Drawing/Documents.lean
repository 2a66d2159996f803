import Flowchart.Drawing.Document
import Flowchart.Proofs.Drawing.Layers
import Flowchart.Proofs.Keyed
import Flowchart.Proofs.Results

/-!
# Drawn documents

A document shows the elements of a diagram by layers, and defines every arrow head
that one of its lines ends in exactly once.
-/

namespace Flowchart

/-! ## Attributes anywhere in a document -/

namespace Markup

mutual

/-- The values of the attributes of a name, in the order of the document. -/
def values (name : String) : Markup → List String
  | .text _ => []
  | .element _ attributes children =>
      (attributes.filter fun entry => entry.1 = name).map Prod.snd ++
        valuesBelow name children

def valuesBelow (name : String) : List Markup → List String
  | [] => []
  | child :: rest => values name child ++ valuesBelow name rest

end

theorem valuesBelow_eq (name : String) (children : List Markup) :
    valuesBelow name children = children.flatMap (values name) := by
  induction children with
  | nil => rfl
  | cons child rest ih => rw [valuesBelow, ih, List.flatMap_cons]

theorem values_element (name : String) (kind : String)
    (attributes : List (String × String)) (children : List Markup) :
    (Markup.element kind attributes children).values name =
      (attributes.filter fun entry => entry.1 = name).map Prod.snd ++
        children.flatMap (values name) := by
  rw [values, valuesBelow_eq]

theorem values_text (name content : String) : (text content).values name = [] := by
  rw [values]

/-- What neither is named nor refers to anything by name. -/
def IsPlain (markup : Markup) : Prop :=
  markup.values "id" = [] ∧ markup.values "marker-end" = []

end Markup

theorem Stroke.filter_attributes (stroke : Stroke) {name : String}
    (notStroke : name ∉ ["stroke", "stroke-opacity", "stroke-width",
      "stroke-dasharray"]) :
    (stroke.attributes.filter fun entry => entry.1 = name) = [] := by
  obtain ⟨color, width, dash⟩ := stroke
  refine List.filter_eq_nil_iff.mpr fun entry entryIn isNamed => notStroke ?_
  rw [← of_decide_eq_true isNamed]
  cases dash <;> simp [attributes, Dash.pattern?] at entryIn <;> grind

theorem Shape.isPlain_outline (shape : Shape) (bounds : Rect Float32) :
    (shape.outline bounds).IsPlain := by
  cases shape <;>
    simp [outline, box, polygon, boxAttributes, Markup.IsPlain,
      Markup.values_element]

theorem Figure.isPlain_of_mem_draw {figure : Figure} {item : Layer × Markup}
    (itemIn : item ∈ figure.draw) : item.2.IsPlain := by
  obtain rfl := List.mem_singleton.mp itemIn
  obtain ⟨noId, noMarker⟩ := figure.shape.isPlain_outline figure.bounds
  simp [Markup.IsPlain, Markup.values_element, noId, noMarker,
    Stroke.filter_attributes]

theorem Caption.isPlain_of_mem_draw {caption : Caption} {item : Layer × Markup}
    (itemIn : item ∈ caption.draw) : item.2.IsPlain := by
  unfold draw at itemIn
  split at itemIn
  · cases itemIn
  · obtain rfl := List.mem_singleton.mp itemIn
    simp [Markup.IsPlain, Markup.values_element, Markup.values_text]

/-! ## Values among drawn elements -/

namespace Layered

variable {name : String}

/-- The values of the attributes of a name among drawn elements. -/
def values (drawn : Layered) (name : String) : List String :=
  drawn.flatMap fun item => item.2.values name

theorem values_append (drawn more : Layered) :
    values (drawn ++ more) name = drawn.values name ++ more.values name :=
  List.flatMap_append

theorem values_flatMap {β : Type} (items : List β) (draw : β → Layered) :
    values (items.flatMap draw) name =
      items.flatMap fun item => (draw item).values name :=
  List.flatMap_assoc

theorem values_eq_nil {drawn : Layered}
    (absent : ∀ item ∈ drawn, item.2.values name = []) : drawn.values name = [] :=
  List.flatMap_eq_nil_iff.mpr absent

/-- The groups of drawn elements have their attributes, apart from the names of the
layers. -/
theorem values_groups (drawn : Layered) (notLayer : name ≠ "data-layer") :
    (drawn.groups.flatMap (Markup.values name)).Perm (drawn.values name) := by
  have ofGroup : ∀ group ∈ drawn.gathered, group.markup.values name =
      values group.items name := by
    intro group _
    simp [LayerGroup.markup, Markup.values_element, notLayer.symm, values,
      LayerGroup.items, List.flatMap_map]
  rw [groups, List.flatMap_map, List.flatMap_congr ofGroup, ← values_flatMap]
  exact drawn.shownBy_gathered.whole.flatMap_right _

end Layered

/-! ## Arrow heads -/

/-- How a line refers to the arrow head of a colour. -/
def arrowReference (color : Color) : String := "url(#" ++ arrowName color ++ ")"

theorem values_arrowHead (color : Color) :
    (arrowHead color).values "id" = [arrowName color] ∧
      (arrowHead color).values "marker-end" = [] := by
  simp [arrowHead, Markup.values_element]

theorem values_arrowHeads (colors : List Color) :
    (arrowHeads colors).flatMap (Markup.values "marker-end") = [] := by
  refine List.flatMap_eq_nil_iff.mpr fun arrow arrowIn => ?_
  obtain ⟨color, -, rfl⟩ := List.mem_map.mp arrowIn
  exact (values_arrowHead color).2

theorem identifier_eq_of_arrowName {left right : Color}
    (same : arrowName left = arrowName right) : left.identifier = right.identifier :=
  (String.append_right_inj "arrow-").mp same

/-- No two arrow heads have one name. -/
theorem nodup_values_arrowHeads (colors : List Color) :
    ((arrowHeads colors).flatMap (Markup.values "id")).Nodup := by
  have isNames : (arrowHeads colors).flatMap (Markup.values "id") =
      ((Keyed.ofList Color.identifier colors).mergeSort fun left right =>
        decide (left.identifier ≤ right.identifier)).map arrowName := by
    rw [arrowHeads, List.flatMap_map, List.map_eq_flatMap]
    exact List.flatMap_congr fun color _ => (values_arrowHead color).1
  have distinct : ((Keyed.ofList Color.identifier colors).map
      Color.identifier).Nodup := Keyed.nodup_ofList colors
  rw [isNames, ((List.mergeSort_perm _ _).map arrowName).nodup_iff]
  exact (List.pairwise_map.mp distinct).map arrowName fun _ _ differ same =>
    differ (identifier_eq_of_arrowName same)

/-- Every colour has an arrow head under its name, and no other arrow head has
that name. -/
theorem exists_arrowHead {colors : List Color} {color : Color}
    (colorIn : color ∈ colors) :
    ∃ shown ∈ colors, arrowName shown = arrowName color ∧
      arrowHead shown ∈ arrowHeads colors ∧
      ((arrowHeads colors).flatMap (Markup.values "id")).count
        (arrowName color) = 1 := by
  obtain ⟨shown, shownIn, same⟩ := List.mem_map.mp
    (Keyed.mem_map_ofList.mpr (List.mem_map_of_mem colorIn))
  have sameName : arrowName shown = arrowName color := congrArg ("arrow-" ++ ·) same
  have isHead : arrowHead shown ∈ arrowHeads colors :=
    List.mem_map_of_mem (List.mem_mergeSort.mpr shownIn)
  refine ⟨shown, Keyed.mem_of_mem_ofList shownIn, sameName, isHead, ?_⟩
  refine List.count_eq_one_of_mem (nodup_values_arrowHeads colors) ?_
  refine List.mem_flatMap.mpr ⟨_, isHead, ?_⟩
  rw [(values_arrowHead shown).1, sameName]
  exact List.mem_singleton_self _

theorem Line.values_draw (line : Line) :
    Layered.values line.draw "id" = [] ∧
      Layered.values line.draw "marker-end" =
        if 2 ≤ line.path.points.length then [arrowReference line.stroke.color]
        else [] := by
  unfold draw
  split
  · rename_i isEmpty
    simp [Layered.values, isEmpty]
  · rename_i isSingle
    simp [Layered.values, isSingle]
  · rename_i notEmpty notSingle
    have isLong : 2 ≤ line.path.points.length := by
      match isPoints : line.path.points with
      | [] => exact absurd isPoints notEmpty
      | [point] => exact absurd isPoints (notSingle point)
      | _ :: _ :: _ => simp
    simp [Layered.values, Markup.values_element, Stroke.filter_attributes, isLong,
      arrowReference]

/-! ## Diagrams -/

/-- A routed diagram is the diagram with a connector for each edge, in the order of
the edges. -/
theorem Diagram.of_route_eq_ok {α : Type} [Scalar α] {settings : LayoutSettings α}
    {diagram : Diagram α} {routed : RoutedDiagram α}
    (isRouted : diagram.route settings = .ok routed) :
    routed.toDiagram = diagram ∧
      routed.connectors.map Connector.toEdge = diagram.edges := by
  obtain ⟨connectors, areConnectors, isDiagram⟩ := bind_eq_ok.mp isRouted
  cases isDiagram
  refine ⟨rfl,
    map_eq_of_mapM_eq_ok (fun edge connector connects => ?_) areConnectors⟩
  obtain ⟨path, -, checked⟩ := bind_eq_ok.mp connects
  obtain ⟨-, -, isConnector⟩ := bind_eq_ok.mp checked
  cases isConnector
  rfl

namespace Style

variable (style : Style)

theorem isPlain_of_mem_node {node : DiagramNode Float32} {item : Layer × Markup}
    (itemIn : item ∈ style.node node) : item.2.IsPlain := by
  rcases List.mem_append.mp itemIn with inFrame | inFigure
  · unfold frame at inFrame
    split at inFrame
    · exact Figure.isPlain_of_mem_draw inFrame
    · cases inFrame
  · split at inFigure
    · cases inFigure
    · rcases List.mem_append.mp inFigure with isFigure | isCaption
      · exact Figure.isPlain_of_mem_draw isFigure
      · exact Caption.isPlain_of_mem_draw isCaption

/-- A connector is drawn as its line and a plain caption. -/
theorem exists_connector_eq (connector : Connector Float32) :
    ∃ caption : Layered, (∀ item ∈ caption, item.2.IsPlain) ∧
      style.connector connector =
        Line.draw ⟨connector.path, style.strokeFor connector.reachable⟩ ++
          caption := by
  refine ⟨_, fun item itemIn => ?_, rfl⟩
  split at itemIn
  · exact Caption.isPlain_of_mem_draw itemIn
  · cases itemIn

/-- Only the line of a connector refers to an arrow head. -/
theorem values_connector (connector : Connector Float32) :
    Layered.values (style.connector connector) "id" = [] ∧
      Layered.values (style.connector connector) "marker-end" =
        if 2 ≤ connector.path.points.length then
          [arrowReference (style.connectorColor connector)]
        else [] := by
  obtain ⟨caption, isPlain, isDrawn⟩ := style.exists_connector_eq connector
  obtain ⟨noName, references⟩ := Line.values_draw
    ⟨connector.path, style.strokeFor connector.reachable⟩
  rw [isDrawn, Layered.values_append, Layered.values_append, noName, references,
    Layered.values_eq_nil fun item itemIn => (isPlain item itemIn).1,
    Layered.values_eq_nil fun item itemIn => (isPlain item itemIn).2]
  exact ⟨rfl, List.append_nil _⟩

theorem values_elements (diagram : RoutedDiagram Float32) :
    Layered.values (style.elements diagram) "id" = [] ∧
      Layered.values (style.elements diagram) "marker-end" =
        diagram.connectors.flatMap fun connector =>
          if 2 ≤ connector.path.points.length then
            [arrowReference (style.connectorColor connector)]
          else [] := by
  have isPlain : ∀ item ∈ diagram.nodes.flatMap style.node, item.2.IsPlain := by
    intro item itemIn
    obtain ⟨node, -, isDrawn⟩ := List.mem_flatMap.mp itemIn
    exact style.isPlain_of_mem_node isDrawn
  rw [elements, Layered.values_append, Layered.values_append,
    Layered.values_eq_nil fun item itemIn => (isPlain item itemIn).1,
    Layered.values_eq_nil fun item itemIn => (isPlain item itemIn).2,
    Layered.values_flatMap, Layered.values_flatMap]
  refine ⟨List.flatMap_eq_nil_iff.mpr fun connector _ => ?_,
    List.flatMap_congr fun connector _ => ?_⟩
  · exact (style.values_connector connector).1
  · exact (style.values_connector connector).2

/-- The attributes of a document, apart from those of its root, are those of the
arrow heads and of the drawn elements. -/
theorem values_region (diagram : RoutedDiagram Float32) (view : Rect Float32)
    (size : Size Float32) {name : String}
    (isNamed : name = "id" ∨ name = "marker-end") :
    ((style.region diagram view size).values name).Perm
      ((arrowHeads (diagram.connectors.map style.connectorColor)).flatMap
          (Markup.values name) ++
        (style.elements diagram).values name) := by
  have notLayer : name ≠ "data-layer" := by
    rcases isNamed with rfl | rfl <;> decide
  have noBackdrop : (style.backdrop view).flatMap (Markup.values name) = [] := by
    refine List.flatMap_eq_nil_iff.mpr fun markup markupIn => ?_
    obtain ⟨color, -, rfl⟩ := List.mem_map.mp markupIn
    rcases isNamed with rfl | rfl <;>
      simp [Markup.values_element, Shape.boxAttributes]
  have noRoot : (style.region diagram view size).values name =
      (style.backdrop view ++ .element "defs" []
        (arrowHeads (diagram.connectors.map style.connectorColor)) ::
          (style.elements diagram).groups).flatMap (Markup.values name) := by
    rw [region, Markup.values_element]
    rcases isNamed with rfl | rfl <;> simp
  rw [noRoot, List.flatMap_append, noBackdrop, List.flatMap_cons,
    Markup.values_element]
  exact (Layered.values_groups _ notLayer).append_left _

/-- A document shows what was drawn for the nodes of a diagram, and then for its
connectors, by layers.  The connectors of a routed diagram are those of its edges.
The lines of connectors end in arrow heads that the document defines ahead of the
groups, each name once. -/
theorem region_layered (diagram : RoutedDiagram Float32) (view : Rect Float32)
    (size : Size Float32) :
    ∃ attributes arrows groups,
      style.region diagram view size =
        .element "svg" attributes
          (style.backdrop view ++ .element "defs" [] arrows ::
            groups.map LayerGroup.markup) ∧
      Layered.ShownBy
        (diagram.nodes.flatMap style.node ++
          diagram.connectors.flatMap style.connector) groups ∧
      (∀ settings laidOut, Diagram.route settings laidOut = .ok diagram →
        diagram.nodes = laidOut.nodes ∧
          diagram.connectors.map Connector.toEdge = laidOut.edges) ∧
      (∀ reference,
        reference ∈ (style.region diagram view size).values "marker-end" ↔
          ∃ connector ∈ diagram.connectors, 2 ≤ connector.path.points.length ∧
            reference = arrowReference (style.connectorColor connector)) ∧
      ∀ connector ∈ diagram.connectors, ∃ other ∈ diagram.connectors,
        arrowName (style.connectorColor other) =
            arrowName (style.connectorColor connector) ∧
          arrowHead (style.connectorColor other) ∈ arrows ∧
          ((style.region diagram view size).values "id").count
            (arrowName (style.connectorColor connector)) = 1 := by
  have names := style.values_region diagram view size (.inl rfl)
  have references := style.values_region diagram view size (.inr rfl)
  rw [(style.values_elements diagram).1, List.append_nil] at names
  rw [(style.values_elements diagram).2, values_arrowHeads, List.nil_append]
    at references
  refine ⟨_, _, (style.elements diagram).gathered, rfl,
    (style.elements diagram).shownBy_gathered, ?routed, ?referred, ?defined⟩
  case routed =>
    intro settings laidOut isRouted
    obtain ⟨rfl, areEdges⟩ := Diagram.of_route_eq_ok isRouted
    exact ⟨rfl, areEdges⟩
  case referred =>
    intro reference
    rw [references.mem_iff, List.mem_flatMap]
    refine exists_congr fun connector => and_congr_right fun _ => ?_
    split <;> simp [*]
  case defined =>
    intro connector connectorIn
    obtain ⟨color, colorIn, sameName, isHead, once⟩ :=
      exists_arrowHead (List.mem_map_of_mem (f := style.connectorColor) connectorIn)
    obtain ⟨other, otherIn, rfl⟩ := List.mem_map.mp colorIn
    exact ⟨other, otherIn, sameName, isHead, (names.count_eq _).trans once⟩

end Style

end Flowchart
