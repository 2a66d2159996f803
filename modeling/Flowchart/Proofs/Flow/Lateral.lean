import Flowchart.Proofs.Flow.Endpoints

/-!
# Lateral connectors

Connectors that go down a lane beside a construct leave a decision where the
condition fails, or a loop that is over.
-/

namespace Flowchart

namespace Wiring

/-- All connectors of a wiring leave anchors that suit them, and so will those
that are open yet. -/
structure Suited (wiring : Wiring) : Prop where
  edges : ∀ edge ∈ wiring.edges, edge.kind.Suits edge.source.anchor
  exits : ∀ exit ∈ wiring.exits, exit.kind.Suits exit.source.anchor

end Wiring

namespace Program

/-- All connectors of a program leave anchors that suit them. -/
theorem wire_suited (program : Program NodeId) (inService : Bool) :
    (program.wire inService).Suited :=
  have joins := program.wire_joins inService
  ⟨fun edge edgeIn => (joins.edges edge edgeIn).suits,
    fun exit exitIn => (joins.exits exit exitIn).suits⟩

/-- Where flow goes back or leaves sideways, there is a loop or a decision. -/
theorem eq_loop_of_anchor {L : Type} {program : Program L} {anchor : Anchor}
    (isLoop : anchor = .loopBack ∨ anchor = .loopExit)
    (anchorIn : anchor ∈ program.anchors) :
    ∃ label kind body, program = .loop label kind body := by
  cases program with
  | loop label kind body => exact ⟨label, kind, body, rfl⟩
  | container label kind body =>
      cases kind <;> rcases isLoop with rfl | rfl <;> simp [anchors] at anchorIn
  | _ => rcases isLoop with rfl | rfl <;> simp [anchors] at anchorIn

theorem eq_decision_of_anchor {L : Type} {program : Program L}
    (anchorIn : .branchFalse ∈ program.anchors) :
    ∃ label consequent alternative,
      program = .decision label consequent alternative := by
  cases program with
  | decision label consequent alternative =>
      exact ⟨label, consequent, alternative, rfl⟩
  | container label kind body => cases kind <;> simp [anchors] at anchorIn
  | _ => simp [anchors] at anchorIn

end Program

end Flowchart
