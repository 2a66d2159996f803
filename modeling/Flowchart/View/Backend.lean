import Flowchart.Route.Router
import Flowchart.View.Viewport

/-!
Targets that pictures are drawn on.  A target has to be acquired before it is
drawn on, and not twice; when it is released its pictures are gone.
-/

namespace Flowchart

inductive BackendError where
  | alreadyAcquired
  | notAcquired
deriving DecidableEq, Repr

namespace BackendError

def message : BackendError → String
  | .alreadyAcquired => "backend is already acquired"
  | .notAcquired => "cannot present to a released backend"

end BackendError

structure Backend (α : Type) where
  /-- The picture of a diagram as a viewport shows it. -/
  picture : RoutedDiagram α → Viewport α → String
  /-- The pictures drawn so far. -/
  frames : List String
  isAcquired : Bool

namespace Backend

variable {α : Type} (backend : Backend α)

/-- A target nothing was drawn on. -/
def released (picture : RoutedDiagram α → Viewport α → String) : Backend α :=
  ⟨picture, [], false⟩

def acquire : Except BackendError (Backend α) :=
  if backend.isAcquired then .error .alreadyAcquired
  else .ok { backend with isAcquired := true }

def present (diagram : RoutedDiagram α) (viewport : Viewport α) :
    Except BackendError (Backend α) :=
  if backend.isAcquired then
    let frame := backend.picture diagram viewport
    .ok { backend with frames := backend.frames ++ [frame] }
  else .error .notAcquired

def release : Backend α := { backend with frames := [], isAcquired := false }

end Backend

end Flowchart
