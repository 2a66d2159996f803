import Flowchart.Revision.Patch
import Flowchart.Route.Router

/-!
Diagrams of a tree that changes.  A session keeps the arrangements of the last
revision it could lay out; for the next one it drops those that a patch can
affect and uses the others again.
-/

namespace Flowchart

/-! ## Dropping arrangements -/

/-- Whose child each identity is.  Where an identity has several parents, the
first pair counts. -/
abbrev Parents : Type := List (NodeId × NodeId)

namespace Tree

/-- The identities of children with those of their parents, gathered one after
the other; of the pairs of one child the last one gathered counts. -/
def parentIdsIn {α : Type} (tree : Tree α) (links : List (Handle × Handle)) :
    Parents :=
  (links.filterMap fun (child, parent) => do
    return ((← tree.node? child).id, (← tree.node? parent).id)).reverse

/-- The identities of the parents of all children that can be reached. -/
def parentIds {α : Type} (tree : Tree α) : Parents :=
  tree.parentIdsIn tree.parents

end Tree

namespace Parents

/-- An identity and those above it, at most `fuel` of them. -/
def chain (parents : Parents) : (fuel : Nat) → Option NodeId → List NodeId
  | fuel + 1, some id => id :: chain parents fuel (parents.lookup id)
  | _, _ => []

/-- An identity and all above it.  A chain with more members than there are
pairs would run in a circle. -/
def upFrom (parents : Parents) (id : Option NodeId) : List NodeId :=
  chain parents (parents.length + 1) id

/-- The identities whose arrangements a patch can affect. -/
def affected (old new : Parents) : Patch → List NodeId
  | .update id | .restructure id => new.upFrom (some id)
  | .insert _ parent => new.upFrom parent
  | .remove id => new.upFrom (some id) ++ new.upFrom (old.lookup id)
  | .move _ source target => new.upFrom source ++ new.upFrom target

/-- Where the ways up that a patch asks for start. -/
def starts (old : Parents) : Patch → List (Option NodeId)
  | .update id | .restructure id => [some id]
  | .insert _ parent => [parent]
  | .remove id => [some id, old.lookup id]
  | .move _ source target => [source, target]

/-- Goes up from an identity to one without a parent.  Nothing comes of it if
the steps are used up before. -/
def climb (parents : Parents) : (steps : Nat) → Option NodeId →
    Option (List NodeId)
  | _, none => some []
  | 0, some _ => none
  | steps + 1, some id =>
      (climb parents steps (parents.lookup id)).map (id :: ·)

/-- All identities above the starts of some patches, with so many steps for
each way up. -/
def climbAll (old new : Parents) (steps : Nat) (patches : List Patch) :
    Option (List NodeId) :=
  ((patches.flatMap (starts old)).mapM (new.climb steps)).map List.flatten

end Parents

namespace ArrangementCache

/-- Drops the arrangements under some identities. -/
def drop {α : Type} (cache : ArrangementCache α) (stale : List NodeId) :
    ArrangementCache α :=
  { cache with
    entries := cache.entries.filter fun entry => !stale.contains entry.1 }

/-- Drops every arrangement that a patch can affect. -/
def invalidate {α : Type} (cache : ArrangementCache α) (old new : Parents)
    (patches : List Patch) : ArrangementCache α :=
  cache.drop (patches.flatMap (Parents.affected old new))

end ArrangementCache

/-! ## Sessions -/

/-- What came of one revision. -/
structure Update (α : Type) where
  generation : Nat
  patches : List Patch
  reused : Nat
  recomputed : Nat
  diagram : RoutedDiagram α
deriving Repr

structure Session (α : Type) where
  settings : LayoutSettings α
  cache : ArrangementCache α
  lastTree : Option (Tree α)
  published : Option (RoutedDiagram α)
  pending : Option (Tree α)
  generation : Nat
  superseded : Nat
deriving Repr

namespace Session

variable {α : Type} [Scalar α]

/-- A session that has seen no tree. -/
def start (settings : LayoutSettings α) :
    Except (SettingsError α) (Session α) := do
  settings.validate
  return {
    settings
    cache := .empty
    lastTree := none
    published := none
    pending := none
    generation := 0
    superseded := 0 }

/-- Hands in a revision; one that is still waiting is given up. -/
def submit (session : Session α) (tree : Tree α) : Session α :=
  { session with
    pending := some tree
    superseded :=
      session.superseded + (if session.pending.isSome then 1 else 0) }

/-- Lays out and routes one tree with the arrangements that still hold. -/
def layOutWith (session : Session α) (valid : ArrangementCache α)
    (tree : Tree α) :
    Except LayoutError (RoutedDiagram α) × ArrangementCache α :=
  match tree.layoutCached session.settings valid.resetCounters with
  | (.error error, cache) => (.error error, cache)
  | (.ok diagram, cache) =>
      match diagram.route session.settings with
      | .ok routed => (.ok routed, cache)
      | .error fault => (.error (.inconsistent fault), cache)

/-- Drops what the patches can affect before a tree is laid out. -/
def layOut (session : Session α) (previous tree : Tree α)
    (patches : List Patch) :
    Except LayoutError (RoutedDiagram α) × ArrangementCache α :=
  session.layOutWith
    (session.cache.invalidate previous.parentIds tree.parentIds patches) tree

/-- Takes the waiting tree and publishes what a pass over it came to.  A tree
that cannot be laid out is given up, and all else stays as it was. -/
def conclude (session : Session α) (tree : Tree α) (patches : List Patch) :
    Except LayoutError (RoutedDiagram α) × ArrangementCache α →
      Except LayoutError (Option (Update α)) × Session α
  | (.error error, _) => (.error error, { session with pending := none })
  | (.ok diagram, cache) =>
      let generation := session.generation + 1
      let update : Update α :=
        { generation
          patches
          reused := cache.hits
          recomputed := cache.misses
          diagram }
      (.ok (some update),
        { session with
          pending := none
          cache
          lastTree := some tree
          published := some diagram
          generation })

/-- Takes the waiting revision, if there is one. -/
def process (session : Session α) :
    Except LayoutError (Option (Update α)) × Session α :=
  match session.pending with
  | none => (.ok none, session)
  | some tree =>
      let previous := session.lastTree.getD .empty
      let patches := previous.diff tree
      session.conclude tree patches (session.layOut previous tree patches)

/-- Takes the waiting revision as `process` does, with the links of both trees
gathered in some order.  Going up from the start of a patch runs in a circle
where the pairs that count do, and then nothing comes of any number of steps. -/
def processIn (session : Session α) (oldLinks newLinks : List (Handle × Handle))
    (steps : Nat) : Option (Except LayoutError (Option (Update α)) × Session α) :=
  match session.pending with
  | none => some (.ok none, session)
  | some tree => do
      let previous := session.lastTree.getD .empty
      let patches := previous.diff tree
      let stale ← Parents.climbAll (previous.parentIdsIn oldLinks)
        (tree.parentIdsIn newLinks) steps patches
      return session.conclude tree patches
        (session.layOutWith (session.cache.drop stale) tree)

end Session

end Flowchart
