import Flowchart.Tree.Construct

/-!
Programs as nested constructs, with a label of any type at every node.  The
label says what is known of the node so far: what was written, its identity,
its measures.
-/

namespace Flowchart

inductive Program (L : Type) where
  | statement (label : L) (kind : StatementKind)
  | block (label : L) (members : List (Program L))
  | decision (label : L) (consequent : Program L)
      (alternative : Option (Program L))
  | selection (label : L) (arms : List (String × Program L))
  | loop (label : L) (kind : LoopKind) (body : Program L)
  | result (label : L)
  | container (label : L) (kind : ContainerKind) (body : Program L)
  | typeDefinition (label : L)
deriving Repr, BEq

namespace Program

variable {L M : Type}

instance [Inhabited L] : Inhabited (Program L) := ⟨.result default⟩

def label : Program L → L
  | .statement label _ | .block label _ | .decision label _ _
  | .selection label _ | .loop label _ _ | .result label
  | .container label _ _ | .typeDefinition label => label

def tag : Program L → Tag
  | .statement _ _ => .statement
  | .block _ _ => .block
  | .decision _ _ _ => .decision
  | .selection _ _ => .selection
  | .loop _ kind _ => .loop kind
  | .result _ => .result
  | .container _ kind _ => .container kind
  | .typeDefinition _ => .typeDefinition

/-- The children in the order of their places. -/
def children : Program L → List (Program L)
  | .block _ members => members
  | .decision _ consequent alternative => consequent :: alternative.toList
  | .selection _ arms => arms.map Prod.snd
  | .loop _ _ body | .container _ _ body => [body]
  | .statement _ _ | .result _ | .typeDefinition _ => []

/-- A block in which a declaration stands.  Each declaration ends the run of
members before it. -/
def isDeclarationBlock : Program L → Bool
  | .block _ members => members.any fun member => member.tag.isDeclaration
  | _ => false

/-! ## Labels -/

mutual

/-- The same constructs with every label changed. -/
def map (change : L → M) : Program L → Program M
  | .statement label kind => .statement (change label) kind
  | .block label members => .block (change label) (mapMembers change members)
  | .decision label consequent none =>
      .decision (change label) (map change consequent) none
  | .decision label consequent (some alternative) =>
      .decision (change label) (map change consequent)
        (some (map change alternative))
  | .selection label arms => .selection (change label) (mapArms change arms)
  | .loop label kind body => .loop (change label) kind (map change body)
  | .result label => .result (change label)
  | .container label kind body =>
      .container (change label) kind (map change body)
  | .typeDefinition label => .typeDefinition (change label)

def mapMembers (change : L → M) : List (Program L) → List (Program M)
  | [] => []
  | member :: rest => map change member :: mapMembers change rest

def mapArms (change : L → M) :
    List (String × Program L) → List (String × Program M)
  | [] => []
  | (pattern, body) :: rest =>
      (pattern, map change body) :: mapArms change rest

end

mutual

/-- Every node, parents before children and siblings in order. -/
def preorder : Program L → List (Program L)
  | program@(.statement _ _) | program@(.result _)
  | program@(.typeDefinition _) => [program]
  | program@(.block _ members) => program :: preorderMembers members
  | program@(.decision _ consequent none) => program :: preorder consequent
  | program@(.decision _ consequent (some alternative)) =>
      program :: (preorder consequent ++ preorder alternative)
  | program@(.selection _ arms) => program :: preorderArms arms
  | program@(.loop _ _ body) | program@(.container _ _ body) =>
      program :: preorder body

def preorderMembers : List (Program L) → List (Program L)
  | [] => []
  | member :: rest => preorder member ++ preorderMembers rest

def preorderArms : List (String × Program L) → List (Program L)
  | [] => []
  | (_, body) :: rest => preorder body ++ preorderArms rest

end

mutual

/-- Every node, children before parents and siblings in order. -/
def postorder : Program L → List (Program L)
  | program@(.statement _ _) | program@(.result _)
  | program@(.typeDefinition _) => [program]
  | program@(.block _ members) => postorderMembers members ++ [program]
  | program@(.decision _ consequent none) => postorder consequent ++ [program]
  | program@(.decision _ consequent (some alternative)) =>
      postorder consequent ++ postorder alternative ++ [program]
  | program@(.selection _ arms) => postorderArms arms ++ [program]
  | program@(.loop _ _ body) | program@(.container _ _ body) =>
      postorder body ++ [program]

def postorderMembers : List (Program L) → List (Program L)
  | [] => []
  | member :: rest => postorder member ++ postorderMembers rest

def postorderArms : List (String × Program L) → List (Program L)
  | [] => []
  | (_, body) :: rest => postorder body ++ postorderArms rest

end

end Program

end Flowchart
