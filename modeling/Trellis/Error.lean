import Trellis.Path
import Trellis.Value

/-!
# Errors of tree operations

Running off either end of a walk is never an error. `endless` is the answer where a search would
not come to an end: below a node that lies below itself, or along a map with a repeated name.
-/

namespace Trellis

inductive TreeError where
  | keyNotFound (path : Path) (key : Key)
  | indexOutOfBounds (path : Path) (index length : Nat)
  | notAContainer (path : Path) (found : String)
  | emptyPath
  | unknownNode (id : NodeId)
  | unsupportedShape (path : Path) (found : String)
  | fixedField (kind field : String)
  | arityMismatch (kind : String) (expected actual : Nat)
  | detached (id : NodeId)
  | alreadyAttached (id : NodeId)
  | selfReplacement
  | cyclicReplacement (id : NodeId)
  | arenaFull (capacity : Nat)
  | endless (id : NodeId)
deriving Repr, DecidableEq

namespace TreeError

def message : TreeError → String
  | keyNotFound path key => "Key '" ++ key.text ++ "' not found at " ++ path.text
  | indexOutOfBounds path index length =>
    "Index " ++ toString index ++ " out of bounds at " ++ path.text ++
      " (length " ++ toString length ++ ")"
  | notAContainer path found => "Cannot descend into " ++ found ++ " at " ++ path.text
  | emptyPath => "Operation requires a non-empty path"
  | unknownNode id => "Unknown node " ++ id.text
  | unsupportedShape path found =>
    "Unsupported shape at " ++ path.text ++ ": " ++ found ++
      " is not a sequence, mapping or node"
  | fixedField kind field =>
    "Cannot erase field '" ++ field ++ "' of " ++ kind ++ ": node fields are fixed"
  | arityMismatch kind expected actual =>
    kind ++ " expects " ++ toString expected ++ " fields, got " ++ toString actual
  | detached id => "Node " ++ id.text ++ " has no parent"
  | alreadyAttached id => "Node " ++ id.text ++ " is already attached to a parent"
  | selfReplacement => "A node cannot replace itself"
  | cyclicReplacement id =>
    "Node " ++ id.text ++ " is an ancestor of the node it would replace"
  | arenaFull capacity => "Tree cannot hold more than " ++ toString capacity ++ " nodes"
  | endless id => "Following the nodes below " ++ id.text ++ " does not end"

/-- A path did not resolve against its root. -/
def isAddress : TreeError → Bool
  | keyNotFound .. | indexOutOfBounds .. | notAContainer .. | emptyPath | unknownNode _ => true
  | _ => false

/-- The tree has a shape that cannot be stepped through. -/
def isShape : TreeError → Bool
  | unsupportedShape .. | endless _ => true
  | _ => false

/-- Parents and siblings were misused. -/
def isLinkage : TreeError → Bool
  | fixedField .. | detached _ | alreadyAttached _ | selfReplacement | cyclicReplacement _ => true
  | _ => false

/-- A node could not be built. -/
def isConstruction : TreeError → Bool
  | arityMismatch .. | arenaFull _ => true
  | _ => false

/-- The path an error is about. -/
def path? : TreeError → Option Path
  | keyNotFound path _ | indexOutOfBounds path _ _ | notAContainer path _
  | unsupportedShape path _ => some path
  | _ => none

/-- The node an error is about. -/
def node? : TreeError → Option NodeId
  | unknownNode id | detached id | alreadyAttached id | cyclicReplacement id | endless id =>
    some id
  | _ => none

end TreeError

end Trellis
