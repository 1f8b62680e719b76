import Trellis.Address

/-!
# Stepping through positions

`Tree.increment` leads from a path to the next position in pre-order: down to the first child if
there is one, otherwise along at the deepest level that has a following key. `Tree.decrement`
leads back. The mode decides only whether a step may go down into a node: a path that already
lies inside one moves along there in both modes.
-/

namespace Trellis

namespace Tree

/-- The children of a value that a key has already been followed from. -/
def lateral (t : Tree) (v : Value) (path : Path) : Except TreeError Children :=
  match t.expand? .unrestricted v with
  | some c => .ok c
  | none => .error (.unsupportedShape path v.typeName)

/-- `increment` for the keys that are left below `v`, which stands at `path`. -/
def incrementFrom (t : Tree) (mode : Expansion) (v : Value) (path : Path) :
    List Key → Except TreeError (Option Path)
  | [] => .ok (((t.expand? mode v).bind Children.firstKey?).map fun first => path ++ [first])
  | key :: rest => do
    let w ← t.child v path key
    match ← t.incrementFrom mode w (path ++ [key]) rest with
    | some next => return some next
    | none => return ((← t.lateral v path).nextKey? key).map fun next => path ++ [next]

/-- The position after `path` in pre-order; `none` after the last one. -/
def increment (t : Tree) (root : Value) (path : Path) (mode : Expansion) :
    Except TreeError (Option Path) :=
  t.incrementFrom mode root [] path

/-- No way down from `v` is longer than this, if no node lies below itself: it crosses each node
at most once and stays inside one field value in between. -/
def reach (t : Tree) (v : Value) : Nat := v.positions + t.extent

/-- Go down to the last child again and again, at most `fuel` times. -/
def lastBelow (t : Tree) (mode : Expansion) : Nat → Value → Path → Except TreeError Path
  | 0, _, path => .ok path
  | fuel + 1, v, path =>
    match (t.expand? mode v).bind Children.lastKey? with
    | none => .ok path
    | some last => do
      let w ← t.child v path last
      t.lastBelow mode fuel w (path ++ [last])

/-- `decrement` for the keys that are left below `v`, which stands at `path`. -/
def decrementFrom (t : Tree) (mode : Expansion) (v : Value) (path : Path) :
    List Key → Except TreeError (Option Path)
  | [] => .ok none
  | [key] => do
    let _ ← t.child v path key
    match (← t.lateral v path).prevKey? key with
    | none => return some path
    | some prev =>
      let w ← t.child v path prev
      return some (← t.lastBelow mode (t.reach w) w (path ++ [prev]))
  | key :: rest => do
    let w ← t.child v path key
    t.decrementFrom mode w (path ++ [key]) rest

/-- The position before `path` in pre-order; `none` before the empty path. -/
def decrement (t : Tree) (root : Value) (path : Path) (mode : Expansion) :
    Except TreeError (Option Path) :=
  t.decrementFrom mode root [] path

/-- Whether no position follows `path`. -/
def isLast (t : Tree) (root : Value) (path : Path) (mode : Expansion) :
    Except TreeError Bool :=
  return (← t.increment root path mode).isNone

/-- Which way a walk goes. -/
inductive Direction where
  | forward
  | backward
deriving Repr, DecidableEq

def step (t : Tree) (root : Value) (path : Path) (mode : Expansion) :
    Direction → Except TreeError (Option Path)
  | .forward => t.increment root path mode
  | .backward => t.decrement root path mode

/-- At most `limit` positions from `start` on, with their values. -/
def walk (t : Tree) (root : Value) (mode : Expansion) (direction : Direction) :
    (limit : Nat) → (start : Path) → Except TreeError (List (Path × Value))
  | 0, _ => .ok []
  | limit + 1, path => do
    let v ← t.resolve root path
    match ← t.step root path mode direction with
    | none => return [(path, v)]
    | some next => return (path, v) :: (← t.walk root mode direction limit next)

end Tree

end Trellis
