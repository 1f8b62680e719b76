import Trellis.Command.Invocation
import Trellis.Copy
import Trellis.Document
import Trellis.Json.Reader
import Trellis.Table

/-!
# Running commands

A run gives the text it prints, or the first thing that went wrong: the input cannot be read, is
no JSON, holds an unsupported number, the path is malformed or leads nowhere, or what is found does
not fit into a table.
-/

namespace Trellis.Command

inductive Failure where
  | unreadable
  | notJson
  | unsupported (n : Json.Number)
  | badPath (e : InvalidComponent)
  | tree (e : TreeError)
  | tooWide

abbrev Outcome := Except Failure

def Outcome.ofTree {α : Type} : Except TreeError α → Outcome α
  | .ok a => .ok a
  | .error e => .error (.tree e)

/-- The value in an input. `read` gives the text of a source that can be read. -/
def load (read : Source → Option String) (input : String) : Outcome Value :=
  match read (.ofArgument input) with
  | none => .error .unreadable
  | some text =>
    match Json.parse? text with
    | none => .error .notJson
    | some j =>
      match j.toValue with
      | .ok v => .ok v
      | .error n => .error (.unsupported n)

def readPath (text : String) : Outcome Path :=
  match Path.parse text with
  | .ok p => .ok p
  | .error e => .error (.badPath e)

/-- Lines as printed, each with its line end. -/
def printed (lines : List String) : String := String.join (lines.map (· ++ "\n"))

/-- A table as printed. Nothing of it is printed if a column is too wide. -/
def printTable (headers : List String) (rows : List (List String)) : Outcome String :=
  match Table.render? headers rows with
  | some lines => .ok (printed lines)
  | none => .error .tooWide

/-! ## Walk -/

/-- Without a limit a walk is cut off only here. -/
def walkLimit : Nat := UInt64.size - 1

/-- The positions that a walk visits, with their values. -/
def visits (options : WalkOptions) (root : Value) (start : Path) :
    Except TreeError (List (Path × Value)) :=
  Tree.empty.walk root options.mode (if options.back then .backward else .forward)
    (options.limit.getD walkLimit) start

def visitRow (visit : Path × Value) : List String :=
  [visit.1.text, visit.2.typeName, visit.2.summary]

def visitLine (visit : Path × Value) : String :=
  (Json.object ⟨[("path", .string visit.1.dotted), ("type", .string visit.2.typeName),
    ("value", Tree.empty.toJson visit.2)]⟩).compact

/-- What a walk prints of the positions it has visited. -/
def report (json : Bool) (visited : List (Path × Value)) : Outcome String :=
  if json then .ok (printed (visited.map visitLine))
  else printTable ["PATH", "TYPE", "VALUE"] (visited.map visitRow)

def walk (read : Source → Option String) (json : Bool) (options : WalkOptions) :
    Outcome String := do
  let root ← load read options.input
  let start ← readPath (options.start.getD "")
  let visited ← Outcome.ofTree (visits options root start)
  report json visited

/-! ## Get -/

def get (read : Source → Option String) (json : Bool) (options : GetOptions) :
    Outcome String := do
  let root ← load read options.input
  let path ← readPath options.path
  let v ← Outcome.ofTree (Tree.empty.resolve root path)
  let j := Tree.empty.toJson v
  return printed [if json then j.compact else j.pretty]

/-! ## Demo -/

namespace Demo

def call : Kind := ⟨"Call", ["func", "args"]⟩

def add : Kind := ⟨"Add", ["left", "right"]⟩

def lit : Kind := ⟨"Lit", ["value"]⟩

def var : Kind := ⟨"Var", ["name"]⟩

def label (link : Option NodeId) : String :=
  match link with
  | some id => id.text
  | none => "-"

/-- A node with its kind, its place and its neighbours. -/
def row (id : NodeId) : Linking (List String) := do
  let n ← Linking.ask (·.get id)
  let path ← Linking.ask (·.fullPath id)
  let prev ← Linking.prevSibling id
  let next ← Linking.nextSibling id
  return [id.text, n.kind.name, path.text, label prev, label next]

/-- The tree at one point of the demo, with the rows that are shown of it under a title. -/
structure Stage where
  title : String
  root : NodeId
  tree : Tree
  rows : List (List String)

/-- The tree as it stands. Looking for neighbours is part of what happens to it. -/
def stage (root : NodeId) (title : String) : Linking Stage := do
  let below ← Linking.ask fun t => t.descendants root t.extent
  let rows ← (root :: below).mapM row
  return { title, root, tree := ← MonadState.get, rows }

def Stage.report (json : Bool) (s : Stage) : Outcome String :=
  if json then
    let cells := s.rows.map fun cells => Json.array (cells.map .string)
    return printed [(Json.object ⟨[("stage", .string s.title),
      ("tree", s.tree.toJson (.node s.root)), ("nodes", .array cells)]⟩).compact]
  else do
    let table ← printTable ["NODE", "KIND", "PATH", "PREV", "NEXT"] s.rows
    return printed ["== " ++ s.title] ++ table ++ printed [""]

/-- Build the expression `f(1, x + 2, y)`, remove its first argument, replace the second. -/
def script : Linking (List Stage) := do
  let func ← Linking.addNode var [.text "f"]
  let one ← Linking.addNode lit [.int 1]
  let x ← Linking.addNode var [.text "x"]
  let two ← Linking.addNode lit [.int 2]
  let sum ← Linking.addNode add [.node x, .node two]
  let y ← Linking.addNode var [.text "y"]
  let root ← Linking.addNode call [.node func, .list [.node one, .node sum, .node y]]
  let _ ← Linking.stamp root
  let built ← stage root "f(1, x + 2, y)"
  Linking.remove one
  let removed ← stage root "after removing the first argument"
  let three ← Linking.addNode lit [.int 3]
  Linking.replace sum three
  let replaced ← stage root "after replacing x + 2 with 3"
  return [built, removed, replaced]

end Demo

def demo (json : Bool) : Outcome String :=
  match Demo.script.run Tree.empty with
  | .ok stages _ => String.join <$> stages.mapM (·.report json)
  | .error e _ => .error (.tree e)

/-- What an invocation prints. -/
def Invocation.run (read : Source → Option String) (i : Invocation) : Outcome String :=
  match i.task with
  | .walk options => walk read i.json options
  | .get options => get read i.json options
  | .demo => demo i.json

end Trellis.Command
