import Trellis.Key

/-!
# Paths and their text

A path is a list of keys from the root downwards. Its text joins the texts of its keys with
dots; reading splits at the dots outside quoted names and drops empty components.
-/

namespace Trellis

abbrev Path := List Key

namespace Path

/-- A path without its last key, and that key. -/
def splitLast? (p : Path) : Option (Path × Key) := p.getLast?.map fun k => (p.dropLast, k)

/-- The path one level up. -/
def parent? (p : Path) : Option Path := p.splitLast?.map (·.1)

/-- The keys' texts joined with dots. The empty path has the empty text. -/
def dotted (p : Path) : String := ".".intercalate (p.map Key.text)

/-- The text shown to people: `dotted`, but never empty. -/
def text (p : Path) : String := if p.isEmpty then "(empty path)" else p.dotted

/-- State of the splitter: the components finished and the one under way, both in reverse. A
quote at the start of a component opens a quoted name; the next quote that no backslash
precedes closes it. -/
structure Splitter where
  finished : List (List Char) := []
  current : List Char := []
  quoted : Bool := false
  escaped : Bool := false
deriving Repr, DecidableEq

namespace Splitter

def step (s : Splitter) (c : Char) : Splitter :=
  if s.escaped then { s with current := c :: s.current, escaped := false }
  else if c = '.' ∧ ¬ s.quoted then
    { s with finished := s.current.reverse :: s.finished, current := [] }
  else if c = '"' then { s with current := c :: s.current, quoted := s.current.isEmpty }
  else { s with current := c :: s.current, escaped := c = '\\' ∧ s.quoted }

def components (s : Splitter) : List (List Char) := (s.current.reverse :: s.finished).reverse

end Splitter

/-- The pieces of a text between the dots that are not inside a quoted name. -/
def split (cs : List Char) : List (List Char) :=
  (cs.foldl Splitter.step ({} : Splitter)).components

/-- Read a path. The error is about the first component that is no key. -/
def parse (s : String) : Except InvalidComponent Path :=
  ((split s.toList).filter (! ·.isEmpty)).mapM Key.ofComponent

end Path

end Trellis
