/-!
# Dictionaries in insertion order

A dictionary is the list of its entries. Looking up, writing and removing act on the first
entry of a name; a new name goes to the end. Names are distinct in every dictionary built by
`Dict.ofPairs` and `Dict.put`, but not by the type: `Dict.Distinct` says so where it matters.
-/

universe u v

namespace Trellis

structure Dict (α : Type u) where
  entries : List (String × α) := []
deriving Repr, DecidableEq, Inhabited

namespace Dict

variable {α : Type u} {β : Type v}

def empty : Dict α := ⟨[]⟩

def size (d : Dict α) : Nat := d.entries.length

def isEmpty (d : Dict α) : Bool := d.entries.isEmpty

def names (d : Dict α) : List String := d.entries.map (·.1)

def values (d : Dict α) : List α := d.entries.map (·.2)

/-- No name occurs twice. -/
def Distinct (d : Dict α) : Prop := d.names.Nodup

instance (d : Dict α) : Decidable d.Distinct := inferInstanceAs (Decidable d.names.Nodup)

/-- Position of the first entry called `name`. -/
def position? (d : Dict α) (name : String) : Option Nat := d.names.idxOf? name

/-- The entry at a position. -/
def entryAt? (d : Dict α) (i : Nat) : Option (String × α) := d.entries[i]?

/-- Value of the first entry called `name`. -/
def get? (d : Dict α) (name : String) : Option α := d.entries.lookup name

def contains (d : Dict α) (name : String) : Bool := (d.get? name).isSome

/-- Overwrite the first entry called `name`, keeping its place; `none` if there is none. -/
def set? (d : Dict α) (name : String) (value : α) : Option (Dict α) :=
  (go d.entries).map Dict.mk
where
  go : List (String × α) → Option (List (String × α))
    | [] => none
    | e :: rest => if e.1 = name then some ((name, value) :: rest) else (go rest).map (e :: ·)

/-- Write `value` under `name` and answer the value it displaced, if any. -/
def put (d : Dict α) (name : String) (value : α) : Option α × Dict α :=
  match d.set? name value with
  | some written => (d.get? name, written)
  | none => (none, ⟨d.entries ++ [(name, value)]⟩)

def insert (d : Dict α) (name : String) (value : α) : Dict α := (d.put name value).2

/-- Take the first entry called `name` out; later entries move up by one place. -/
def remove? (d : Dict α) (name : String) : Option (α × Dict α) :=
  (go d.entries).map fun (value, rest) => (value, ⟨rest⟩)
where
  go : List (String × α) → Option (α × List (String × α))
    | [] => none
    | e :: rest =>
      if e.1 = name then some (e.2, rest)
      else (go rest).map fun (value, kept) => (value, e :: kept)

/-- Insert the pairs one after another: a repeated name keeps its first place and its last value. -/
def ofPairs (pairs : List (String × α)) : Dict α :=
  pairs.foldl (fun d pair => d.insert pair.1 pair.2) empty

/-- Give every name a new value, which may depend on the name, keeping names and order. -/
def mapEntries (d : Dict α) (f : String → α → β) : Dict β :=
  ⟨d.entries.map fun e => (e.1, f e.1 e.2)⟩

/-- Apply `f` to every value, keeping names and order. -/
def mapValues (d : Dict α) (f : α → β) : Dict β := d.mapEntries fun _ => f

end Dict

end Trellis
