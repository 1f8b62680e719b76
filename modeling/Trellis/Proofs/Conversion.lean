import Trellis.Proofs.Documents
import Trellis.Proofs.Ending
import Trellis.Proofs.Growing

/-!
# Documents and plain values

A document is converted to a value, and a value back to a document. On documents that repeat no
name and hold 64-bit integers only, and on plain values, the two conversions undo each other: every
object becomes a map with its members in their order, and the other way round. No tree has a say in
it, since there are no nodes. Any other number stops the conversion, at the first one in the order
in which the document is written.
-/

namespace Trellis

/-- The error of a computation that fails. -/
def fault? {ε α : Type} : Except ε α → Option ε
  | .ok _ => none
  | .error e => some e

/-- Two computations, one after the other, fail with the first error that there is. -/
theorem fault?_pair {ε α β γ : Type} (x : Except ε α) (y : Except ε β) (f : α → β → γ) :
    fault? (do let a ← x; let b ← y; return f a b) = (fault? x).or (fault? y) := by
  cases x <;> cases y <;> rfl

theorem fault?_map {ε α β : Type} (x : Except ε α) (f : α → β) :
    fault? (do let a ← x; return f a) = fault? x := by
  cases x <;> rfl

theorem fault?_eq_none {ε α : Type} {x : Except ε α} : fault? x = none ↔ ∃ a, x = .ok a := by
  cases x <;> simp [fault?]

theorem fault?_eq_some {ε α : Type} {x : Except ε α} {e : ε} :
    fault? x = some e ↔ x = .error e := by
  cases x <;> simp [fault?]

namespace Json

/-! ## Numbers -/

namespace Number

variable {n : Number}

/-- A number is a 64-bit integer. -/
def Fits (n : Number) : Prop := ∃ i : Int64, n = .integer i.toInt

theorem toInt64?_eq_some {i : Int64} : n.toInt64? = some i ↔ n = .integer i.toInt := by
  constructor
  · intro h
    cases n with
    | real x => cases h
    | integer k =>
      rw [toInt64?] at h
      split at h
      next hk =>
        obtain rfl := Option.some.inj h
        have hlow : -2 ^ 63 ≤ k := hk.1
        have hhigh : k < 2 ^ 63 := Int.lt_of_le_sub_one hk.2
        rw [Int64.toInt_ofInt_of_le hlow hhigh]
      next => cases h
  · rintro rfl
    exact toInt64?_toInt i

theorem fits_iff : n.Fits ↔ n.toInt64?.isSome := by
  simp only [Option.isSome_iff_exists, toInt64?_eq_some, Fits]

end Number

mutual

/-- The numbers of a document, in the order in which it is written. -/
def numbers : Json → List Number
  | number n => [n]
  | array items => numbersItems items
  | object ⟨members⟩ => numbersMembers members
  | _ => []

def numbersItems : List Json → List Number
  | [] => []
  | j :: rest => numbers j ++ numbersItems rest

def numbersMembers : List (String × Json) → List Number
  | [] => []
  | (_, j) :: rest => numbers j ++ numbersMembers rest

end

mutual

/-- Conversion fails at the first number that is no 64-bit integer. -/
theorem fault?_toValue : ∀ j : Json,
    fault? j.toValue = j.numbers.find? (·.toInt64?.isNone)
  | null => rfl
  | bool _ => rfl
  | string _ => rfl
  | number n => by
    rw [toValue, numbers, List.find?_singleton]
    cases n.toInt64? <;> rfl
  | array items => by
    rw [toValue, numbers, fault?_map, fault?_toValueItems items]
  | object ⟨members⟩ => by
    rw [toValue, numbers, fault?_map, fault?_toValueMembers members]

theorem fault?_toValueItems : ∀ items : List Json,
    fault? (toValueItems items) = (numbersItems items).find? (·.toInt64?.isNone)
  | [] => rfl
  | j :: rest => by
    rw [toValueItems, numbersItems, fault?_pair, List.find?_append, fault?_toValue j,
      fault?_toValueItems rest]

theorem fault?_toValueMembers : ∀ members : List (String × Json),
    fault? (toValueMembers members) = (numbersMembers members).find? (·.toInt64?.isNone)
  | [] => rfl
  | (n, j) :: rest => by
    rw [toValueMembers, numbersMembers, fault?_pair, List.find?_append, fault?_toValue j,
      fault?_toValueMembers rest]

end

theorem toValue_eq_error {j : Json} {n : Number} :
    j.toValue = .error n ↔ ∃ before after, j.numbers = before ++ n :: after ∧
      (∀ m ∈ before, m.Fits) ∧ ¬ n.Fits := by
  rw [← fault?_eq_some, fault?_toValue, List.find?_eq_some_iff_append]
  simp only [Number.fits_iff, Option.isNone_iff_eq_none, Option.not_isSome_iff_eq_none,
    Option.not_isNone]
  constructor
  · rintro ⟨hn, before, after, hsplit, hbefore⟩
    exact ⟨before, after, hsplit, hbefore, hn⟩
  · rintro ⟨before, after, hsplit, hbefore, hn⟩
    exact ⟨hn, before, after, hsplit, hbefore⟩

theorem exists_toValue_iff {j : Json} :
    (∃ v, j.toValue = .ok v) ↔ ∀ n ∈ j.numbers, n.Fits := by
  rw [← fault?_eq_none, fault?_toValue, List.find?_eq_none]
  simp only [Number.fits_iff, Option.isNone_iff_eq_none, Option.isSome_iff_ne_none, ne_eq]

/-- What is said of a document that is not converted. -/
theorem refused_iff {j : Json} {said : String} :
    j.toValue.mapError Number.unsupported = .error said ↔
      ∃ n, j.toValue = .error n ∧ said = n.unsupported := by
  cases j.toValue with
  | ok v => simp [Except.mapError]
  | error n => simp [Except.mapError, eq_comm]

/-! ## Distinct names -/

mutual

/-- No object in a document has a name twice. -/
def Distinct : Json → Prop
  | array items => DistinctItems items
  | object ⟨members⟩ => (Dict.mk members).Distinct ∧ DistinctMembers members
  | _ => True

def DistinctItems : List Json → Prop
  | [] => True
  | j :: rest => j.Distinct ∧ DistinctItems rest

def DistinctMembers : List (String × Json) → Prop
  | [] => True
  | (_, j) :: rest => j.Distinct ∧ DistinctMembers rest

end

/-! ## There and back -/

section Inverse

variable (node : NodeId → Json)

theorem names_of_toValueMembers {members : List (String × Json)} {pairs : List (String × Value)}
    (h : toValueMembers members = .ok pairs) : pairs.map (·.1) = members.map (·.1) := by
  induction members generalizing pairs with
  | nil =>
    obtain rfl : [] = pairs := by simpa [toValueMembers] using h
    rfl
  | cons e rest ih =>
    rw [toValueMembers] at h
    obtain ⟨v, -, h⟩ := bind_eq_ok.mp h
    obtain ⟨others, hothers, h⟩ := bind_eq_ok.mp h
    obtain rfl := Except.ok.inj h
    rw [List.map_cons, List.map_cons, ih hothers]

mutual

/-- The value of a document is written as the document. -/
theorem toJsonWith_of_toValue : ∀ (j : Json) {v : Value}, j.Distinct → j.toValue = .ok v →
    v.toJsonWith node = j
  | null, v, _, h => by
    obtain rfl : Value.null = v := by simpa [toValue] using h
    rfl
  | bool b, v, _, h => by
    obtain rfl : Value.bool b = v := by simpa [toValue] using h
    rfl
  | string s, v, _, h => by
    obtain rfl : Value.text s = v := by simpa [toValue] using h
    rfl
  | number n, v, _, h => by
    rw [toValue] at h
    cases hn : n.toInt64? with
    | none => simp [hn] at h
    | some i =>
      obtain rfl : Value.int i = v := by simpa [hn] using h
      rw [Value.toJsonWith, ofInt, ← Number.toInt64?_eq_some.mp hn]
  | array items, v, hd, h => by
    rw [toValue] at h
    obtain ⟨values, hvalues, hv⟩ := bind_eq_ok.mp h
    obtain rfl := Except.ok.inj hv
    rw [Value.toJsonWith, toJsonItems_of_toValueItems items hd hvalues]
  | object ⟨members⟩, v, hd, h => by
    rw [toValue] at h
    obtain ⟨pairs, hpairs, hv⟩ := bind_eq_ok.mp h
    obtain rfl := Except.ok.inj hv
    -- With distinct names, inserting the pairs one after another leaves them as they stand.
    rw [hd.1.ofPairs (names_of_toValueMembers hpairs), Value.toJsonWith,
      toJsonEntries_of_toValueMembers members hd.2 hpairs, hd.1.ofPairs rfl]

theorem toJsonItems_of_toValueItems : ∀ (items : List Json) {values : List Value},
    DistinctItems items → toValueItems items = .ok values → Value.toJsonItems node values = items
  | [], values, _, h => by
    obtain rfl : [] = values := by simpa [toValueItems] using h
    rfl
  | j :: rest, values, hd, h => by
    rw [toValueItems] at h
    obtain ⟨v, hv, h⟩ := bind_eq_ok.mp h
    obtain ⟨others, hothers, h⟩ := bind_eq_ok.mp h
    obtain rfl := Except.ok.inj h
    rw [Value.toJsonItems, toJsonWith_of_toValue j hd.1 hv,
      toJsonItems_of_toValueItems rest hd.2 hothers]

theorem toJsonEntries_of_toValueMembers : ∀ (members : List (String × Json))
    {pairs : List (String × Value)}, DistinctMembers members →
    toValueMembers members = .ok pairs → Value.toJsonEntries node pairs = members
  | [], pairs, _, h => by
    obtain rfl : [] = pairs := by simpa [toValueMembers] using h
    rfl
  | (n, j) :: rest, pairs, hd, h => by
    rw [toValueMembers] at h
    obtain ⟨v, hv, h⟩ := bind_eq_ok.mp h
    obtain ⟨others, hothers, h⟩ := bind_eq_ok.mp h
    obtain rfl := Except.ok.inj h
    rw [Value.toJsonEntries, toJsonWith_of_toValue j hd.1 hv,
      toJsonEntries_of_toValueMembers rest hd.2 hothers]

end

end Inverse

end Json

namespace Value

section Inverse

variable (node : NodeId → Json)

theorem names_toJsonEntries (entries : List (String × Value)) :
    (toJsonEntries node entries).map (·.1) = entries.map (·.1) := by
  induction entries with
  | nil => rfl
  | cons e rest ih => rw [toJsonEntries, List.map_cons, List.map_cons, ih]

mutual

/-- The document of a plain value repeats no name, and its value is the one that was written. -/
theorem toValue_toJsonWith : ∀ v : Value, v.held = [] → v.Distinct →
    (v.toJsonWith node).Distinct ∧ (v.toJsonWith node).toValue = .ok v
  | null, _, _ => ⟨trivial, rfl⟩
  | bool _, _, _ => ⟨trivial, rfl⟩
  | text _, _, _ => ⟨trivial, rfl⟩
  | int i, _, _ => by
    refine ⟨trivial, ?_⟩
    rw [toJsonWith, Json.ofInt, Json.toValue, Json.Number.toInt64?_toInt]
  | list items, hfree, hd => by
    rw [held_list, List.flatMap_eq_nil_iff] at hfree
    obtain ⟨hdistinct, hvalues⟩ := toValueItems_toJsonItems items hfree hd
    rw [toJsonWith, Json.toValue, hvalues]
    exact ⟨hdistinct, rfl⟩
  | map ⟨entries⟩, hfree, hd => by
    rw [held_map, List.flatMap_eq_nil_iff] at hfree
    obtain ⟨hdistinct, hpairs⟩ := toValueMembers_toJsonEntries entries hfree hd.2
    have hnames := names_toJsonEntries node entries
    rw [toJsonWith, hd.1.ofPairs hnames, Json.toValue, hpairs]
    refine ⟨⟨?_, hdistinct⟩, ?_⟩
    · rw [Dict.Distinct, Dict.names, hnames]
      exact hd.1
    · exact congrArg (fun d => Except.ok (map d)) (hd.1.ofPairs rfl)
  | .node id, hfree, _ => by simp at hfree

theorem toValueItems_toJsonItems : ∀ items : List Value, (∀ v ∈ items, v.held = []) →
    DistinctItems items →
    Json.DistinctItems (toJsonItems node items) ∧
      Json.toValueItems (toJsonItems node items) = .ok items
  | [], _, _ => ⟨trivial, rfl⟩
  | v :: rest, hfree, hd => by
    obtain ⟨hfirst, hv⟩ := toValue_toJsonWith v (hfree v (by simp)) hd.1
    obtain ⟨hothers, hrest⟩ := toValueItems_toJsonItems rest
      (fun w hw => hfree w (List.mem_cons_of_mem v hw)) hd.2
    rw [toJsonItems, Json.toValueItems, hv, hrest]
    exact ⟨⟨hfirst, hothers⟩, rfl⟩

theorem toValueMembers_toJsonEntries : ∀ entries : List (String × Value),
    (∀ e ∈ entries, e.2.held = []) → DistinctEntries entries →
    Json.DistinctMembers (toJsonEntries node entries) ∧
      Json.toValueMembers (toJsonEntries node entries) = .ok entries
  | [], _, _ => ⟨trivial, rfl⟩
  | (n, v) :: rest, hfree, hd => by
    obtain ⟨hfirst, hv⟩ := toValue_toJsonWith v (hfree (n, v) (by simp)) hd.1
    obtain ⟨hothers, hrest⟩ := toValueMembers_toJsonEntries rest
      (fun e he => hfree e (List.mem_cons_of_mem (n, v) he)) hd.2
    rw [toJsonEntries, Json.toValueMembers, hv, hrest]
    exact ⟨⟨hfirst, hothers⟩, rfl⟩

end

end Inverse

end Value

namespace Json

/-- A document is refused just when it holds a number that is no 64-bit integer, and what is said
names the first such number. Any other document that repeats no name has a plain value, which every
tree writes as the document. The other way round, every tree writes a plain value as a document of
this kind, whose value it is. -/
theorem conversions_are_inverse :
    (∀ j : Json,
      ((∃ said, j.toValue.mapError Number.unsupported = .error said) ↔
        ∃ n ∈ j.numbers, ¬ n.Fits) ∧
      (∀ said, j.toValue.mapError Number.unsupported = .error said →
        ∃ before n after, j.numbers = before ++ n :: after ∧ (∀ m ∈ before, m.Fits) ∧ ¬ n.Fits ∧
          said = "Unsupported number " ++ n.text ++ ": only 64-bit integers are allowed") ∧
      (j.Distinct → (∀ n ∈ j.numbers, n.Fits) →
        ∃ v, j.toValue = .ok v ∧ v.Plain ∧ ∀ t : Tree, t.toJson v = j)) ∧
    ∀ (t : Tree) (v : Value), v.Plain →
      (t.toJson v).Distinct ∧ (∀ n ∈ (t.toJson v).numbers, n.Fits) ∧
        (t.toJson v).toValue = .ok v := by
  constructor
  · intro j
    refine ⟨?_, ?_, ?_⟩
    · simp only [refused_iff]
      constructor
      · rintro ⟨said, n, hn, -⟩
        obtain ⟨before, after, hsplit, -, hnot⟩ := toValue_eq_error.mp hn
        exact ⟨n, by simp [hsplit], hnot⟩
      · rintro ⟨n, hn, hnot⟩
        cases hv : j.toValue with
        | ok v => exact absurd (exists_toValue_iff.mp ⟨v, hv⟩ n hn) hnot
        | error m => exact ⟨m.unsupported, m, rfl, rfl⟩
    · intro said h
      obtain ⟨n, hn, rfl⟩ := refused_iff.mp h
      obtain ⟨before, after, hsplit, hbefore, hnot⟩ := toValue_eq_error.mp hn
      exact ⟨before, n, after, hsplit, hbefore, hnot, rfl⟩
    · intro hd hfits
      obtain ⟨v, hv⟩ := exists_toValue_iff.mpr hfits
      exact ⟨v, hv, j.plain_of_toValue hv, fun t => toJsonWith_of_toValue _ j hd hv⟩
  · intro t v hv
    obtain ⟨hdistinct, hvalue⟩ := v.toValue_toJsonWith (t.nodeJson t.nesting) hv.free hv.distinct
    exact ⟨hdistinct, exists_toValue_iff.mp ⟨v, hvalue⟩, hvalue⟩

/-- An object in an array in an object, with names that come up again one level down. -/
def nested : Json :=
  .object ⟨[("b", .array [.ofInt 1, .object ⟨[("b", .null), ("a", .string "x")]⟩]),
    ("a", .ofInt (-9223372036854775808))]⟩

theorem conversions_are_inverse_nested :
    nested.Distinct ∧ (∀ n ∈ nested.numbers, n.Fits) ∧
    (∃ v, nested.toValue = .ok v ∧ v.Plain ∧ ∀ t : Tree, t.toJson v = nested) ∧
    (∃ n ∈ (array [nested, .ofInt 9223372036854775808, .ofInt 18446744073709551615]).numbers,
      ¬ n.Fits) ∧
    Tree.sharedNames.Plain ∧
    ∀ t : Tree, (t.toJson Tree.sharedNames).toValue = .ok Tree.sharedNames := by
  have hd : nested.Distinct :=
    ⟨by decide, ⟨trivial, ⟨by decide, trivial, trivial, trivial⟩, trivial⟩, trivial, trivial⟩
  have hfits : ∀ n ∈ nested.numbers, n.Fits := by
    simp only [Number.fits_iff]
    decide
  have herror : (array [nested, .ofInt 9223372036854775808,
      .ofInt 18446744073709551615]).toValue = .error (.integer 9223372036854775808) := rfl
  have hplain : Tree.sharedNames.Plain := ⟨by decide, by decide⟩
  obtain ⟨hdocuments, hvalues⟩ := conversions_are_inverse
  obtain ⟨-, -, hvalue⟩ := hdocuments nested
  exact ⟨hd, hfits, hvalue hd hfits, (hdocuments _).1.mp ⟨_, refused_iff.mpr ⟨_, herror, rfl⟩⟩,
    hplain, fun t => (hvalues t _ hplain).2.2⟩

end Json

end Trellis
