import Trellis.Path
import Mathlib.Data.List.Basic

/-!
# Written paths read back

A path is written key by key and read in two passes: the first cuts the text at the dots outside
quoted names, the second reads each piece as a key. The splitter is a machine with flags, so the
lemmas follow its runs: the written form of a key is one piece, which means that it takes the
machine from the start of a piece to the end of it and raises no flag on the way out. Joined by
dots, such pieces are cut apart again where they were joined.

Indices must lie below `Key.indexBound`; a larger one is written and then refused. Texts that are
not the written form of any path are not looked at here.
-/

namespace Trellis

namespace Key

/-! ## Indices -/

/-- Digits that are read go over into the value that the next ones are read with. -/
theorem readIndex_append {value next : Nat} {cs : List Char} (h : readIndex value cs = .ok next)
    (ds : List Char) : readIndex value (cs ++ ds) = readIndex next ds := by
  induction cs generalizing value with
  | nil =>
    obtain rfl : value = next := Except.ok.inj h
    rfl
  | cons c cs ih =>
    simp only [readIndex] at h
    split at h
    next hdigit =>
      split at h
      next hfits =>
        simp only [List.cons_append, readIndex, hdigit, hfits, ↓reduceIte]
        exact ih h
      next => cases h
    next => cases h

theorem readIndex_digit {value d : Nat} (hd : d < 10) (h : value * 10 + d < indexBound) :
    readIndex value [d.digitChar] = .ok (value * 10 + d) := by
  have hval : d.digitChar.toNat - 48 = d := by
    rw [Nat.toNat_digitChar_of_lt_ten hd]
    omega
  simp [readIndex, Nat.isDigit_digitChar, hd, hval, h]

theorem readIndex_toDigits {n : Nat} (h : n < indexBound) :
    readIndex 0 (Nat.toDigits 10 n) = .ok n := by
  induction n using Nat.strongRecOn with
  | ind n ih =>
    by_cases hn : n < 10
    · rw [Nat.toDigits_of_lt_base hn, readIndex_digit hn (by omega)]
      simp
    · -- The last digit is read with what the others make.
      have hfront := ih (n / 10) (by omega) (by omega)
      have hjoin : n / 10 * 10 + n % 10 = n := by omega
      rw [Nat.toDigits_of_base_le (by decide) (by omega), readIndex_append hfront,
        readIndex_digit (by omega) (by omega), hjoin]

/-! ## Keys -/

/-- The written inside of a quoted name, and the name: a backslash takes the next character
literally, and there is no quote besides. -/
inductive Inside : List Char → List Char → Prop where
  | nil : Inside [] []
  | plain {c : Char} {body name : List Char} : c ≠ '"' → c ≠ '\\' → Inside body name →
    Inside (c :: body) (c :: name)
  | literal {c : Char} {body name : List Char} : Inside body name →
    Inside ('\\' :: c :: body) (c :: name)

theorem inside_escape (cs : List Char) : Inside (escape cs) cs := by
  induction cs with
  | nil => exact .nil
  | cons c cs ih =>
    by_cases hc : c = '"' ∨ c = '\\'
    · have hcons : escape (c :: cs) = '\\' :: c :: escape cs := by simp [escape, hc]
      rw [hcons]
      exact .literal ih
    · have hcons : escape (c :: cs) = c :: escape cs := by simp [escape, hc]
      obtain ⟨hquote, hback⟩ := not_or.mp hc
      rw [hcons]
      exact .plain hquote hback ih

theorem unquote?_plain {c : Char} (hquote : c ≠ '"') (hback : c ≠ '\\') (read rest : List Char) :
    unquote? read (c :: rest) = unquote? (c :: read) rest := by
  rw [unquote?, if_neg hquote]
  · intro hbad _
    exact absurd hbad hback
  · intro _ _ hbad _
    exact absurd hbad hback

/-- A quoted name ends at its closing quote, which must be the last character. -/
theorem unquote?_inside {body name : List Char} (h : Inside body name) (read after : List Char) :
    unquote? read (body ++ '"' :: after) =
      if after.isEmpty then some (read.reverse ++ name) else none := by
  induction h generalizing read with
  | nil => simp [unquote?]
  | @plain c body name hquote hback _ ih =>
    rw [List.cons_append, unquote?_plain hquote hback, ih]
    simp
  | @literal c body name _ ih =>
    rw [List.cons_append, List.cons_append, unquote?, ih]
    simp

/-- What a name that is written bare looks like. -/
theorem bare_of_needsQuotes {cs : List Char} (h : needsQuotes cs = false) :
    ∃ c rest, cs = c :: rest ∧ c.isDigit = false ∧ c ≠ '"' ∧ '.' ∉ cs := by
  cases cs with
  | nil => simp [needsQuotes] at h
  | cons c rest =>
    simp only [needsQuotes, Bool.or_eq_false_iff, beq_eq_false_iff_ne, List.contains_eq_mem,
      decide_eq_false_iff_not] at h
    obtain ⟨⟨hdigit, hquote⟩, hdot⟩ := h
    exact ⟨c, rest, rfl, hdigit, hquote, hdot⟩

theorem toDigits_eq_cons (n : Nat) : ∃ c rest, Nat.toDigits 10 n = c :: rest ∧ c.isDigit := by
  cases h : Nat.toDigits 10 n with
  | nil => exact absurd h Nat.toDigits_ne_nil
  | cons c rest =>
    have hmem : c ∈ Nat.toDigits 10 n := by simp [h]
    exact ⟨c, rest, rfl, Nat.isDigit_of_mem_toDigits (by decide) (by decide) hmem⟩

theorem chars_of_bare {n : String} (h : needsQuotes n.toList = false) :
    (name n).chars = n.toList := by
  simp [chars, h]

theorem chars_ne_nil (k : Key) : k.chars ≠ [] := by
  cases k with
  | index i => exact Nat.toDigits_ne_nil
  | name n =>
    cases h : needsQuotes n.toList with
    | true => simp [chars, h]
    | false =>
      obtain ⟨c, rest, hcs, -⟩ := bare_of_needsQuotes h
      simp [chars_of_bare h, hcs]

/-- An index that the reader takes; names are all taken. -/
def InRange : Key → Prop
  | index i => i < indexBound
  | name _ => True

/-- A written key is read as itself. -/
theorem ofChars_chars {k : Key} (h : k.InRange) : ofChars k.chars = .ok k := by
  cases k with
  | index i =>
    obtain ⟨c, rest, hcs, hdigit⟩ := toDigits_eq_cons i
    have hquote : c ≠ '"' := by
      rintro rfl
      exact absurd hdigit (by decide)
    have hread := readIndex_toDigits (show i < indexBound from h)
    rw [hcs] at hread
    simp [chars, hcs, ofChars, hquote, hdigit, hread, Except.map]
  | name n =>
    cases hq : needsQuotes n.toList with
    | true =>
      have hname := unquote?_inside (inside_escape n.toList) [] []
      simp [chars, hq, ofChars, hname]
    | false =>
      obtain ⟨c, rest, hcs, hdigit, hquote, -⟩ := bare_of_needsQuotes hq
      have hback : String.ofList (c :: rest) = n := by rw [← hcs, String.ofList_toList]
      rw [chars_of_bare hq, hcs]
      simp [ofChars, hquote, hdigit, hback]

theorem ofComponent_chars {k : Key} (h : k.InRange) : ofComponent k.chars = .ok k := by
  simp [ofComponent, ofChars_chars h]

end Key

namespace Path

namespace Splitter

/-! ## Runs of the splitter -/

variable {s : Splitter} {cs : List Char}

/-- Outside quotes everything but a dot is taken as it is. A quote would open a quoted name at the
start of a piece only. -/
theorem foldl_bare (hq : s.quoted = false) (he : s.escaped = false) (hdot : '.' ∉ cs)
    (hfirst : s.current = [] → cs.head? ≠ some '"') :
    cs.foldl step s = { s with current := cs.reverse ++ s.current } := by
  induction cs generalizing s with
  | nil => simp
  | cons c cs ih =>
    obtain ⟨hc, hcs⟩ := not_or.mp (List.mem_cons.not.mp hdot)
    have hstep : step s c = { s with current := c :: s.current } := by
      by_cases hquote : c = '"'
      · have hopen : s.current ≠ [] := fun hnil => hfirst hnil (by simp [hquote])
        simp [step, he, hq, hquote, hopen]
      · simp [step, he, hq, Ne.symm hc, hquote]
    have hrest := ih (s := { s with current := c :: s.current }) hq he hcs (by simp)
    rw [List.foldl_cons, hstep, hrest]
    simp

/-- Inside quotes everything up to the closing one is taken as it is, dots included. -/
theorem foldl_inside {body name : List Char} (h : Key.Inside body name) (hq : s.quoted = true)
    (he : s.escaped = false) :
    body.foldl step s = { s with current := body.reverse ++ s.current } := by
  induction h generalizing s with
  | nil => simp
  | @plain c body name hquote hback _ ih =>
    have hstep : step s c = { s with current := c :: s.current } := by
      simp [step, he, hq, hquote, hback]
    have hrest := ih (s := { s with current := c :: s.current }) hq he
    rw [List.foldl_cons, hstep, hrest]
    simp
  | @literal c body name _ ih =>
    -- The backslash raises the flag, and the character behind it lowers it again.
    have hstep : step (step s '\\') c = { s with current := c :: '\\' :: s.current } := by
      simp [step, he, hq]
    have hrest := ih (s := { s with current := c :: '\\' :: s.current }) hq he
    rw [List.foldl_cons, List.foldl_cons, hstep, hrest]
    simp

/-- Characters that the splitter takes as one piece. -/
def Piece (cs : List Char) : Prop :=
  ∀ finished, cs.foldl step { finished } = { finished, current := cs.reverse }

theorem piece_of_bare (hdot : '.' ∉ cs) (hfirst : cs.head? ≠ some '"') : Piece cs := by
  intro finished
  rw [foldl_bare rfl rfl hdot fun _ => hfirst]
  simp

/-- From its opening quote to the one that closes it, and on to the next dot, a quoted component
is one piece. -/
theorem piece_quoted {body name tail : List Char} (h : Key.Inside body name) (hdot : '.' ∉ tail) :
    Piece ('"' :: body ++ '"' :: tail) := by
  intro finished
  have hopen : step { finished } '"' = { finished, current := ['"'], quoted := true } := by
    simp [step]
  have hinner := foldl_inside (s := { finished, current := ['"'], quoted := true }) h rfl rfl
  have hclose : step { finished, current := body.reverse ++ ['"'], quoted := true } '"' =
      { finished, current := '"' :: (body.reverse ++ ['"']) } := by
    simp [step]
  have htail := foldl_bare (s := { finished, current := '"' :: (body.reverse ++ ['"']) }) rfl rfl
    hdot (by simp)
  rw [List.cons_append, List.foldl_cons, List.foldl_append, List.foldl_cons, hopen, hinner, hclose,
    htail]
  simp

theorem piece_chars (k : Key) : Piece k.chars := by
  cases k with
  | index i =>
    obtain ⟨c, rest, hcs, hdigit⟩ := Key.toDigits_eq_cons i
    apply piece_of_bare
    · intro hdot
      exact absurd (Nat.isDigit_of_mem_toDigits (by decide) (by decide) hdot) (by decide)
    · rw [Key.chars, hcs, List.head?_cons]
      intro hquote
      obtain rfl := Option.some.inj hquote
      exact absurd hdigit (by decide)
  | name n =>
    cases hq : Key.needsQuotes n.toList with
    | true =>
      have hpiece := piece_quoted (Key.inside_escape n.toList) (List.not_mem_nil (a := '.'))
      simpa [Key.chars, hq] using hpiece
    | false =>
      obtain ⟨c, rest, hcs, -, hquote, hdot⟩ := Key.bare_of_needsQuotes hq
      rw [Key.chars_of_bare hq]
      exact piece_of_bare hdot (by simp [hcs, hquote])

/-- Pieces joined by dots come out as they went in, behind those finished before. -/
theorem components_join (first : List Char) (rest finished : List (List Char))
    (h : ∀ piece ∈ first :: rest, Piece piece) :
    ((['.'].intercalate (first :: rest)).foldl step { finished }).components =
      finished.reverse ++ first :: rest := by
  induction rest generalizing first finished with
  | nil =>
    rw [List.intercalate_singleton, h first (by simp)]
    simp [components]
  | cons second rest ih =>
    have hdot : step { finished, current := first.reverse } '.' =
        { finished := first :: finished } := by
      simp [step]
    have hrest := ih second (first :: finished) fun piece hp => h piece (List.mem_cons_of_mem _ hp)
    rw [List.intercalate_cons_cons, List.foldl_append, List.foldl_append, h first (by simp),
      List.foldl_cons, List.foldl_nil, hdot, hrest]
    simp

end Splitter

/-! ## Paths -/

theorem split_join {pieces : List (List Char)} (hne : pieces ≠ [])
    (h : ∀ piece ∈ pieces, Splitter.Piece piece) :
    split (['.'].intercalate pieces) = pieces := by
  cases pieces with
  | nil => exact absurd rfl hne
  | cons first rest =>
    have hjoin := Splitter.components_join first rest [] h
    simpa [split] using hjoin

theorem toList_dotted (p : Path) : p.dotted.toList = ['.'].intercalate (p.map Key.chars) := by
  rw [dotted, String.toList_intercalate, List.map_map]
  congr 1
  apply List.map_congr_left
  intro k _
  simp [Key.text]

theorem mapM_ofComponent_chars {p : Path} (h : ∀ k ∈ p, k.InRange) :
    (p.map Key.chars).mapM Key.ofComponent = .ok p := by
  induction p with
  | nil => rfl
  | cons k p ih =>
    have hrest := ih fun k' hk' => h k' (List.mem_cons_of_mem k hk')
    rw [List.map_cons, List.mapM_cons, Key.ofComponent_chars (h k (by simp)), hrest]
    rfl

/-- The dotted text of a path is read as the path. -/
theorem parse_dotted {p : Path} (h : ∀ k ∈ p, k.InRange) : Path.parse p.dotted = .ok p := by
  have hpieces : (split p.dotted.toList).filter (! ·.isEmpty) = p.map Key.chars := by
    cases p with
    | nil => rfl
    | cons k p =>
      rw [toList_dotted, split_join (by simp)]
      · apply List.filter_eq_self.mpr
        intro cs hcs
        obtain ⟨k', -, rfl⟩ := List.mem_map.mp hcs
        simp [k'.chars_ne_nil]
      · intro cs hcs
        obtain ⟨k', -, rfl⟩ := List.mem_map.mp hcs
        exact Splitter.piece_chars k'
  rw [Path.parse, hpieces, mapM_ofComponent_chars h]

/-- Whatever names a path is made of, its dotted text is read as the path, and so is the text shown
to people unless the path is empty. -/
theorem written_paths_read_back (p : Path) (h : ∀ i, .index i ∈ p → i < Key.indexBound) :
    Path.parse p.dotted = .ok p ∧ (p ≠ [] → Path.parse p.text = .ok p) := by
  have hrange : ∀ k ∈ p, k.InRange := by
    intro k hk
    cases k with
    | index i => exact h i hk
    | name n => trivial
  refine ⟨parse_dotted hrange, ?_⟩
  intro hne
  have htext : p.text = p.dotted := by simp [text, hne]
  rw [htext]
  exact parse_dotted hrange

/-- Names that need quotes beside one with quotes inside, and the greatest index. -/
def awkward : Path :=
  [.name "2024", .name "a.b", .index 18446744073709551615, .name "", .name "say \"hi\"",
    .name "\"x\\y", .name "\\"]

theorem written_paths_read_back_awkward :
    (∀ i, .index i ∈ awkward → i < Key.indexBound) ∧
    awkward.text = "\"2024\".\"a.b\".18446744073709551615.\"\".say \"hi\".\"\\\"x\\\\y\".\\" ∧
    Path.parse awkward.text = .ok awkward := by
  have hrange : ∀ i, .index i ∈ awkward → i < Key.indexBound := by
    intro i hi
    obtain rfl : i = 18446744073709551615 := by simpa [awkward] using hi
    decide
  exact ⟨hrange, by decide +kernel, (written_paths_read_back awkward hrange).2 (by decide)⟩

end Path

end Trellis
