import Trellis.Proofs.PathText
import Mathlib.Data.List.TakeWhile

/-!
# The grammar of path texts

A path text is gone over twice: a machine with flags cuts it into pieces, and each piece is then
read as a key on its own. `Path.read?` goes over it once, from left to right, and stops at the first
component that is none. Both read the same paths. They could part over the end of a quoted name,
which the machine and the reader of quoted names look for separately: text may go on behind the
closing quote, and a quote that is never closed takes the dots behind it into its piece.

A text is refused just where some piece is no key, and the error is about the first such piece.
-/

namespace Trellis

/-! ## One pass -/

namespace Key

variable {cs name after : List Char}

/-- The name that a quoted component holds, given the text behind its opening quote, and the text
behind its closing quote. A backslash takes the next character literally. -/
def quotedName? : List Char → Option (List Char × List Char)
  | [] => none
  | c :: rest =>
    if c = '"' then some ([], rest)
    else if c = '\\' then
      match rest with
      | [] => none
      | d :: rest => (quotedName? rest).map fun (name, after) => (d :: name, after)
    else (quotedName? rest).map fun (name, after) => (c :: name, after)

theorem inside_of_quotedName? (h : quotedName? cs = some (name, after)) :
    ∃ body, cs = body ++ '"' :: after ∧ Inside body name := by
  fun_induction quotedName? cs generalizing name with
  | case1 => cases h
  | case2 rest =>
    obtain ⟨rfl, rfl⟩ := Prod.mk.inj (Option.some.inj h)
    exact ⟨[], rfl, .nil⟩
  | case3 => cases h
  | case4 d rest hquote ih =>
    obtain ⟨⟨inner, behind⟩, hinner, heq⟩ := Option.map_eq_some_iff.mp h
    obtain ⟨rfl, rfl⟩ := Prod.mk.inj heq
    obtain ⟨body, rfl, hbody⟩ := ih hinner
    exact ⟨'\\' :: d :: body, rfl, .literal hbody⟩
  | case5 c rest hquote hback ih =>
    obtain ⟨⟨inner, behind⟩, hinner, heq⟩ := Option.map_eq_some_iff.mp h
    obtain ⟨rfl, rfl⟩ := Prod.mk.inj heq
    obtain ⟨body, rfl, hbody⟩ := ih hinner
    exact ⟨c :: body, rfl, .plain hquote hback hbody⟩

/-- The index that digits denote. -/
def index? (cs : List Char) : Option Key :=
  let i := Nat.ofDigitChars 10 cs 0
  if cs.all Char.isDigit ∧ i < indexBound then some (.index i) else none

end Key

namespace Path

/-- The key that a text not starting with a dot starts with, and the text behind it, which is empty
or starts with a dot. -/
def first? (c : Char) (rest : List Char) : Option (Key × List Char) :=
  if c = '"' then
    match Key.quotedName? rest with
    | some (name, after) =>
      if after = [] ∨ after.head? = some '.' then some (.name (String.ofList name), after) else none
    | none => none
  else
    let component := c :: rest.takeWhile (· ≠ '.')
    let after := rest.dropWhile (· ≠ '.')
    if c.isDigit then (Key.index? component).map (·, after)
    else some (.name (String.ofList component), after)

theorem length_of_first? {c : Char} {rest after : List Char} {k : Key}
    (h : first? c rest = some (k, after)) : after.length ≤ rest.length := by
  rw [first?] at h
  split at h
  next =>
    split at h
    next name tail hname =>
      split at h
      next =>
        obtain ⟨-, rfl⟩ := Prod.mk.inj (Option.some.inj h)
        obtain ⟨body, rfl, -⟩ := Key.inside_of_quotedName? hname
        simp only [List.length_append, List.length_cons]
        omega
      next => cases h
    next => cases h
  next =>
    have hle := List.length_dropWhile_le (· ≠ '.') rest
    split at h
    next =>
      obtain ⟨k', -, heq⟩ := Option.map_eq_some_iff.mp h
      obtain ⟨-, rfl⟩ := Prod.mk.inj heq
      exact hle
    next =>
      obtain ⟨-, rfl⟩ := Prod.mk.inj (Option.some.inj h)
      exact hle

/-- Read a path in one pass. -/
def read? : List Char → Option Path
  | [] => some []
  | c :: rest =>
    if c = '.' then read? rest
    else
      match _ : first? c rest with
      | some (key, after) => (read? after).map (key :: ·)
      | none => none
termination_by cs => cs.length
decreasing_by
  · simp
  · have := length_of_first? ‹first? c rest = _›
    simp only [List.length_cons]
    omega

end Path

/-! ## Pieces as keys -/

namespace Key

variable {cs : List Char}

/-- A name that is not closed is refused. -/
theorem unquote?_of_open (h : quotedName? cs = none) (read : List Char) :
    unquote? read cs = none := by
  fun_induction quotedName? cs generalizing read with
  | case1 => rfl
  | case2 rest => cases h
  | case3 => simp [unquote?]
  | case4 d rest hquote ih =>
    rw [unquote?]
    exact ih (Option.map_eq_none_iff.mp h) _
  | case5 c rest hquote hback ih =>
    rw [unquote?_plain hquote hback]
    exact ih (Option.map_eq_none_iff.mp h) _

theorem ofComponent_open {rest : List Char} (h : quotedName? rest = none) :
    (ofComponent ('"' :: rest)).toOption = none := by
  simp [ofComponent, ofChars, unquote?_of_open h, Except.toOption]

theorem ofComponent_quoted {body name : List Char} (h : Inside body name) (tail : List Char) :
    (ofComponent ('"' :: body ++ '"' :: tail)).toOption =
      if tail = [] then some (.name (String.ofList name)) else none := by
  have hname := unquote?_inside h [] tail
  by_cases htail : tail = []
  · subst htail
    simp [ofComponent, ofChars, hname, Except.toOption]
  · simp [ofComponent, ofChars, hname, htail, Except.toOption]

theorem le_ofDigitChars (cs : List Char) (value : Nat) : value ≤ Nat.ofDigitChars 10 cs value := by
  induction cs generalizing value with
  | nil => exact Nat.le_refl _
  | cons c cs ih =>
    rw [Nat.ofDigitChars_cons]
    have := ih (10 * value + (c.toNat - '0'.toNat))
    omega

/-- Digits are read as the number they denote, unless a character is no digit or the number
is too large. -/
theorem readIndex_eq_ok {value n : Nat} (hv : value < indexBound) :
    readIndex value cs = .ok n ↔
      cs.all Char.isDigit ∧ Nat.ofDigitChars 10 cs value = n ∧ n < indexBound := by
  induction cs generalizing value with
  | nil =>
    simp only [readIndex, Except.ok.injEq, List.all_nil, Nat.ofDigitChars_nil, true_and]
    constructor
    · rintro rfl
      exact ⟨rfl, hv⟩
    · exact fun h => h.1
  | cons c cs ih =>
    rw [Nat.ofDigitChars_cons, List.all_cons, readIndex, Nat.mul_comm 10 value]
    generalize c.toNat - '0'.toNat = d
    by_cases hdigit : c.isDigit
    · by_cases hfits : value * 10 + d < indexBound
      · simp [hdigit, hfits, ih hfits]
      · have := le_ofDigitChars cs (value * 10 + d)
        simp only [hdigit, hfits, ↓reduceIte, reduceCtorEq, Bool.true_and, false_iff]
        rintro ⟨-, rfl, hn⟩
        omega
    · simp [hdigit]

theorem ofComponent_digits {c : Char} {rest : List Char} (hdigit : c.isDigit) :
    (ofComponent (c :: rest)).toOption = index? (c :: rest) := by
  have hquote : c ≠ '"' := by
    rintro rfl
    exact absurd hdigit (by decide)
  have hofChars : ofChars (c :: rest) = (readIndex 0 (c :: rest)).map index := by
    simp [ofChars, hquote, hdigit]
  have hread : ∀ n, readIndex 0 (c :: rest) = .ok n ↔ _ := fun _ => readIndex_eq_ok (by decide)
  rw [ofComponent, hofChars, index?]
  cases hr : readIndex 0 (c :: rest) with
  | ok n =>
    obtain ⟨hall, rfl, hn⟩ := (hread n).mp hr
    simp [Except.map, Except.toOption, hall, hn]
  | error fault =>
    rw [if_neg]
    · rfl
    · rintro ⟨hall, hn⟩
      have hok := (hread _).mpr ⟨hall, rfl, hn⟩
      cases hr.symm.trans hok

end Key

namespace Path

/-! ## Cutting off the first piece -/

namespace Splitter

/-- Behind a quote that is never closed everything is one piece, dots included. -/
theorem components_of_open {s : Splitter} {cs : List Char} (h : Key.quotedName? cs = none)
    (hq : s.quoted = true) (he : s.escaped = false) :
    (cs.foldl step s).components = s.finished.reverse ++ [s.current.reverse ++ cs] := by
  fun_induction Key.quotedName? cs generalizing s with
  | case1 => simp [components]
  | case2 rest => cases h
  | case3 => simp [components, step, he, hq]
  | case4 d rest hquote ih =>
    have hstep : step (step s '\\') d = { s with current := d :: '\\' :: s.current } := by
      simp [step, he, hq]
    have hrest := ih (s := { s with current := d :: '\\' :: s.current })
      (Option.map_eq_none_iff.mp h) hq he
    rw [List.foldl_cons, List.foldl_cons, hstep, hrest]
    simp
  | case5 c rest hquote hback ih =>
    have hstep : step s c = { s with current := c :: s.current } := by
      simp [step, he, hq, hquote, hback]
    have hrest := ih (s := { s with current := c :: s.current })
      (Option.map_eq_none_iff.mp h) hq he
    rw [List.foldl_cons, hstep, hrest]
    simp

/-- The machine never looks at the pieces it has finished. -/
theorem components_behind (finished : List (List Char)) (s : Splitter) (cs : List Char) :
    (cs.foldl step { s with finished := s.finished ++ finished }).components =
      finished.reverse ++ (cs.foldl step s).components := by
  induction cs generalizing s with
  | nil => simp [components]
  | cons c cs ih =>
    have hstep : step { s with finished := s.finished ++ finished } c =
        { step s c with finished := (step s c).finished ++ finished } := by
      simp only [step]
      split_ifs <;> rfl
    rw [List.foldl_cons, List.foldl_cons, hstep, ih]

end Splitter

/-- The pieces that are read as keys. -/
def pieces (cs : List Char) : List (List Char) := (split cs).filter (! ·.isEmpty)

theorem split_piece {piece : List Char} (h : Splitter.Piece piece) : split piece = [piece] := by
  simp [split, h [], Splitter.components]

/-- A dot behind a piece ends it. -/
theorem split_dot {piece : List Char} (h : Splitter.Piece piece) (rest : List Char) :
    split (piece ++ '.' :: rest) = piece :: split rest := by
  have hdot : Splitter.step { current := piece.reverse } '.' = { finished := [] ++ [piece] } := by
    simp [Splitter.step]
  have hbehind := Splitter.components_behind [piece] {} rest
  rw [split, List.foldl_append, h [], List.foldl_cons, hdot]
  simpa [split] using hbehind

theorem pieces_dot (rest : List Char) : pieces ('.' :: rest) = pieces rest := by
  have hempty : Splitter.Piece [] := fun _ => rfl
  have hsplit := split_dot hempty rest
  rw [pieces, show '.' :: rest = [] ++ '.' :: rest from rfl, hsplit]
  rfl

/-- A text that is cut at a dot, or not at all. -/
theorem pieces_cut {piece after : List Char} (h : Splitter.Piece piece) (hne : piece ≠ [])
    (hafter : after = [] ∨ ∃ rest, after = '.' :: rest) :
    pieces (piece ++ after) = piece :: pieces after := by
  rcases hafter with rfl | ⟨rest, rfl⟩
  · rw [List.append_nil, pieces, split_piece h]
    simp [hne, pieces, split, Splitter.components]
  · rw [pieces_dot, pieces, split_dot h]
    simp [hne, pieces]

/-- Behind a quote that is never closed everything is one piece. -/
theorem pieces_open {rest : List Char} (h : Key.quotedName? rest = none) :
    pieces ('"' :: rest) = ['"' :: rest] := by
  have hsplit : split ('"' :: rest) = ['"' :: rest] :=
    Splitter.components_of_open (s := { current := ['"'], quoted := true }) h rfl rfl
  rw [pieces, hsplit]
  rfl

theorem dropWhile_dot (cs : List Char) :
    cs.dropWhile (· ≠ '.') = [] ∨ ∃ rest, cs.dropWhile (· ≠ '.') = '.' :: rest := by
  cases h : cs.dropWhile (· ≠ '.') with
  | nil => exact .inl rfl
  | cons c rest =>
    have hhead := List.head?_dropWhile_not (· ≠ '.') cs
    rw [h] at hhead
    obtain rfl : c = '.' := by simpa using hhead
    exact .inr ⟨rest, rfl⟩

theorem dot_not_mem_takeWhile (cs : List Char) : '.' ∉ cs.takeWhile (· ≠ '.') := by
  intro h
  simpa using List.mem_takeWhile_imp h

/-- A text that does not start with a dot starts with a piece. One pass finds there the key that the
piece is read as, and goes on where the next piece begins. -/
theorem pieces_first {c : Char} (hc : c ≠ '.') (rest : List Char) :
    ∃ piece after, pieces (c :: rest) = piece :: pieces after ∧
      first? c rest = (Key.ofComponent piece).toOption.map (·, after) := by
  by_cases hquote : c = '"'
  · subst hquote
    cases hname : Key.quotedName? rest with
    | none =>
      refine ⟨'"' :: rest, [], pieces_open hname, ?_⟩
      rw [Key.ofComponent_open hname]
      simp [first?, hname]
    | some found =>
      obtain ⟨name, tail⟩ := found
      obtain ⟨body, rfl, hbody⟩ := Key.inside_of_quotedName? hname
      -- What stands between the closing quote and the next dot belongs to the piece and spoils it.
      refine ⟨'"' :: body ++ '"' :: tail.takeWhile (· ≠ '.'), tail.dropWhile (· ≠ '.'), ?_, ?_⟩
      · have hpiece := Splitter.piece_quoted hbody (dot_not_mem_takeWhile tail)
        have hpieces := pieces_cut hpiece (by simp) (dropWhile_dot tail)
        rwa [List.append_assoc, List.cons_append, List.cons_append,
          List.takeWhile_append_dropWhile] at hpieces
      · rw [Key.ofComponent_quoted hbody]
        cases tail with
        | nil => simp [first?, hname]
        | cons d tail =>
          by_cases hd : d = '.'
          · subst hd
            simp [first?, hname]
          · simp [first?, hname, hd]
  · refine ⟨c :: rest.takeWhile (· ≠ '.'), rest.dropWhile (· ≠ '.'), ?_, ?_⟩
    · have hdot : '.' ∉ c :: rest.takeWhile (· ≠ '.') := by
        rw [List.mem_cons, not_or]
        exact ⟨Ne.symm hc, dot_not_mem_takeWhile rest⟩
      have hpiece := Splitter.piece_of_bare hdot (by simp [hquote])
      have hpieces := pieces_cut hpiece (by simp) (dropWhile_dot rest)
      rwa [List.cons_append, List.takeWhile_append_dropWhile] at hpieces
    · rw [first?, if_neg hquote]
      by_cases hdigit : c.isDigit
      · rw [if_pos hdigit, Key.ofComponent_digits hdigit]
      · simp [hdigit, hquote, Key.ofComponent, Key.ofChars, Except.toOption]

/-! ## Going through the pieces -/

theorem toOption_eq_some {ε α : Type} {x : Except ε α} {a : α} :
    x.toOption = some a ↔ x = .ok a := by
  cases x <;> simp [Except.toOption]

theorem mapM_cons_eq_error {ε α β : Type} {f : α → Except ε β} {a : α} {l : List α} {e : ε} :
    (a :: l).mapM f = .error e ↔ f a = .error e ∨ ∃ b, f a = .ok b ∧ l.mapM f = .error e := by
  rw [List.mapM_cons]
  cases f a with
  | error e' => simp [bind, Except.bind]
  | ok b => cases l.mapM f <;> simp [bind, Except.bind, pure, Except.pure]

/-- Going through a list fails at the first element that fails. -/
theorem mapM_eq_error {ε α β : Type} {f : α → Except ε β} {l : List α} {e : ε} :
    l.mapM f = .error e ↔ ∃ before a after, l = before ++ a :: after ∧
      (∀ b ∈ before, ∃ y, f b = .ok y) ∧ f a = .error e := by
  induction l with
  | nil => simp [pure, Except.pure]
  | cons x l ih =>
    rw [mapM_cons_eq_error, ih]
    constructor
    · rintro (hx | ⟨y, hx, before, a, after, rfl, hb, ha⟩)
      · exact ⟨[], x, l, rfl, by simp, hx⟩
      · exact ⟨x :: before, a, after, rfl, List.forall_mem_cons.mpr ⟨⟨y, hx⟩, hb⟩, ha⟩
    · rintro ⟨before, a, after, hl, hb, ha⟩
      cases before with
      | nil =>
        obtain ⟨rfl, rfl⟩ := List.cons.inj hl
        exact .inl ha
      | cons b before =>
        obtain ⟨rfl, rfl⟩ := List.cons.inj hl
        obtain ⟨⟨y, hy⟩, hb⟩ := List.forall_mem_cons.mp hb
        exact .inr ⟨y, hy, before, a, after, rfl, hb, ha⟩

theorem toOption_mapM_cons (piece : List Char) (rest : List (List Char)) :
    ((piece :: rest).mapM Key.ofComponent).toOption =
      (Key.ofComponent piece).toOption.bind fun k =>
        (rest.mapM Key.ofComponent).toOption.map (k :: ·) := by
  rw [List.mapM_cons]
  cases Key.ofComponent piece with
  | error e => rfl
  | ok k => cases rest.mapM Key.ofComponent <;> rfl

/-- The keys that one pass reads are those that the pieces are read as. -/
theorem toOption_mapM_pieces (cs : List Char) :
    ((pieces cs).mapM Key.ofComponent).toOption = read? cs := by
  fun_induction read? cs with
  | case1 => rfl
  | case2 rest ih => rw [pieces_dot, ih]
  | case3 c rest hc key after h ih =>
    obtain ⟨piece, behind, hpieces, hfirst⟩ := pieces_first hc rest
    obtain ⟨k, hk, heq⟩ := Option.map_eq_some_iff.mp (hfirst.symm.trans h)
    obtain ⟨rfl, rfl⟩ := Prod.mk.inj heq
    rw [hpieces, toOption_mapM_cons, hk, ih]
    rfl
  | case4 c rest hc h =>
    obtain ⟨piece, behind, hpieces, hfirst⟩ := pieces_first hc rest
    have hnone := Option.map_eq_none_iff.mp (hfirst.symm.trans h)
    rw [hpieces, toOption_mapM_cons, hnone]
    rfl

/-- Empty pieces are dropped, but they would not be refused. -/
theorem mapM_nonempty_eq_error {l : List (List Char)} {e : InvalidComponent} :
    (l.filter (! ·.isEmpty)).mapM Key.ofComponent = .error e ↔
      l.mapM Key.ofComponent = .error e := by
  induction l with
  | nil => rfl
  | cons cs l ih =>
    cases cs with
    | nil =>
      have hempty : Key.ofComponent [] = .ok (.name "") := rfl
      rw [List.filter_cons_of_neg (by simp), ih, mapM_cons_eq_error, hempty]
      simp
    | cons c cs =>
      rw [List.filter_cons_of_pos (by simp), mapM_cons_eq_error, mapM_cons_eq_error, ih]

theorem component_of_error {cs : List Char} {e : InvalidComponent}
    (h : Key.ofComponent cs = .error e) : e.component = String.ofList cs := by
  rw [Key.ofComponent] at h
  split at h
  next => cases h
  next fault _ =>
    obtain rfl := Except.error.inj h
    rfl

/-- A text is read as a path just when one pass from left to right reads the path. Otherwise the
error is about a piece of the text, the first that is no key. -/
theorem parse_agrees_with_one_pass (s : String) :
    (∀ keys, Path.parse s = .ok keys ↔ read? s.toList = some keys) ∧
    ∀ e, Path.parse s = .error e ↔ ∃ before piece after,
      split s.toList = before ++ piece :: after ∧
      (∀ earlier ∈ before, ∃ k, Key.parse (String.ofList earlier) = .ok k) ∧
      Key.parse (String.ofList piece) = .error e ∧ e.component = String.ofList piece := by
  simp only [Key.parse, String.toList_ofList]
  constructor
  · intro keys
    rw [← toOption_mapM_pieces, toOption_eq_some]
    rfl
  · intro e
    have hfirst : Path.parse s = .error e ↔ _ := mapM_nonempty_eq_error.trans mapM_eq_error
    rw [hfirst]
    constructor
    · rintro ⟨before, piece, after, hsplit, hbefore, hpiece⟩
      exact ⟨before, piece, after, hsplit, hbefore, hpiece, component_of_error hpiece⟩
    · rintro ⟨before, piece, after, hsplit, hbefore, hpiece, -⟩
      exact ⟨before, piece, after, hsplit, hbefore, hpiece⟩

/-- Quotes inside a bare name are part of it, and leading zeros do not matter. -/
example : read? "a\"b..\"c.\\\"d\".007".toList =
    some [.name "a\"b", .name "c.\"d", .index 7] := by cbv

/-- Behind a closing quote no other one opens, so the second dot ends the piece. -/
example : Path.parse "a.\"b\"\"c.d\"" = .error ⟨"\"b\"\"c", .unclosedQuote⟩ := by decide

end Path

end Trellis
