import Trellis.Command.Invocation
import Trellis.Proofs.Documents

/-!
# Which arguments are taken

An argument that starts with a dash and goes on looks like an option. Unless `--` stands before it,
it is not taken for the value of an option or for a positional argument, whatever is expected
there: either reading fails, or what the positional arguments have set stays as it is. Any other
argument is taken as it stands. From this follows what the command lines for walking through a
document and for looking up a path ask for.
-/

namespace Trellis.Command

/-! ## Arguments -/

/-- An argument that looks like an option: it starts with a dash and goes on. -/
def OptionLike (s : String) : Prop := s.toList.head? = some '-' ∧ s ≠ "-"

instance (s : String) : Decidable (OptionLike s) :=
  inferInstanceAs (Decidable (_ ∧ _))

theorem optionLike_iff {s : String} :
    OptionLike s ↔ s.toList.head? = some '-' ∧ s.toList ≠ ['-'] := by
  rw [OptionLike, Ne, ← String.toList_inj]
  rfl

theorem Form.of_plain {s : String} (h : ¬ OptionLike s) : Form.of s = .plain := by
  rw [optionLike_iff] at h
  rw [Form.of]
  split
  next hs => simp [hs] at h
  next hs => simp [hs] at h
  next => rfl
  next hne hs =>
    have hsome : s.toList.head? = some '-' := by simp [hs]
    have hmore : s.toList ≠ ['-'] := by simpa [hs] using hne
    exact absurd ⟨hsome, hmore⟩ h
  next => rfl

theorem Form.of_optionLike {s : String} (h : OptionLike s) :
    Form.of s = .separator ∨ (∃ name value, Form.of s = .long name value) ∨
      ∃ letter letters, Form.of s = .short (letter :: letters) := by
  rw [optionLike_iff] at h
  rw [Form.of]
  split
  next => exact .inl rfl
  next =>
    right
    left
    split
    next name _ => exact ⟨_, _, rfl⟩
    next => exact ⟨_, _, rfl⟩
  next hs => simp [hs] at h
  next letters _ _ hne _ =>
    cases letters with
    | nil => exact absurd rfl hne
    | cons letter letters => exact .inr (.inr ⟨letter, letters, rfl⟩)
  next hnot =>
    cases hs : s.toList with
    | nil => simp [hs] at h
    | cons c cs =>
      obtain rfl : c = '-' := by simpa [hs] using h.1
      exact absurd hs (hnot cs)

/-! ## What options leave alone -/

def Argument.isPositional : Argument → Bool
  | input | path => true
  | json | help | version | start | back | limit | mode => false

/-- What the positional arguments have set. -/
def Settings.places (s : Settings) : Option String × Option String := (s.input, s.path)

/-- No option of the usage stands for a positional argument. -/
def Usage.Apart (usage : Usage) : Prop :=
  (∀ e ∈ usage.long, e.2.isPositional = false) ∧ ∀ e ∈ usage.short, e.2.isPositional = false

theorem walkUsage_apart : walkUsage.Apart := by
  unfold Usage.Apart
  decide

theorem getUsage_apart : getUsage.Apart := by
  unfold Usage.Apart
  decide

theorem Settings.give_places {s s' : Settings} {a : Argument} {value : Option String}
    (ha : a.isPositional = false) (h : s.give a value = .ok s') : s'.places = s.places := by
  unfold Settings.give at h
  split at h
  next => cases h
  next =>
    split at h
    next => cases h
    next =>
      cases a with
      | json | back | start =>
        obtain rfl := Except.ok.inj h
        rfl
      | help | version => cases h
      | input | path => cases ha
      | limit | mode =>
        simp only at h
        split at h
        next =>
          obtain rfl := Except.ok.inj h
          rfl
        next => cases h

theorem mem_of_lookup {α β : Type} [BEq α] [LawfulBEq α] {l : List (α × β)} {k : α} {b : β}
    (h : l.lookup k = some b) : (k, b) ∈ l := by
  obtain ⟨before, after, rfl, -⟩ := List.lookup_eq_some_iff.mp h
  simp

namespace Reading

variable {r r' : Reading} {usage : Usage} {a : Argument} {s : String} {rest : List String}

/-! ## Arguments that are taken -/

theorem flush_of_give {value : Option String} {settings : Settings}
    (hp : r.pending = some (a, value)) (hg : r.settings.give a value = .ok settings) :
    r.flush = .ok { r with settings, pending := none } := by
  simp [flush, hp, hg, bind, Except.bind, pure, Except.pure]

/-- An option that takes a value waits for it. -/
theorem all_long {name : String} (hs : Form.of s = .long name none)
    (ha : usage.long.lookup name = some a) (hv : a.takesValue = true) (hf : r.flush = .ok r') :
    r.all usage (s :: rest) = { r' with pending := some (a, none) }.all usage rest := by
  simp [all, hs, long, ha, hv, postpone, hf, bind, Except.bind, pure, Except.pure]

theorem all_value (hs : Form.of s = .plain) (hp : r.pending = some (a, none)) :
    r.all usage (s :: rest) = { r with pending := some (a, some s) }.all usage rest := by
  simp [all, hs, hp]

theorem all_positional {more : List Argument} (hs : Form.of s = .plain)
    (hp : ∀ b, r.pending ≠ some (b, none)) (ha : r.positional = a :: more)
    (hf : r.flush = .ok r') :
    r.all usage (s :: rest) =
      { r' with pending := some (a, some s), positional := more }.all usage rest := by
  rw [all, hs]
  simp [plain, ha, postpone, hf, bind, Except.bind, pure, Except.pure]

/-! ## Arguments that are refused -/

/-- While an option waits for its value and no positional argument is expected, nothing but a value
is taken. -/
theorem all_refused (hs : OptionLike s) (hp : r.pending = some (a, none))
    (ha : a.takesValue = true) (hpos : r.positional = []) (hrest : rest ≠ []) :
    ∃ e, r.all usage (s :: rest) = .error e := by
  -- A known option is taken only after the waiting one, which has no value.
  have hflush : r.flush = .error .badValue := by
    simp [flush, hp, Settings.give, ha, bind, Except.bind]
  have haccept : ∀ b value, r.accept b value = .error .badValue := by
    intro b value
    simp [accept, hflush, bind, Except.bind]
  have hpostpone : ∀ b value, r.postpone b value = .error .badValue := by
    intro b value
    simp [postpone, hflush, bind, Except.bind]
  rcases Form.of_optionLike hs with hf | ⟨name, value, hf⟩ | ⟨letter, letters, hf⟩
  · cases rest with
    | nil => exact absurd rfl hrest
    | cons next rest =>
      exact ⟨.unknownArgument, by simp [all, hf, trailing, plain, hpos, bind, Except.bind]⟩
  · have hlong : ∃ e, r.long usage name value = .error e := by
      unfold long
      split
      next => exact ⟨_, rfl⟩
      next => split <;> simp [haccept, hpostpone]
    obtain ⟨e, he⟩ := hlong
    exact ⟨e, by simp [all, hf, he, bind, Except.bind]⟩
  · have hshort : ∃ e, r.short usage (letter :: letters) = .error e := by
      unfold short
      split
      next => exact ⟨_, rfl⟩
      next =>
        split
        next => split <;> simp [haccept, hpostpone]
        next => simp [haccept, bind, Except.bind]
    obtain ⟨e, he⟩ := hshort
    exact ⟨e, by simp [all, hf, he, bind, Except.bind]⟩

/-! ## Options leave the positional arguments alone -/

/-- The places are `q` once the pending argument is taken, if it can be. Stated this way it does not
matter whether an option is taken at once or left pending. -/
def Settles (r : Reading) (q : Option String × Option String) : Prop :=
  ∀ r', r.flush = .ok r' → r'.settings.places = q

variable {q : Option String × Option String}

theorem flush_idle (h : r.pending = none) : r.flush = .ok r := by
  simp [flush, h]

theorem pending_of_flush (h : r.flush = .ok r') : r'.pending = none := by
  unfold flush at h
  split at h
  next hp =>
    obtain rfl := Except.ok.inj h
    exact hp
  next =>
    obtain ⟨settings, -, h⟩ := bind_eq_ok.mp h
    obtain rfl := Except.ok.inj h
    rfl

theorem Settles.accept {value : Option String} (hr : r.Settles q) (ha : a.isPositional = false)
    (h : r.accept a value = .ok r') : r'.Settles q := by
  obtain ⟨r₁, hflush, h⟩ := bind_eq_ok.mp h
  obtain ⟨settings, hgive, h⟩ := bind_eq_ok.mp h
  obtain rfl := Except.ok.inj h
  have hidle := pending_of_flush hflush
  intro r₂ h₂
  rw [flush_idle (r := { r₁ with settings }) hidle] at h₂
  obtain rfl := Except.ok.inj h₂
  exact (Settings.give_places ha hgive).trans (hr r₁ hflush)

theorem Settles.postpone {value : Option String} (hr : r.Settles q) (ha : a.isPositional = false)
    (h : r.postpone a value = .ok r') : r'.Settles q := by
  obtain ⟨r₁, hflush, h⟩ := bind_eq_ok.mp h
  obtain rfl := Except.ok.inj h
  intro r₂ h₂
  obtain ⟨settings, hgive, h₂⟩ := bind_eq_ok.mp h₂
  obtain rfl := Except.ok.inj h₂
  exact (Settings.give_places ha hgive).trans (hr r₁ hflush)

theorem Settles.long {name : String} {value : Option String} (hr : r.Settles q)
    (hu : usage.Apart) (h : r.long usage name value = .ok r') : r'.Settles q := by
  unfold Reading.long at h
  split at h
  next => cases h
  next a hlookup =>
    have ha : a.isPositional = false := hu.1 (name, a) (mem_of_lookup hlookup)
    split at h
    next => exact hr.accept ha h
    next => exact hr.postpone ha h
    next => cases h
    next => exact hr.accept ha h

theorem Settles.short {letters : List Char} (hr : r.Settles q) (hu : usage.Apart)
    (h : r.short usage letters = .ok r') : r'.Settles q := by
  induction letters generalizing r with
  | nil =>
    obtain rfl := Except.ok.inj h
    exact hr
  | cons c rest ih =>
    unfold Reading.short at h
    split at h
    next => cases h
    next a hlookup =>
      have ha : a.isPositional = false := hu.2 (c, a) (mem_of_lookup hlookup)
      split at h
      next =>
        split at h
        next => exact hr.postpone ha h
        next => exact hr.accept ha h
        next => exact hr.accept ha h
      next =>
        obtain ⟨r₁, haccept, h⟩ := bind_eq_ok.mp h
        exact ih (hr.accept ha haccept) h

/-- A last argument that looks like an option is not taken for a positional one. -/
theorem Settles.all (hr : r.Settles q) (hu : usage.Apart) (hs : OptionLike s)
    (h : r.all usage [s] = .ok r') : r'.Settles q := by
  rcases Form.of_optionLike hs with hf | ⟨name, value, hf⟩ | ⟨letter, letters, hf⟩
  · simp only [Reading.all, hf, trailing] at h
    obtain rfl := Except.ok.inj h
    exact hr
  · simp only [Reading.all, hf] at h
    obtain ⟨r₁, hlong, h⟩ := bind_eq_ok.mp h
    obtain rfl := Except.ok.inj h
    exact hr.long hu hlong
  · simp only [Reading.all, hf] at h
    obtain ⟨r₁, hshort, h⟩ := bind_eq_ok.mp h
    obtain rfl := Except.ok.inj h
    exact hr.short hu hshort

end Reading

/-! ## Whole command lines -/

section Lines

variable {env : Environment} {input path : String} {settings : Settings}

/-- The state of reading when the input has just been met. -/
def atInput (input : String) (more : List Argument) : Reading where
  pending := some (.input, some input)
  positional := more

theorem flush_atInput (hne : input ≠ "") (more : List Argument) :
    (atInput input more).flush =
      .ok { settings := { given := [.input], input := some input }, positional := more } := by
  apply Reading.flush_of_give rfl
  simp [atInput, Settings.give, Argument.takesValue, hne]

theorem read_input {usage : Usage} {more : List Argument} (hpos : usage.positional = .input :: more)
    (hin : ¬ OptionLike input) (args : List String) :
    usage.read (input :: args) = do
      let r ← (atInput input more).all usage args
      return (← r.flush).settings := by
  rw [Usage.read, Reading.all_positional (Form.of_plain hin) (by simp) hpos rfl]
  rfl

theorem read_walk (hin : ¬ OptionLike input) (hne : input ≠ "") :
    walkUsage.read [input] = .ok { given := [.input], input := some input } := by
  rw [read_input rfl hin]
  simp [Reading.all, flush_atInput hne, bind, Except.bind, pure, Except.pure]

theorem read_get (hin : ¬ OptionLike input) (hne : input ≠ "") (hpath : ¬ OptionLike path) :
    getUsage.read [input, path] =
      .ok { given := [.path, .input], input := some input, path := some path } := by
  rw [read_input rfl hin,
    Reading.all_positional (Form.of_plain hpath) (by simp [atInput]) rfl (flush_atInput hne _)]
  rfl

theorem read_walk_from (hin : ¬ OptionLike input) (hne : input ≠ "")
    (hpath : ¬ OptionLike path) :
    walkUsage.read [input, "--from", path, "--limit", "1"] =
      .ok { given := [.limit, .start, .input], start := some path, limit := some 1,
            input := some input } := by
  have hfrom : Form.of "--from" = .long "from" none := by decide
  have hlimit : Form.of "--limit" = .long "limit" none := by decide
  have hone : Form.of "1" = .plain := by decide
  rw [read_input rfl hin, Reading.all_long hfrom rfl rfl (flush_atInput hne _),
    Reading.all_value (Form.of_plain hpath) rfl,
    Reading.all_long hlimit rfl rfl (Reading.flush_of_give rfl rfl), Reading.all_value hone rfl]
  rfl

theorem read_walk_from_refused (hin : ¬ OptionLike input) (hne : input ≠ "")
    (hpath : OptionLike path) :
    ∃ e, walkUsage.read [input, "--from", path, "--limit", "1"] = .error e := by
  have hfrom : Form.of "--from" = .long "from" none := by decide
  rw [read_input rfl hin, Reading.all_long hfrom rfl rfl (flush_atInput hne _)]
  obtain ⟨e, he⟩ : ∃ e, Reading.all
      { settings := { given := [.input], input := some input }, pending := some (.start, none),
        positional := [] } walkUsage [path, "--limit", "1"] = .error e :=
    Reading.all_refused hpath rfl rfl rfl (by simp)
  exact ⟨e, by rw [he]; rfl⟩

/-- What looks like an option is not taken for the path. -/
theorem read_get_optionLike (hin : ¬ OptionLike input) (hne : input ≠ "")
    (hpath : OptionLike path) (h : getUsage.read [input, path] = .ok settings) :
    settings.places = (some input, none) := by
  rw [read_input rfl hin] at h
  obtain ⟨r, hall, h⟩ := bind_eq_ok.mp h
  obtain ⟨r', hflush, h⟩ := bind_eq_ok.mp h
  obtain rfl := Except.ok.inj h
  have hstart : (atInput input [.path]).Settles (some input, none) := by
    intro r hr
    rw [flush_atInput hne] at hr
    obtain rfl := Except.ok.inj hr
    rfl
  exact hstart.all getUsage_apart hpath hall r' hflush

/-- An input is a non-empty argument that does not look like an option. -/
theorem input_of_read_walk (h : walkUsage.read [input] = .ok settings)
    (hsome : settings.input ≠ none) : ¬ OptionLike input ∧ input ≠ "" := by
  have hin : ¬ OptionLike input := by
    intro hopt
    obtain ⟨r, hall, h⟩ := bind_eq_ok.mp h
    obtain ⟨r', hflush, h⟩ := bind_eq_ok.mp h
    obtain rfl := Except.ok.inj h
    have hstart : Reading.Settles { positional := [.input] } (none, none) := by
      intro r hr
      obtain rfl := Except.ok.inj hr
      rfl
    have hplaces := hstart.all walkUsage_apart hopt hall r' hflush
    exact hsome (congrArg Prod.fst hplaces)
  refine ⟨hin, ?_⟩
  rintro rfl
  rw [read_input rfl hin] at h
  cases h

/-! ## Invocations -/

theorem parse_json_walk (env : Environment) (args : List String) :
    Invocation.parse env ("--json" :: "walk" :: args) = do
      let s ← walkUsage.read args
      let mode ← chooseMode s.mode env
      let input ← required s.input
      return ⟨true, .walk
        { input, start := s.start, back := .back ∈ s.given, limit := s.limit, mode }⟩ := by
  rfl

theorem parse_json_get (env : Environment) (args : List String) :
    Invocation.parse env ("--json" :: "get" :: args) = do
      let s ← getUsage.read args
      let input ← required s.input
      return ⟨true, .get { input, path := s.path.getD "" }⟩ := by
  rfl

theorem parse_walk_eq_ok {i : Invocation} :
    Invocation.parse env ["--json", "walk", input] = .ok i ↔
      (¬ OptionLike input ∧ input ≠ "") ∧
        ∃ mode, chooseMode none env = .ok mode ∧ i = ⟨true, .walk { input, mode }⟩ := by
  rw [parse_json_walk]
  constructor
  · intro h
    obtain ⟨settings, hread, h⟩ := bind_eq_ok.mp h
    obtain ⟨mode, hmode, h⟩ := bind_eq_ok.mp h
    obtain ⟨name, hname, h⟩ := bind_eq_ok.mp h
    have hsome : settings.input ≠ none := by
      intro hnone
      simp [required, hnone] at hname
    have hin := input_of_read_walk hread hsome
    rw [read_walk hin.1 hin.2] at hread
    obtain rfl := Except.ok.inj hread
    obtain rfl := Except.ok.inj hname
    obtain rfl := Except.ok.inj h
    exact ⟨hin, mode, hmode, rfl⟩
  · rintro ⟨⟨hin, hne⟩, mode, hmode, rfl⟩
    simp [read_walk hin hne, hmode, required, bind, Except.bind, pure, Except.pure]

theorem parse_walk_from {mode : Expansion} (hin : ¬ OptionLike input) (hne : input ≠ "")
    (hmode : chooseMode none env = .ok mode) (hpath : ¬ OptionLike path) :
    Invocation.parse env ["--json", "walk", input, "--from", path, "--limit", "1"] =
      .ok ⟨true, .walk { input, start := some path, limit := some 1, mode }⟩ := by
  rw [parse_json_walk, read_walk_from hin hne hpath]
  simp [hmode, required, bind, Except.bind, pure, Except.pure]

theorem parse_walk_from_optionLike (hin : ¬ OptionLike input) (hne : input ≠ "")
    (hpath : OptionLike path) (i : Invocation) :
    Invocation.parse env ["--json", "walk", input, "--from", path, "--limit", "1"] ≠ .ok i := by
  obtain ⟨e, he⟩ := read_walk_from_refused hin hne hpath
  rw [parse_json_walk, he]
  intro h
  cases h

theorem parse_get (hin : ¬ OptionLike input) (hne : input ≠ "") (hpath : ¬ OptionLike path) :
    Invocation.parse env ["--json", "get", input, path] = .ok ⟨true, .get { input, path }⟩ := by
  rw [parse_json_get, read_get hin hne hpath]
  rfl

theorem parse_get_optionLike {i : Invocation} (hin : ¬ OptionLike input) (hne : input ≠ "")
    (hpath : OptionLike path) (h : Invocation.parse env ["--json", "get", input, path] = .ok i) :
    i = ⟨true, .get { input }⟩ := by
  rw [parse_json_get] at h
  obtain ⟨settings, hread, h⟩ := bind_eq_ok.mp h
  have hplaces := read_get_optionLike hin hne hpath hread
  obtain ⟨hinput, hnone⟩ : settings.input = some input ∧ settings.path = none :=
    Prod.mk.inj hplaces
  simp only [hinput, hnone] at h
  exact (Except.ok.inj h).symm

end Lines

end Trellis.Command
