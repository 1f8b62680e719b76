import Trellis.Proofs.Documents
import Trellis.Proofs.Erasing

/-!
# Dictionaries over whole runs

What a dictionary holds after any run of edits, told by what happened in the run. Building one anew
from pairs starts from nothing and inserts them one after another, so a run of edits is a history of
single events. Every statement about a name asks for one event of the history and for what has not
happened since: a write that nothing has touched since, a removal with no insertion since, an
insertion of an absent name with no removal since. The last one also says where a name stands: the
present names are in the order in which they arrived.
-/

namespace Trellis.Dict

/-! ## Edits and events -/

/-- What happens to a dictionary at once. All names are distinct, so a function of the name is any
choice of new values in `overwriteAll`. -/
inductive Event (α : Type) where
  | insert (name : String) (value : α)
  | remove (name : String)
  | overwrite (name : String) (value : α)
  | overwriteAll (f : String → α → α)
  | restart

/-- One edit: an event, or building the dictionary anew from pairs made of its entries. -/
inductive Edit (α : Type) where
  | once (e : Event α)
  | rebuild (pairs : List (String × α) → List (String × α))

variable {α : Type}

/-- Removing or overwriting a name that is not there changes nothing. -/
def step (d : Dict α) : Event α → Dict α
  | .insert name value => d.insert name value
  | .remove name => ((d.remove? name).map (·.2)).getD d
  | .overwrite name value => (d.set? name value).getD d
  | .overwriteAll f => d.mapEntries f
  | .restart => empty

def edit (d : Dict α) : Edit α → Dict α
  | .once e => d.step e
  | .rebuild pairs => .ofPairs (pairs d.entries)

/-- The dictionary after a run of edits. -/
def run (edits : List (Edit α)) : Dict α := edits.foldl edit empty

/-- The dictionary after a history of events. -/
def replay (h : List (Event α)) : Dict α := h.foldl step empty

/-- The events of one edit. -/
def Edit.events (d : Dict α) : Edit α → List (Event α)
  | once e => [e]
  | rebuild pairs => .restart :: (pairs d.entries).map fun pair => .insert pair.1 pair.2

/-- The events of the edits that follow a state. -/
def eventsFrom : Dict α → List (Edit α) → List (Event α)
  | _, [] => []
  | d, e :: rest => e.events d ++ eventsFrom (d.edit e) rest

/-- Everything that happens in a run of edits. -/
def history (edits : List (Edit α)) : List (Event α) := eventsFrom empty edits

theorem edit_eq_foldl (d : Dict α) (e : Edit α) : d.edit e = (e.events d).foldl step d := by
  cases e with
  | once e => rfl
  | rebuild pairs =>
    rw [Edit.events, List.foldl_cons, List.foldl_map]
    rfl

theorem foldl_edit (d : Dict α) (edits : List (Edit α)) :
    edits.foldl edit d = (eventsFrom d edits).foldl step d := by
  induction edits generalizing d with
  | nil => rfl
  | cons e rest ih => rw [List.foldl_cons, eventsFrom, List.foldl_append, ← edit_eq_foldl, ih]

theorem run_eq_replay (edits : List (Edit α)) : run edits = replay (history edits) :=
  foldl_edit empty edits

/-! ## What a history says -/

/-- An event with `P` has happened, after the events before it, and none with `Q` since. -/
def Since (P : List (Event α) → Event α → Prop) (Q : Event α → Prop) (h : List (Event α)) : Prop :=
  ∃ before e after, h = before ++ e :: after ∧ P before e ∧ ∀ later ∈ after, ¬ Q later

def Event.Inserts (n : String) : Event α → Prop
  | insert name _ => name = n
  | _ => False

def Event.Removes (n : String) : Event α → Prop
  | remove name => name = n
  | restart => True
  | _ => False

/-- The event concerns the entry of a name, if there is one. -/
def Event.Touches (n : String) : Event α → Prop
  | insert name _ => name = n
  | remove name => name = n
  | overwrite name _ => name = n
  | _ => True

/-- The value an event writes under a name, if it writes one, by the value it finds there. -/
def Event.writes? (n : String) (found : Option α) : Event α → Option α
  | insert name value => if name = n then some value else none
  | overwrite name value => if name = n then found.map fun _ => value else none
  | overwriteAll f => found.map (f n)
  | _ => none

/-- The last event that touched `n` wrote `v` under it. -/
def LastWritten (n : String) (v : α) : List (Event α) → Prop :=
  Since (fun before e => e.writes? n ((replay before).get? n) = some v) (·.Touches n)

/-- `n` was never inserted, or it was removed and not inserted since. -/
def Absent (n : String) (h : List (Event α)) : Prop :=
  (∀ e ∈ h, ¬ e.Inserts n) ∨ Since (fun _ e => e.Removes n) (·.Inserts n) h

/-- Event number `i` inserted `n` while it was absent, and `n` was not removed since. -/
def Arrived (n : String) (i : Nat) : List (Event α) → Prop :=
  Since (fun before e => e.Inserts n ∧ before.length = i ∧ Absent n before) (·.Removes n)

variable {d : Dict α} {e : Event α} {h : List (Event α)} {m n : String} {v : α} {i : Nat}

theorem since_nil {P : List (Event α) → Event α → Prop} {Q : Event α → Prop} : ¬ Since P Q [] := by
  rintro ⟨before, e, after, heq, -⟩
  simp at heq

/-- A further event answers for itself, or it leaves what was said before. -/
theorem since_snoc {P : List (Event α) → Event α → Prop} {Q : Event α → Prop} :
    Since P Q (h ++ [e]) ↔ P h e ∨ (Since P Q h ∧ ¬ Q e) := by
  constructor
  · rintro ⟨before, x, after, heq, hP, hQ⟩
    rcases List.eq_nil_or_concat after with rfl | ⟨kept, last, rfl⟩
    · obtain ⟨rfl, hx⟩ := List.append_inj' heq rfl
      obtain rfl : e = x := by simpa using hx
      exact .inl hP
    · rw [List.concat_eq_append, ← List.cons_append, ← List.append_assoc] at heq
      obtain ⟨rfl, hlast⟩ := List.append_inj' heq rfl
      obtain rfl : e = last := by simpa using hlast
      exact .inr ⟨⟨before, x, kept, rfl, hP, fun later hm => hQ later (by simp [hm])⟩,
        hQ e (by simp)⟩
  · rintro (hP | ⟨⟨before, x, after, rfl, hP, hQ⟩, he⟩)
    · exact ⟨h, e, [], rfl, hP, by simp⟩
    · refine ⟨before, x, after ++ [e], by simp, hP, ?_⟩
      intro later hm
      rcases List.mem_append.mp hm with hm | hm
      · exact hQ later hm
      · obtain rfl : later = e := by simpa using hm
        exact he

theorem Arrived.lt_length (ha : Arrived n i h) : i < h.length := by
  obtain ⟨before, e, after, rfl, ⟨-, rfl, -⟩, -⟩ := ha
  simp

theorem replay_snoc (h : List (Event α)) (e : Event α) : replay (h ++ [e]) = (replay h).step e := by
  rw [replay, List.foldl_append]
  rfl

/-! ## One event -/

theorem mem_names_iff : n ∈ d.names ↔ d.get? n ≠ none := by
  constructor
  · intro hm hnone
    exact not_mem_names_of_get? hnone hm
  · intro hsome
    obtain ⟨v, hv⟩ := Option.ne_none_iff_exists'.mp hsome
    obtain ⟨before, after, rfl, -⟩ := split_of_get? hv
    simp [names]

theorem fst_put (d : Dict α) (n : String) (v : α) : (d.put n v).1 = d.get? n := by
  cases hg : d.get? n with
  | some u =>
    obtain ⟨before, after, rfl, hb⟩ := split_of_get? hg
    rw [put_of_split hb]
  | none =>
    rw [put, set?_of_not_mem (not_mem_names_of_get? hg)]

theorem fst_remove? (d : Dict α) (n : String) : (d.remove? n).map (·.1) = d.get? n := by
  cases hg : d.get? n with
  | some u =>
    obtain ⟨before, after, rfl, hb⟩ := split_of_get? hg
    rw [remove?_of_split hb]
    rfl
  | none =>
    rw [remove?_of_not_mem (not_mem_names_of_get? hg)]
    rfl

/-- Overwriting a present name is writing under it. -/
theorem step_overwrite (hg : d.get? n ≠ none) (v : α) :
    d.step (.overwrite n v) = d.insert n v := by
  obtain ⟨u, hu⟩ := Option.ne_none_iff_exists'.mp hg
  obtain ⟨before, after, rfl, hb⟩ := split_of_get? hu
  rw [step, insert, set?_of_split hb, put_of_split hb]
  rfl

theorem step_overwrite_absent (hg : d.get? n = none) (v : α) : d.step (.overwrite n v) = d := by
  rw [step, set?_of_not_mem (not_mem_names_of_get? hg)]
  rfl

theorem step_remove (hd : d.Distinct) (n : String) :
    d.step (.remove n) = ⟨d.entries.filter (·.1 ≠ n)⟩ := by
  cases hg : d.get? n with
  | some v =>
    rw [step, remove?_of_get? hd hg]
    rfl
  | none =>
    have hnot := not_mem_names_of_get? hg
    rw [step, remove?_of_not_mem hnot, filter_ne_of_not_mem hnot]
    rfl

theorem get?_mapEntries (d : Dict α) (f : String → α → α) (n : String) :
    (d.mapEntries f).get? n = (d.get? n).map (f n) := by
  obtain ⟨entries⟩ := d
  induction entries with
  | nil => rfl
  | cons e rest ih =>
    obtain ⟨m, u⟩ := e
    simp only [get?, mapEntries, List.map_cons, List.lookup_cons] at ih ⊢
    by_cases hn : n = m
    · simp [hn]
    · simpa [beq_false_of_ne hn] using ih

/-- What is found under a name after an event. -/
theorem get?_step (hd : d.Distinct) (e : Event α) (n : String) :
    (e.Touches n → (d.step e).get? n = e.writes? n (d.get? n)) ∧
      (¬ e.Touches n → (d.step e).get? n = d.get? n) := by
  cases e with
  | insert name value =>
    rw [step, insert, get?_put]
    refine ⟨?_, fun hne => if_neg (Ne.symm hne)⟩
    rintro rfl
    simp [Event.writes?]
  | remove name =>
    rw [step_remove hd, get?_filter_ne]
    refine ⟨?_, fun hne => if_neg (Ne.symm hne)⟩
    rintro rfl
    simp [Event.writes?]
  | overwrite name value =>
    by_cases hg : d.get? name = none
    · rw [step_overwrite_absent hg]
      refine ⟨?_, fun _ => rfl⟩
      rintro rfl
      simp [Event.writes?, hg]
    · obtain ⟨u, hu⟩ := Option.ne_none_iff_exists'.mp hg
      rw [step_overwrite hg, insert, get?_put]
      refine ⟨?_, fun hne => if_neg (Ne.symm hne)⟩
      rintro rfl
      simp [Event.writes?, hu]
  | overwriteAll f =>
    exact ⟨fun _ => get?_mapEntries d f n, fun hnot => (hnot trivial).elim⟩
  | restart => exact ⟨fun _ => rfl, fun hnot => (hnot trivial).elim⟩

theorem Event.touches_of_writes? {found : Option α} (hw : e.writes? n found = some v) :
    e.Touches n := by
  cases e with
  | insert name value => simp_all [writes?, Touches]
  | overwrite name value => simp_all [writes?, Touches]
  | remove name => cases hw
  | overwriteAll f => trivial
  | restart => cases hw

/-- Only insertions bring a name in and only removals take it out. -/
theorem get?_step_eq_none (hd : d.Distinct) (e : Event α) (n : String) :
    (d.step e).get? n = none ↔ e.Removes n ∨ (d.get? n = none ∧ ¬ e.Inserts n) := by
  obtain ⟨htouched, hkept⟩ := get?_step hd e n
  by_cases ht : e.Touches n
  · rw [htouched ht]
    cases e <;> simp_all [Event.writes?, Event.Touches, Event.Removes, Event.Inserts]
  · rw [hkept ht]
    cases e <;> simp_all [Event.Touches, Event.Removes, Event.Inserts]

theorem names_insert (d : Dict α) (n : String) (v : α) :
    (d.insert n v).names = if n ∈ d.names then d.names else d.names ++ [n] := by
  rcases d.put_cases n v with ⟨before, u, after, rfl, hput⟩ | ⟨hnot, hput⟩
  · rw [insert, hput, if_pos (by simp [names])]
    simp [names]
  · rw [insert, hput, if_neg hnot]
    simp [names]

/-- An event adds an absent name at the end, or keeps some of the names in their order. -/
theorem names_step (hd : d.Distinct) (e : Event α) :
    (∃ n, e.Inserts n ∧ d.get? n = none ∧ (d.step e).names = d.names ++ [n]) ∨
      ((d.step e).names.Sublist d.names ∧ ∀ n, e.Inserts n → d.get? n ≠ none) := by
  cases e with
  | insert name value =>
    by_cases hm : name ∈ d.names
    · refine .inr ⟨?_, ?_⟩
      · rw [step, names_insert, if_pos hm]
      · rintro n rfl
        exact mem_names_iff.mp hm
    · refine .inl ⟨name, rfl, ?_, ?_⟩
      · exact not_not.mp fun hg => hm (mem_names_iff.mpr hg)
      · rw [step, names_insert, if_neg hm]
  | remove name =>
    refine .inr ⟨?_, fun n hn => hn.elim⟩
    rw [step_remove hd]
    exact List.filter_sublist.map _
  | overwrite name value =>
    refine .inr ⟨?_, fun n hn => hn.elim⟩
    by_cases hg : d.get? name = none
    · rw [step_overwrite_absent hg]
    · rw [step_overwrite hg, names_insert, if_pos (mem_names_iff.mpr hg)]
  | overwriteAll f =>
    refine .inr ⟨?_, fun n hn => hn.elim⟩
    simp [step, mapEntries, names, Function.comp_def]
  | restart => exact .inr ⟨List.nil_sublist _, fun n hn => hn.elim⟩

theorem Distinct.step (hd : d.Distinct) (e : Event α) : (d.step e).Distinct := by
  rcases names_step hd e with ⟨n, -, habsent, hnames⟩ | ⟨hsub, -⟩
  · rw [Distinct, hnames, List.nodup_append_comm]
    exact List.nodup_cons.mpr ⟨fun hm => mem_names_iff.mp hm habsent, hd⟩
  · exact hd.sublist hsub

/-! ## Histories -/

theorem distinct_replay (h : List (Event α)) : (replay h).Distinct := by
  induction h using List.reverseRecOn with
  | nil => exact List.nodup_nil
  | append_singleton h e ih =>
    rw [replay_snoc]
    exact ih.step e

theorem get?_replay_eq_some (h : List (Event α)) (n : String) (v : α) :
    (replay h).get? n = some v ↔ LastWritten n v h := by
  induction h using List.reverseRecOn with
  | nil =>
    constructor
    · intro hv
      cases hv
    · intro hw
      exact (since_nil hw).elim
  | append_singleton h e ih =>
    obtain ⟨htouched, hkept⟩ := get?_step (distinct_replay h) e n
    rw [replay_snoc, LastWritten, since_snoc, ← LastWritten, ← ih]
    by_cases ht : e.Touches n
    · simp [htouched ht, ht]
    · have hnone : e.writes? n ((replay h).get? n) ≠ some v :=
        fun hw => ht (Event.touches_of_writes? hw)
      simp [hkept ht, ht, hnone]

theorem get?_replay_eq_none (h : List (Event α)) (n : String) :
    (replay h).get? n = none ↔ Absent n h := by
  induction h using List.reverseRecOn with
  | nil => exact ⟨fun _ => .inl (by simp), fun _ => rfl⟩
  | append_singleton h e ih =>
    rw [replay_snoc, get?_step_eq_none (distinct_replay h), ih, Absent, Absent, since_snoc]
    simp only [List.forall_mem_append, List.forall_mem_singleton]
    tauto

theorem mem_names_replay (h : List (Event α)) (n : String) :
    n ∈ (replay h).names ↔ ∃ i, Arrived n i h := by
  rw [mem_names_iff, ne_eq, get?_replay_eq_none]
  induction h using List.reverseRecOn with
  | nil =>
    constructor
    · intro hsome
      exact (hsome (.inl (by simp))).elim
    · rintro ⟨i, ha⟩
      exact (since_nil ha).elim
  | append_singleton h e ih =>
    have hdisjoint : e.Inserts n → ¬ e.Removes n := by
      cases e <;> simp [Event.Inserts, Event.Removes]
    have hsnoc : ∀ i, Arrived n i (h ++ [e]) ↔
        (e.Inserts n ∧ h.length = i ∧ Absent n h) ∨ (Arrived n i h ∧ ¬ e.Removes n) :=
      fun i => since_snoc
    rw [← get?_replay_eq_none, replay_snoc, get?_step_eq_none (distinct_replay h),
      get?_replay_eq_none]
    simp only [hsnoc, exists_or, exists_and_left, exists_and_right, exists_eq', true_and, ← ih]
    tauto

/-- Names stand in the order in which they arrived. -/
theorem names_replay_ordered (h : List (Event α)) :
    (replay h).names.Pairwise fun m n => ∀ i j, Arrived m i h → Arrived n j h → i < j := by
  induction h using List.reverseRecOn with
  | nil => exact List.Pairwise.nil
  | append_singleton h e ih =>
    have hpresent : ∀ {n i}, n ∈ (replay h).names → Arrived n i (h ++ [e]) → Arrived n i h := by
      intro n i hm ha
      rcases since_snoc.mp ha with ⟨-, -, habsent⟩ | ⟨ha, -⟩
      · exact (mem_names_iff.mp hm ((get?_replay_eq_none h n).mpr habsent)).elim
      · exact ha
    have hkept : (replay h).names.Pairwise fun m n =>
        ∀ i j, Arrived m i (h ++ [e]) → Arrived n j (h ++ [e]) → i < j :=
      ih.imp_of_mem fun hm hn hlt i j hi hj => hlt i j (hpresent hm hi) (hpresent hn hj)
    rw [replay_snoc]
    rcases names_step (distinct_replay h) e with ⟨last, -, habsent, hnames⟩ | ⟨hsub, -⟩
    · rw [hnames, List.pairwise_append]
      refine ⟨hkept, List.pairwise_singleton _ _, ?_⟩
      intro m hm n hn i j hi hj
      obtain rfl : n = last := by simpa using hn
      rcases since_snoc.mp hj with ⟨-, rfl, -⟩ | ⟨hj, -⟩
      · exact (hpresent hm hi).lt_length
      · -- The absent name cannot have arrived before.
        exact (mem_names_iff.mp ((mem_names_replay h n).mpr ⟨j, hj⟩) habsent).elim
    · exact hkept.sublist hsub

/-! ## Building from pairs -/

theorem ofPairs_snoc (pairs : List (String × α)) (pair : String × α) :
    ofPairs (pairs ++ [pair]) = (ofPairs pairs).insert pair.1 pair.2 := by
  rw [ofPairs, List.foldl_append]
  rfl

theorem names_ofPairs (pairs : List (String × α)) :
    (ofPairs pairs).names = (pairs.map (·.1)).eraseDups := by
  induction pairs using List.reverseRecOn with
  | nil => rfl
  | append_singleton pairs pair ih =>
    rw [ofPairs_snoc, names_insert, ih, List.map_append, List.eraseDups_append]
    by_cases hm : pair.1 ∈ pairs.map (·.1)
    · simp_all [List.removeAll]
    · simp_all [List.removeAll, List.eraseDups_cons]

theorem get?_ofPairs (pairs : List (String × α)) (n : String) :
    (ofPairs pairs).get? n = pairs.reverse.lookup n := by
  induction pairs using List.reverseRecOn with
  | nil => rfl
  | append_singleton pairs pair ih =>
    rw [ofPairs_snoc, insert, get?_put, ih, List.reverse_append, List.reverse_singleton,
      List.singleton_append, List.lookup_cons]
    by_cases hn : n = pair.1
    · simp [hn]
    · simp [hn, beq_false_of_ne hn]

/-! ## Whole runs -/

/-- After every run of edits of an empty dictionary, names are distinct; what is found under a name
is what was last written there, and nothing is found exactly when the name was never inserted or has
been removed since; the present names stand in the order in which they arrived, each counted from
when it was last absent; and writing and removing answer what was found before. Built from pairs, a
dictionary has every name at its first place with its last value. -/
theorem runs_keep_insertion_order (edits : List (Edit α)) :
    (run edits).Distinct ∧
      (∀ n v, (run edits).get? n = some v ↔ LastWritten n v (history edits)) ∧
      (∀ n, (run edits).get? n = none ↔ Absent n (history edits)) ∧
      (∀ n, n ∈ (run edits).names ↔ ∃ i, Arrived n i (history edits)) ∧
      ((run edits).names.Pairwise fun m n =>
        ∀ i j, Arrived m i (history edits) → Arrived n j (history edits) → i < j) ∧
      (∀ n v, ((run edits).put n v).1 = (run edits).get? n) ∧
      (∀ n, ((run edits).remove? n).map (·.1) = (run edits).get? n) ∧
      ∀ pairs : List (String × α), (ofPairs pairs).names = (pairs.map (·.1)).eraseDups ∧
        ∀ n, (ofPairs pairs).get? n = pairs.reverse.lookup n := by
  rw [run_eq_replay]
  exact ⟨distinct_replay _, get?_replay_eq_some _, get?_replay_eq_none _, mem_names_replay _,
    names_replay_ordered _, fst_put _, fst_remove? _,
    fun pairs => ⟨names_ofPairs pairs, get?_ofPairs pairs⟩⟩

example : (run [.once (.insert "b" 1), .once (.insert "a" 2), .once (.insert "b" 3),
    .once (.remove "b"), .once (.overwriteAll fun _ v => v + 1), .once (.insert "b" 4),
    .once (.overwrite "c" 5), .rebuild (· ++ [("c", 6), ("a", 7)])]).entries =
    [("a", 7), ("b", 4), ("c", 6)] := by
  decide

end Trellis.Dict
