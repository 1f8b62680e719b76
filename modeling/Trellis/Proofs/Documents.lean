import Trellis.Document
import Trellis.Proofs.Writing

/-!
# The values of documents

Whatever names the objects of a document repeat, its value is plain: there are no nodes in it, and
no map repeats a name, since every map is built by inserting one member after another.
-/

namespace Trellis

/-- A computation in two parts succeeds when the first part does and the second one from there. -/
theorem bind_eq_ok {ε α β : Type} {x : Except ε α} {f : α → Except ε β} {b : β} :
    (x >>= f) = .ok b ↔ ∃ a, x = .ok a ∧ f a = .ok b := by
  cases x with
  | error e => simp [bind, Except.bind]
  | ok a => simp [bind, Except.bind]

namespace Dict

variable {α : Type} {d : Dict α} {name : String} {value : α}

theorem Distinct.insert (h : d.Distinct) (name : String) (value : α) :
    (d.insert name value).Distinct := by
  rcases d.put_cases name value with ⟨before, v, after, rfl, hput⟩ | ⟨hnot, hput⟩
  · -- The names are the ones that were there.
    rw [Dict.insert, hput]
    simpa [Distinct, names] using h
  · rw [Dict.insert, hput]
    have hnames : names ⟨d.entries ++ [(name, value)]⟩ = d.names ++ [name] := by simp [names]
    rw [Distinct, hnames, List.nodup_append]
    refine ⟨h, List.nodup_singleton name, ?_⟩
    intro a ha b hb hab
    obtain rfl : b = name := by simpa using hb
    exact hnot (hab ▸ ha)

theorem mem_insert {e : String × α} (he : e ∈ (d.insert name value).entries) :
    e = (name, value) ∨ e ∈ d.entries := by
  rcases d.put_cases name value with ⟨before, v, after, rfl, hput⟩ | ⟨-, hput⟩
  · rw [Dict.insert, hput] at he
    rcases List.mem_append.mp he with hb | ha
    · exact .inr (List.mem_append_left _ hb)
    · rcases List.mem_cons.mp ha with rfl | ha
      · exact .inl rfl
      · exact .inr (List.mem_append_right _ (List.mem_cons_of_mem _ ha))
  · rw [Dict.insert, hput] at he
    rcases List.mem_append.mp he with hd | hlast
    · exact .inr hd
    · exact .inl (by simpa using hlast)

/-- A dictionary made of pairs has distinct names, and every entry of it is one of the pairs. -/
theorem ofPairs_spec (pairs : List (String × α)) :
    (ofPairs pairs).Distinct ∧ ∀ e ∈ (ofPairs pairs).entries, e ∈ pairs := by
  have run : ∀ (pairs : List (String × α)) (d : Dict α), d.Distinct →
      (pairs.foldl (fun d pair => d.insert pair.1 pair.2) d).Distinct ∧
        ∀ e ∈ (pairs.foldl (fun d pair => d.insert pair.1 pair.2) d).entries,
          e ∈ d.entries ∨ e ∈ pairs := by
    intro pairs
    induction pairs with
    | nil =>
      intro d hd
      exact ⟨hd, fun e he => .inl he⟩
    | cons pair rest ih =>
      intro d hd
      obtain ⟨hdistinct, hmem⟩ := ih (d.insert pair.1 pair.2) (hd.insert pair.1 pair.2)
      refine ⟨hdistinct, ?_⟩
      intro e he
      rcases hmem e he with hin | hrest
      · rcases mem_insert hin with rfl | hd
        · exact .inr (by simp)
        · exact .inl hd
      · exact .inr (List.mem_cons_of_mem _ hrest)
  obtain ⟨hdistinct, hmem⟩ := run pairs empty List.nodup_nil
  refine ⟨hdistinct, ?_⟩
  intro e he
  rcases hmem e he with hin | hin
  · cases hin
  · exact hin

end Dict

namespace Json

mutual

/-- The value of a document is plain. -/
theorem plain_of_toValue : ∀ (j : Json) {v : Value}, j.toValue = .ok v → v.Plain
  | null, v, h => by
    obtain rfl : Value.null = v := by simpa [toValue] using h
    exact ⟨rfl, trivial⟩
  | bool b, v, h => by
    obtain rfl : Value.bool b = v := by simpa [toValue] using h
    exact ⟨rfl, trivial⟩
  | number n, v, h => by
    rw [toValue] at h
    cases hn : n.toInt64? with
    | none => simp [hn] at h
    | some i =>
      obtain rfl : Value.int i = v := by simpa [hn] using h
      exact ⟨rfl, trivial⟩
  | string s, v, h => by
    obtain rfl : Value.text s = v := by simpa [toValue] using h
    exact ⟨rfl, trivial⟩
  | array items, v, h => by
    rw [toValue] at h
    obtain ⟨values, hvalues, hv⟩ := bind_eq_ok.mp h
    obtain rfl := Except.ok.inj hv
    exact Value.plain_list (plain_of_toValueItems items hvalues)
  | object ⟨members⟩, v, h => by
    rw [toValue] at h
    obtain ⟨pairs, hpairs, hv⟩ := bind_eq_ok.mp h
    obtain rfl := Except.ok.inj hv
    obtain ⟨hdistinct, hmem⟩ := Dict.ofPairs_spec pairs
    have hplain := plain_of_toValueMembers members hpairs
    exact Value.plain_map hdistinct fun e he => hplain e (hmem e he)

theorem plain_of_toValueItems : ∀ (items : List Json) {values : List Value},
    toValueItems items = .ok values → ∀ v ∈ values, v.Plain
  | [], values, h => by
    obtain rfl : [] = values := by simpa [toValueItems] using h
    simp
  | j :: rest, values, h => by
    rw [toValueItems] at h
    obtain ⟨v, hv, h⟩ := bind_eq_ok.mp h
    obtain ⟨others, hothers, h⟩ := bind_eq_ok.mp h
    obtain rfl := Except.ok.inj h
    exact List.forall_mem_cons.mpr
      ⟨plain_of_toValue j hv, plain_of_toValueItems rest hothers⟩

theorem plain_of_toValueMembers : ∀ (members : List (String × Json))
    {pairs : List (String × Value)},
    toValueMembers members = .ok pairs → ∀ e ∈ pairs, e.2.Plain
  | [], pairs, h => by
    obtain rfl : [] = pairs := by simpa [toValueMembers] using h
    simp
  | (n, j) :: rest, pairs, h => by
    rw [toValueMembers] at h
    obtain ⟨v, hv, h⟩ := bind_eq_ok.mp h
    obtain ⟨others, hothers, h⟩ := bind_eq_ok.mp h
    obtain rfl := Except.ok.inj h
    exact List.forall_mem_cons.mpr
      ⟨plain_of_toValue j hv, plain_of_toValueMembers rest hothers⟩

end

end Json

end Trellis
