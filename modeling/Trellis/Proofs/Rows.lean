import Trellis.Proofs.WellLinked

/-!
# Rows

The links along a list of siblings are judged cut by cut. Between two nodes that stand side by side,
before the first and after the last, either both ends know what is across or neither knows anything.
Every cut but one lies inside the part before it or inside the part after it, so a change at one cut
leaves the rest of a row alone.
-/

namespace Trellis

/-- What every node knows of its two neighbours. -/
abbrev Slots := NodeId → Side → Link

/-- The two ends at a cut know each other, or neither knows anything. -/
def Meets (slots : Slots) (left right : Option NodeId) : Prop :=
  ((∀ x ∈ left, slots x .next = .ofOption right) ∧
    ∀ y ∈ right, slots y .prev = .ofOption left) ∨
  ((∀ x ∈ left, slots x .next = .unknown) ∧ ∀ y ∈ right, slots y .prev = .unknown)

/-- The links along a list of siblings are true and known from both ends. -/
def Row (slots : Slots) (siblings : List NodeId) : Prop :=
  ∀ before after, siblings = before ++ after → Meets slots before.getLast? after.head?

@[simp] theorem Link.ofOption_eq_to {o : Option NodeId} {x : NodeId} :
    Link.ofOption o = .to x ↔ o = some x := by
  cases o <;> simp [Link.ofOption]

@[simp] theorem Link.known?_ofOption (o : Option NodeId) : (Link.ofOption o).known? = some o := by
  cases o <;> rfl

@[simp] theorem Side.opposite_prev : Side.prev.opposite = .next := rfl

@[simp] theorem Side.opposite_next : Side.next.opposite = .prev := rfl

@[simp] theorem Side.neighbour_prev (before after : List NodeId) :
    Side.prev.neighbour before after = before.getLast? := rfl

@[simp] theorem Side.neighbour_next (before after : List NodeId) :
    Side.next.neighbour before after = after.head? := rfl

section Rows

variable {slots slots' : Slots} {siblings before after : List NodeId} {c : NodeId}

theorem Meets.congr {left right : Option NodeId} (h : Meets slots left right)
    (hl : ∀ x ∈ left, slots' x .next = slots x .next)
    (hr : ∀ y ∈ right, slots' y .prev = slots y .prev) : Meets slots' left right := by
  rcases h with ⟨h₁, h₂⟩ | ⟨h₁, h₂⟩
  · exact .inl ⟨fun x hx => (hl x hx).trans (h₁ x hx), fun y hy => (hr y hy).trans (h₂ y hy)⟩
  · exact .inr ⟨fun x hx => (hl x hx).trans (h₁ x hx), fun y hy => (hr y hy).trans (h₂ y hy)⟩

theorem Row.congr (h : Row slots siblings)
    (hs : ∀ x ∈ siblings, ∀ side, slots' x side = slots x side) : Row slots' siblings := by
  rintro before after rfl
  refine (h before after rfl).congr ?_ ?_
  · intro x hx
    exact hs x (List.mem_append_left _ (List.mem_of_getLast? hx)) _
  · intro y hy
    exact hs y (List.mem_append_right _ (List.mem_of_head? hy)) _

theorem row_of_unknown (h : ∀ x ∈ siblings, ∀ side, slots x side = .unknown) :
    Row slots siblings := by
  rintro before after rfl
  refine .inr ⟨?_, ?_⟩
  · intro x hx
    exact h x (List.mem_append_left _ (List.mem_of_getLast? hx)) _
  · intro y hy
    exact h y (List.mem_append_right _ (List.mem_of_head? hy)) _

/-- A known slot in a row holds the neighbour. -/
theorem Row.link_eq (h : Row slots (before ++ c :: after)) (side : Side)
    (hk : slots c side ≠ .unknown) : slots c side = .ofOption (side.neighbour before after) := by
  cases side with
  | prev =>
    rcases h before (c :: after) rfl with ⟨-, h₂⟩ | ⟨-, h₂⟩
    · exact h₂ c (by simp)
    · exact absurd (h₂ c (by simp)) hk
  | next =>
    rcases h (before ++ [c]) after (by simp) with ⟨h₁, -⟩ | ⟨h₁, -⟩
    · exact h₁ c (by simp)
    · exact absurd (h₁ c (by simp)) hk

/-- Two nodes side by side know each other from both ends or not at all. -/
theorem Row.next_iff_prev {x y : NodeId} (h : Row slots (before ++ x :: y :: after)) :
    slots x .next = .to y ↔ slots y .prev = .to x := by
  rcases h (before ++ [x]) (y :: after) (by simp) with ⟨h₁, h₂⟩ | ⟨h₁, h₂⟩
  · simp [h₁ x (by simp), h₂ y (by simp)]
  · simp [h₁ x (by simp), h₂ y (by simp)]

/-- A neighbour that a node knows is one that knows it. -/
theorem Row.known_back {x : NodeId} (h : Row slots (before ++ c :: after)) (side : Side)
    (hx : slots c side = .to x) : slots x side.opposite = .to c := by
  have hnb := h.link_eq side (by simp [hx])
  rw [hx, eq_comm, Link.ofOption_eq_to] at hnb
  cases side with
  | next =>
    obtain ⟨rest, rfl⟩ : ∃ rest, after = x :: rest := List.head?_eq_some_iff.mp hnb
    exact h.next_iff_prev.mp hx
  | prev =>
    obtain ⟨rest, rfl⟩ : ∃ rest, before = rest ++ [x] := List.getLast?_eq_some_iff.mp hnb
    rw [List.append_assoc] at h
    exact h.next_iff_prev.mpr hx

/-- A row can be judged from its neighbours: true links that are paired form a row. -/
theorem row_of_links
    (link : ∀ before c after, siblings = before ++ c :: after → ∀ side,
      slots c side ≠ .unknown → slots c side = .ofOption (side.neighbour before after))
    (paired : ∀ before x y after, siblings = before ++ x :: y :: after →
      (slots x .next = .to y ↔ slots y .prev = .to x)) : Row slots siblings := by
  intro before after h
  rcases List.eq_nil_or_concat before with rfl | ⟨before, x, rfl⟩
  · cases after with
    | nil => exact .inr ⟨by simp, by simp⟩
    | cons y after =>
      by_cases hy : slots y .prev = .unknown
      · exact .inr ⟨by simp, by simpa using hy⟩
      · refine .inl ⟨by simp, ?_⟩
        simpa [Side.neighbour] using link [] y after h .prev hy
  · cases after with
    | nil =>
      by_cases hx : slots x .next = .unknown
      · exact .inr ⟨by simpa using hx, by simp⟩
      · refine .inl ⟨?_, by simp⟩
        simpa [Side.neighbour] using link before x [] (by simpa using h) .next hx
    | cons y after =>
      have hx := link before x (y :: after) (by simp [h]) .next
      have hy := link (before ++ [x]) y after (by simp [h]) .prev
      have hp := paired before x y after (by simp [h])
      simp only [Side.neighbour, List.head?_cons, List.getLast?_concat] at hx hy
      by_cases hxu : slots x .next = .unknown
      · have hyu : slots y .prev = .unknown := by
          by_contra hne
          have hto := hp.mpr (by simpa [Link.ofOption] using hy hne)
          rw [hxu] at hto
          cases hto
        exact .inr ⟨by simpa using hxu, by simpa using hyu⟩
      · have hto : slots x .next = .to y := by simpa [Link.ofOption] using hx hxu
        exact .inl ⟨by simpa [Link.ofOption] using hto,
          by simpa [Link.ofOption] using hp.mp hto⟩

theorem row_iff_take_drop : Row slots siblings ↔ ∀ i < siblings.length + 1,
    Meets slots (siblings.take i).getLast? (siblings.drop i).head? := by
  constructor
  · intro h i _
    exact h _ _ (List.take_append_drop i siblings).symm
  · rintro h before after rfl
    simpa using h before.length (by rw [List.length_append]; omega)

instance (slots : Slots) (left right : Option NodeId) : Decidable (Meets slots left right) :=
  inferInstanceAs (Decidable (_ ∨ _))

instance (slots : Slots) (siblings : List NodeId) : Decidable (Row slots siblings) :=
  decidable_of_iff' _ row_iff_take_drop

/-! ## Parts of a row -/

/-- The cuts in front of the nodes of a list. -/
def CutsBefore (slots : Slots) (part : List NodeId) : Prop :=
  ∀ before y after, part = before ++ y :: after → Meets slots before.getLast? (some y)

/-- The cuts behind the nodes of a list. -/
def CutsAfter (slots : Slots) (part : List NodeId) : Prop :=
  ∀ before x after, part = before ++ x :: after → Meets slots (some x) after.head?

/-- Every cut of a row lies in front of a node of the first part, behind a node of the second part,
or between the two. -/
theorem row_append : Row slots (before ++ after) ↔
    CutsBefore slots before ∧ Meets slots before.getLast? after.head? ∧ CutsAfter slots after := by
  constructor
  · intro h
    refine ⟨?_, h before after rfl, ?_⟩
    · rintro l y r rfl
      simpa using h l (y :: r ++ after) (by simp)
    · rintro l x r rfl
      simpa using h (before ++ l ++ [x]) r (by simp)
  · rintro ⟨hb, hm, ha⟩ l r h
    rcases List.append_eq_append_iff.mp h with ⟨part, rfl, rfl⟩ | ⟨part, rfl, rfl⟩
    · rcases List.eq_nil_or_concat part with rfl | ⟨part, x, rfl⟩
      · simpa using hm
      · simpa using ha part x r (by simp)
    · cases part with
      | nil => simpa using hm
      | cons y part => simpa using hb l y part rfl

theorem cutsAfter_cons : CutsAfter slots (c :: after) ↔
    Meets slots (some c) after.head? ∧ CutsAfter slots after := by
  constructor
  · intro h
    refine ⟨h [] c after rfl, ?_⟩
    rintro l x r rfl
    exact h (c :: l) x r rfl
  · rintro ⟨hm, ha⟩ l x r h
    rcases List.cons_eq_append_iff.mp h with ⟨rfl, h⟩ | ⟨l, rfl, rfl⟩
    · obtain ⟨rfl, rfl⟩ := List.cons.inj h
      exact hm
    · exact ha l x r rfl

/-- The cuts in front of nodes do not ask what the last node has behind it. -/
theorem CutsBefore.congr (h : CutsBefore slots before) (hnd : before.Nodup)
    (hnext : ∀ x ∈ before, before.getLast? ≠ some x → slots' x .next = slots x .next)
    (hprev : ∀ x ∈ before, slots' x .prev = slots x .prev) : CutsBefore slots' before := by
  rintro l y r rfl
  refine (h l y r rfl).congr ?_ ?_
  · intro x hx
    have hxl : x ∈ l := List.mem_of_getLast? hx
    refine hnext x (List.mem_append_left _ hxl) fun hlast => ?_
    have hxr : x ∈ y :: r := List.mem_of_getLast? (by
      rw [List.getLast?_append_of_ne_nil _ (by simp)] at hlast; exact hlast)
    exact (List.nodup_append.mp hnd).2.2 x hxl x hxr rfl
  · intro z hz
    obtain rfl : y = z := by simpa using hz
    exact hprev y (by simp)

/-- The cuts behind nodes do not ask what the first node has in front of it. -/
theorem CutsAfter.congr (h : CutsAfter slots after) (hnd : after.Nodup)
    (hprev : ∀ x ∈ after, after.head? ≠ some x → slots' x .prev = slots x .prev)
    (hnext : ∀ x ∈ after, slots' x .next = slots x .next) : CutsAfter slots' after := by
  rintro l x r rfl
  refine (h l x r rfl).congr ?_ ?_
  · intro z hz
    obtain rfl : x = z := by simpa using hz
    exact hnext x (by simp)
  · intro y hy
    have hyr : y ∈ r := List.mem_of_head? hy
    refine hprev y (by simp [hyr]) fun hfirst => ?_
    have hyl : y ∈ l ++ [x] := by
      cases l with
      | nil => simpa [eq_comm] using hfirst
      | cons z l => simp at hfirst; simp [hfirst]
    have hnd' : ((l ++ [x]) ++ r).Nodup := by simpa using hnd
    exact (List.nodup_append.mp hnd').2.2 y hyl y hyr rfl

/-! ## Changes at one cut -/

/-- Only the two ends of a cut are rewritten, and they meet afterwards. -/
theorem Row.at_cut (h : Row slots (before ++ after)) (hnd : (before ++ after).Nodup)
    (hcut : Meets slots' before.getLast? after.head?)
    (hb : ∀ x ∈ before, ∀ s, (s = .next → before.getLast? ≠ some x) → slots' x s = slots x s)
    (ha : ∀ x ∈ after, ∀ s, (s = .prev → after.head? ≠ some x) → slots' x s = slots x s) :
    Row slots' (before ++ after) := by
  obtain ⟨hnb, hna, -⟩ := List.nodup_append.mp hnd
  obtain ⟨hb', -, ha'⟩ := row_append.mp h
  refine row_append.mpr ⟨hb'.congr hnb ?_ ?_, hcut, ha'.congr hna ?_ ?_⟩
  · exact fun x hx hne => hb x hx .next fun _ => hne
  · exact fun x hx => hb x hx .prev (by simp)
  · exact fun x hx hne => ha x hx .prev fun _ => hne
  · exact fun x hx => ha x hx .next (by simp)

/-- Writing both ends of the cut beside one node. -/
theorem Row.remember (h : Row slots (before ++ c :: after)) (hnd : (before ++ c :: after).Nodup)
    (side : Side) (hs : ∀ x s, slots' x s =
      if x = c ∧ s = side then .ofOption (side.neighbour before after)
      else if side.neighbour before after = some x ∧ s = side.opposite then .to c
      else slots x s) : Row slots' (before ++ c :: after) := by
  obtain ⟨-, hnc, hdis⟩ := List.nodup_append.mp hnd
  have hca : c ∉ after := (List.nodup_cons.mp hnc).1
  have hcb : c ∉ before := fun hc => hdis c hc c (by simp) rfl
  -- The cut lies before `c` or behind it, and so decides which part `c` belongs to.
  cases side with
  | prev =>
    refine h.at_cut hnd (.inl ⟨?_, ?_⟩) ?_ ?_
    · intro x hx
      have hne : x ≠ c := fun hxc => hcb (hxc ▸ List.mem_of_getLast? hx)
      have hlast : before.getLast? = some x := hx
      simp [hs, hlast, hne, Link.ofOption]
    · intro y hy
      obtain rfl : c = y := by simpa using hy
      simp [hs]
    · intro x hx s hne
      have hxc : x ≠ c := fun hxc => hcb (hxc ▸ hx)
      rw [hs, if_neg fun hxs => hxc hxs.1, if_neg fun hxs => hne hxs.2 hxs.1]
    · intro x hx s hne
      have hlast : before.getLast? ≠ some x := fun hf => hdis x (List.mem_of_getLast? hf) x hx rfl
      rw [hs, if_neg fun hxs => hne hxs.2 (by simp [hxs.1]), if_neg fun hxs => hlast hxs.1]
  | next =>
    rw [show before ++ c :: after = (before ++ [c]) ++ after by simp] at h hnd ⊢
    refine h.at_cut hnd (.inl ⟨?_, ?_⟩) ?_ ?_
    · intro x hx
      obtain rfl : c = x := by simpa using hx
      simp [hs]
    · intro y hy
      have hne : y ≠ c := fun hyc => hca (hyc ▸ List.mem_of_head? hy)
      have hfirst : after.head? = some y := hy
      simp [hs, hfirst, hne, Link.ofOption]
    · intro x hx s hne
      have hfirst : after.head? ≠ some x := fun hf =>
        (List.nodup_append.mp hnd).2.2 x hx x (List.mem_of_head? hf) rfl
      rw [hs, if_neg fun hxs => hne hxs.2 (by simp [hxs.1]), if_neg fun hxs => hfirst hxs.1]
    · intro x hx s hne
      have hxc : x ≠ c := fun hxc => hca (hxc ▸ hx)
      rw [hs, if_neg fun hxs => hxc hxs.1, if_neg fun hxs => hne hxs.2 hxs.1]

/-- The cuts away from a node outlive every change that only reaches the nodes it knows, and those
only on the side where it stands. -/
theorem Row.cuts_around (h : Row slots (before ++ c :: after)) (hnd : (before ++ c :: after).Nodup)
    (hs : ∀ x ∈ before ++ after, ∀ s, slots c s.opposite ≠ .to x → slots' x s = slots x s) :
    CutsBefore slots' before ∧ CutsAfter slots' after := by
  obtain ⟨hnb, hnc, hdis⟩ := List.nodup_append.mp hnd
  obtain ⟨hb, -, ha⟩ := row_append.mp h
  have hprev : ∀ x, slots c .prev = .to x → before.getLast? = some x := by
    intro x hx
    simpa [hx, eq_comm] using h.link_eq .prev (by simp [hx])
  have hnext : ∀ y, slots c .next = .to y → after.head? = some y := by
    intro y hy
    simpa [hy, eq_comm] using h.link_eq .next (by simp [hy])
  refine ⟨hb.congr hnb ?_ ?_, (cutsAfter_cons.mp ha).2.congr (List.nodup_cons.mp hnc).2 ?_ ?_⟩
  · intro x hx hne
    exact hs x (List.mem_append_left _ hx) .next fun hto => hne (hprev x hto)
  · intro x hx
    refine hs x (List.mem_append_left _ hx) .prev fun hto => ?_
    exact hdis x hx x (List.mem_cons_of_mem c (List.mem_of_head? (hnext x hto))) rfl
  · intro x hx hne
    exact hs x (List.mem_append_right _ hx) .prev fun hto => hne (hnext x hto)
  · intro x hx
    refine hs x (List.mem_append_right _ hx) .next fun hto => ?_
    exact hdis x (List.mem_of_getLast? (hprev x hto)) x (List.mem_cons_of_mem c hx) rfl

/-- The two cuts beside a node become one when it is taken out: known if both were, and otherwise
unknown. -/
theorem Meets.join {left right : Option NodeId} (hl : Meets slots left (some c))
    (hr : Meets slots (some c) right)
    (hx : ∀ x ∈ left,
      slots' x .next = if slots c .prev = .to x then slots c .next else slots x .next)
    (hy : ∀ y ∈ right,
      slots' y .prev = if slots c .next = .to y then slots c .prev else slots y .prev) :
    Meets slots' left right := by
  rcases hl with ⟨h₁, h₂⟩ | ⟨h₁, h₂⟩
  · rcases hr with ⟨h₃, h₄⟩ | ⟨h₃, h₄⟩
    · refine .inl ⟨fun x hx' => ?_, fun y hy' => ?_⟩
      · rw [hx x hx', if_pos ((h₂ c rfl).trans (Link.ofOption_eq_to.mpr hx')), h₃ c rfl]
      · rw [hy y hy', if_pos ((h₃ c rfl).trans (Link.ofOption_eq_to.mpr hy')), h₂ c rfl]
    · refine .inr ⟨fun x hx' => ?_, fun y hy' => ?_⟩
      · rw [hx x hx', if_pos ((h₂ c rfl).trans (Link.ofOption_eq_to.mpr hx')), h₃ c rfl]
      · rw [hy y hy', if_neg (by simp [h₃ c rfl]), h₄ y hy']
  · rcases hr with ⟨h₃, h₄⟩ | ⟨h₃, h₄⟩
    · refine .inr ⟨fun x hx' => ?_, fun y hy' => ?_⟩
      · rw [hx x hx', if_neg (by simp [h₂ c rfl]), h₁ x hx']
      · rw [hy y hy', if_pos ((h₃ c rfl).trans (Link.ofOption_eq_to.mpr hy')), h₂ c rfl]
    · refine .inr ⟨fun x hx' => ?_, fun y hy' => ?_⟩
      · rw [hx x hx', if_neg (by simp [h₂ c rfl]), h₁ x hx']
      · rw [hy y hy', if_neg (by simp [h₃ c rfl]), h₄ y hy']

/-- Taking a node out: a neighbour that it knew is told what lies on its other side. -/
theorem Row.remove (h : Row slots (before ++ c :: after)) (hnd : (before ++ c :: after).Nodup)
    (hs : ∀ x ∈ before ++ after, ∀ s,
      slots' x s = if slots c s.opposite = .to x then slots c s else slots x s) :
    Row slots' (before ++ after) := by
  obtain ⟨-, hm, ha⟩ := row_append.mp h
  obtain ⟨hb', ha'⟩ := h.cuts_around hnd fun x hx s hne =>
    (hs x hx s).trans (if_neg hne)
  refine row_append.mpr ⟨hb', hm.join (cutsAfter_cons.mp ha).1 ?_ ?_, ha'⟩
  · exact fun x hx => hs x (List.mem_append_left _ (List.mem_of_getLast? hx)) .next
  · exact fun y hy => hs y (List.mem_append_right _ (List.mem_of_head? hy)) .prev

/-- Putting a node in the place of another: it takes over the links, and a neighbour that the other
knew is told. -/
theorem Row.replace {d : NodeId} (h : Row slots (before ++ c :: after))
    (hnd : (before ++ c :: after).Nodup) (htaken : ∀ s, slots' d s = slots c s)
    (hs : ∀ x ∈ before ++ after, ∀ s,
      slots' x s = if slots c s.opposite = .to x then .to d else slots x s) :
    Row slots' (before ++ d :: after) := by
  obtain ⟨-, hm, ha⟩ := row_append.mp h
  obtain ⟨hb', ha'⟩ := h.cuts_around hnd fun x hx s hne =>
    (hs x hx s).trans (if_neg hne)
  have hx' : ∀ x ∈ before.getLast?,
      slots' x .next = if slots c .prev = .to x then .to d else slots x .next := fun x hx =>
    hs x (List.mem_append_left _ (List.mem_of_getLast? hx)) .next
  have hy' : ∀ y ∈ after.head?,
      slots' y .prev = if slots c .next = .to y then .to d else slots y .prev := fun y hy =>
    hs y (List.mem_append_right _ (List.mem_of_head? hy)) .prev
  refine row_append.mpr ⟨hb', ?_, cutsAfter_cons.mpr ⟨?_, ha'⟩⟩
  · rcases hm with ⟨h₁, h₂⟩ | ⟨h₁, h₂⟩
    · refine .inl ⟨fun x hx => ?_, fun y hy => ?_⟩
      · rw [hx' x hx, if_pos ((h₂ c rfl).trans (Link.ofOption_eq_to.mpr hx))]
        rfl
      · obtain rfl : d = y := by simpa using hy
        rw [htaken, h₂ c rfl]
    · refine .inr ⟨fun x hx => ?_, fun y hy => ?_⟩
      · rw [hx' x hx, if_neg (by simp [h₂ c rfl]), h₁ x hx]
      · obtain rfl : d = y := by simpa using hy
        rw [htaken, h₂ c rfl]
  · rcases (cutsAfter_cons.mp ha).1 with ⟨h₁, h₂⟩ | ⟨h₁, h₂⟩
    · refine .inl ⟨fun x hx => ?_, fun y hy => ?_⟩
      · obtain rfl : d = x := by simpa using hx
        rw [htaken, h₁ c rfl]
      · rw [hy' y hy, if_pos ((h₁ c rfl).trans (Link.ofOption_eq_to.mpr hy))]
        rfl
    · refine .inr ⟨fun x hx => ?_, fun y hy => ?_⟩
      · obtain rfl : d = x := by simpa using hx
        rw [htaken, h₁ c rfl]
      · rw [hy' y hy, if_neg (by simp [h₁ c rfl]), h₂ y hy]

end Rows

end Trellis
