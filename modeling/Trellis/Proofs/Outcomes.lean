import Trellis.Proofs.Stamping
import Trellis.Proofs.Writing

/-!
# How runs end

A run that fails keeps the changes made before the failure, so what is said of a run is said of both
ways it may end. `Linking.Ends` does so, and is put together from the steps of a run. Nothing is asked
of the tree: it may hold nodes that it does not have, its records may be wrong, and nodes may lie
below themselves.

Stamping, removing and replacing first ask and then write. Once they write, only two things can stop
them: a node that is referred to and not there, and a way down that does not end.
-/

namespace Trellis

open Relation (ReflTransGen)

namespace Linking

section Rules

variable {α β ι : Type} {x : Linking α} {f : α → Linking β} {t t' : Tree} {a : α} {e : TreeError}
  {P P' : α → Tree → Prop} {Q : β → Tree → Prop} {E E' : TreeError → Tree → Prop}

/-- `P` holds of the answer and the tree if the run succeeds, and `E` of the error and the tree if it
fails. -/
def Ends (x : Linking α) (t : Tree) (P : α → Tree → Prop) (E : TreeError → Tree → Prop) : Prop :=
  match x.run t with
  | .ok a t' => P a t'
  | .error e t' => E e t'

theorem Ends.of_ok (h : x.Ends t P E) (hrun : x.run t = .ok a t') : P a t' := by
  unfold Ends at h
  rwa [hrun] at h

theorem Ends.of_error (h : x.Ends t P E) (hrun : x.run t = .error e t') : E e t' := by
  unfold Ends at h
  rwa [hrun] at h

theorem Ends.after {R : Tree → Prop} (h : x.Ends t (fun _ => R) fun _ => R) : R (x.after t) := by
  unfold Ends at h
  unfold Linking.after
  cases hrun : x.run t with
  | ok a t' => rwa [hrun] at h
  | error e t' => rwa [hrun] at h

theorem ends_of_run (ok : ∀ a t', x.run t = .ok a t' → P a t')
    (error : ∀ e t', x.run t = .error e t' → E e t') : x.Ends t P E := by
  unfold Ends
  cases hrun : x.run t with
  | ok a t' => exact ok a t' hrun
  | error e t' => exact error e t' hrun

theorem Ends.mono (h : x.Ends t P E) (ok : ∀ a t', P a t' → P' a t')
    (error : ∀ e t', E e t' → E' e t') : x.Ends t P' E' :=
  ends_of_run (fun a t' hrun => ok a t' (h.of_ok hrun))
    fun e t' hrun => error e t' (h.of_error hrun)

theorem ends_throw (h : E e t) : (throw e : Linking α).Ends t P E := h

theorem ends_bind (hx : x.Ends t P E) (hf : ∀ a t', P a t' → (f a).Ends t' Q E) :
    (x >>= f).Ends t Q E := by
  unfold Ends
  cases hrun : x.run t with
  | ok a t' =>
    rw [run_bind_ok hrun]
    exact hf a t' (hx.of_ok hrun)
  | error e t' =>
    rw [run_bind_error hrun]
    exact hx.of_error hrun

theorem ends_ask {question : Tree → Except TreeError α} (ok : ∀ a, question t = .ok a → P a t)
    (error : ∀ e, question t = .error e → E e t) : (ask question).Ends t P E := by
  unfold Ends
  cases h : question t with
  | ok a =>
    rw [run_ask_ok h]
    exact ok a h
  | error e =>
    rw [run_ask_error h]
    exact error e h

theorem ends_get {id : NodeId} (unknown : t.get? id = none → E (.unknownNode id) t) :
    (ask (·.get id)).Ends t (fun n t' => t' = t ∧ t.get? id = some n) E := by
  cases hn : t.get? id with
  | some n =>
    refine ends_ask (fun m hm => ⟨rfl, ?_⟩) fun e he => ?_
    · rw [Except.ok.inj (hm.symm.trans (Tree.get_of_get? hn))]
    · cases he.symm.trans (Tree.get_of_get? hn)
  | none =>
    refine ends_ask (fun m hm => ?_) fun e he => ?_
    · cases hm.symm.trans (Tree.get_of_get?_none hn)
    · obtain rfl := Except.error.inj (he.symm.trans (Tree.get_of_get?_none hn))
      exact unknown hn

theorem ends_childNodesWithPaths {id : NodeId}
    (unknown : t.get? id = none → E (.unknownNode id) t) :
    (ask (·.childNodesWithPaths id)).Ends t
      (fun held t' => t' = t ∧ ∃ n, t.get? id = some n ∧ held = n.heldNodes) E := by
  cases hn : t.get? id with
  | some n =>
    have hask := Tree.childNodesWithPaths_eq hn
    refine ends_ask (fun held hok => ⟨rfl, n, rfl, ?_⟩) fun e he => ?_
    · exact Except.ok.inj (hok.symm.trans hask)
    · cases he.symm.trans hask
  | none =>
    have hask : t.childNodesWithPaths id = .error (.unknownNode id) := by
      simp [Tree.childNodesWithPaths, Tree.get_of_get?_none hn, bind, Except.bind]
    refine ends_ask (fun held hok => ?_) fun e he => ?_
    · cases hok.symm.trans hask
    · obtain rfl := Except.error.inj (he.symm.trans hask)
      exact unknown hn

theorem ends_edit {operation : Tree → Except TreeError (Edited α)}
    (ok : ∀ done, operation t = .ok done → P done.answer done.tree)
    (error : ∀ e, operation t = .error e → E e t) : (edit operation).Ends t P E := by
  unfold Ends
  cases h : operation t with
  | ok done =>
    rw [run_edit_ok h]
    exact ok done h
  | error e =>
    rw [run_edit_error h]
    exact error e h

theorem ends_change {id : NodeId} {g : Node → Node} {P : Unit → Tree → Prop}
    (known : ∀ n, t.get? id = some n → P () (t.update id g))
    (unknown : t.get? id = none → E (.unknownNode id) t) : (change id g).Ends t P E := by
  unfold Ends
  cases hn : t.get? id with
  | some n =>
    rw [run_change hn]
    exact known n hn
  | none =>
    have hask : (change id g).run t = .error (.unknownNode id) t :=
      run_bind_error (run_ask_error (Tree.get_of_get?_none hn))
    rw [hask]
    exact unknown hn

/-- What every step of a loop keeps, the loop keeps, and what a step tells of its item holds of all
items afterwards. -/
theorem ends_forM {l : List ι} {step : ι → Linking Unit} {I : Tree → Prop} {K : ι → Prop} (h : I t)
    (hstep : ∀ i ∈ l, ∀ t, I t → (step i).Ends t (fun _ t' => I t' ∧ K i) E) :
    (l.forM step).Ends t (fun _ t' => I t' ∧ ∀ i ∈ l, K i) E := by
  induction l generalizing t with
  | nil => exact ⟨h, by simp⟩
  | cons i l ih =>
    rw [List.forM]
    refine ends_bind (hstep i (by simp) t h) ?_
    intro _ t' ht'
    obtain ⟨h', hi⟩ := ht'
    refine (ih h' fun j hj => hstep j (List.mem_cons_of_mem i hj)).mono (fun _ _ h => ?_)
      fun _ _ h => h
    exact ⟨h.1, List.forall_mem_cons.mpr ⟨hi, h.2⟩⟩

theorem ends_foldlM {l : List ι} {step : α → ι → Linking α} {I : Tree → Prop} (h : I t)
    (hstep : ∀ i ∈ l, ∀ a t, I t → (step a i).Ends t (fun _ => I) E) (start : α) :
    (l.foldlM step start).Ends t (fun _ => I) E := by
  induction l generalizing t start with
  | nil => exact h
  | cons i l ih =>
    rw [List.foldlM_cons]
    refine ends_bind (hstep i (by simp) start t h) ?_
    intro a t' h'
    exact ih h' (fun j hj => hstep j (List.mem_cons_of_mem i hj)) a

end Rules

end Linking

namespace Tree

variable {t t' : Tree} {x : NodeId} {met met' : NodeId → Prop} {e : TreeError}

theorem SameBodies.unknown_iff (h : t.SameBodies t') : t'.get? x = none ↔ t.get? x = none := by
  have hx := h x
  rw [← Option.map_eq_none_iff (f := Node.body), hx, Option.map_eq_none_iff]

theorem SameBodies.nesting_eq (h : t.SameBodies t') : t'.nesting = t.nesting :=
  nesting_congr fun _ => h.unknown_iff

/-- A node at or below `root` lies below itself. -/
def Circular (t : Tree) (root : NodeId) : Prop :=
  ∃ a, ReflTransGen t.Holds root a ∧ t.Below a a

theorem Circular.above {a b : NodeId} (h : t.Circular b) (hab : ReflTransGen t.Holds a b) :
    t.Circular a := by
  obtain ⟨c, hc, hcc⟩ := h
  exact ⟨c, hab.trans hc, hcc⟩

/-- The error names a node that is not there, one of those `met`. -/
def Missing (t : Tree) (met : NodeId → Prop) (e : TreeError) : Prop :=
  ∃ x, e = .unknownNode x ∧ t.get? x = none ∧ met x

theorem Missing.imp (h : t.Missing met e) (himp : ∀ x, met x → met' x) : t.Missing met' e := by
  obtain ⟨x, rfl, hx, hm⟩ := h
  exact ⟨x, rfl, hx, himp x hm⟩

/-- Why a stamp cannot go on: a node at or below its root lies below itself, or a node below it is
not there. -/
def Unstampable (t : Tree) (root : NodeId) (e : TreeError) : Prop :=
  ((∃ x, e = .endless x) ∧ t.Circular root) ∨ t.Missing (t.Below root) e

/-- `t'` is `t` with `new` written at `a`, which is where `old` records that it stands. -/
structure Placed (t : Tree) (old new : NodeId) (a : Attachment) (t' : Tree) : Prop where
  attached : t.attachmentOf? old = some a
  known : ∃ m, t.get? new = some m
  assigned : ∃ done, t.assign (.node a.parent) a.path (.node new) = .ok done ∧ done.tree = t'

theorem Placed.written {old new : NodeId} {a : Attachment} (h : t.Placed old new a t') :
    t' = t ∨ t.Written (.node a.parent) [new] t' := by
  obtain ⟨done, hassign, rfl⟩ := h.assigned
  exact written_of_assign hassign

/-! ## Edits end -/

/-- The answer is not that there is no end. -/
def Settles {α : Type} (r : Except TreeError α) : Prop := ∀ x, r ≠ .error (.endless x)

section Settles

variable {α β : Type} {r : Except TreeError α} {f : α → Except TreeError β}

theorem settles_ok (a : α) : Settles (.ok a) := by
  intro x h
  cases h

theorem settles_bind (hr : Settles r) (hf : ∀ a, Settles (f a)) : Settles (r >>= f) := by
  cases r with
  | ok a => exact hf a
  | error e =>
    intro x h
    exact hr x (congrArg Except.error (Except.error.inj h))

theorem settles_child (t : Tree) (v : Value) (path : Path) (key : Key) :
    Settles (t.child v path key) := by
  intro x h
  unfold child at h
  cases hc : t.expand? .unrestricted v with
  | none => cases v <;> simp [hc] at h
  | some c =>
    cases hw : c.child? key with
    | some w => simp [hc, hw] at h
    | none => cases c <;> cases key <;> simp [hc, hw] at h

theorem settles_anchorFrom (t : Tree) (v : Value) (path : Path) (keys : List Key) :
    Settles (t.anchorFrom v path keys) := by
  induction keys generalizing v path with
  | nil => exact settles_ok _
  | cons key rest ih =>
    unfold anchorFrom
    refine settles_bind (t.settles_child v path key) fun w => ?_
    refine settles_bind (ih w _) fun found => ?_
    cases found <;> exact settles_ok _

theorem settles_editAt {g : Value → Except TreeError (α × Value)} (hg : ∀ v, Settles (g v))
    (v : Value) (path : Path) (keys : List Key) : Settles (v.editAt g path keys) := by
  induction keys generalizing v path with
  | nil => exact hg v
  | cons key rest ih =>
    unfold Value.editAt
    split
    · split
      · exact settles_bind (ih _ _) fun _ => settles_ok _
      · intro x h
        cases h
    · split
      · exact settles_bind (ih _ _) fun _ => settles_ok _
      · intro x h
        cases h
    · intro x h
      cases h

theorem settles_assignEntry (path : Path) (key : Key) (new v : Value) :
    Settles (Value.assignEntry path key new v) := by
  intro x h
  cases v with
  | list items =>
    cases key with
    | index i => cases hi : items[i]? <;> simp [Value.assignEntry, missingEntry, hi] at h
    | name n => simp [Value.assignEntry, missingEntry] at h
  | map d => cases key <;> simp [Value.assignEntry, missingEntry] at h
  | null => simp [Value.assignEntry] at h
  | bool b => simp [Value.assignEntry] at h
  | int i => simp [Value.assignEntry] at h
  | text s => simp [Value.assignEntry] at h
  | node id => simp [Value.assignEntry] at h

theorem settles_get (t : Tree) (id : NodeId) : Settles (t.get id) := by
  intro x h
  unfold get at h
  split at h <;> cases h

theorem settles_editContainer (t : Tree) (root : Value) (path : Path)
    {onNode : Node → Except TreeError (α × Node)} {onValue : Value → Except TreeError (α × Value)}
    (hnode : ∀ n, Settles (onNode n)) (hvalue : ∀ v, Settles (onValue v)) :
    Settles (t.editContainer root path onNode onValue) := by
  unfold editContainer
  refine settles_bind (t.settles_anchorFrom root [] path) fun found => ?_
  split
  · exact settles_bind (settles_editAt hvalue _ _ _) fun _ => settles_ok _
  · refine settles_bind (t.settles_get _) fun n => ?_
    exact settles_bind (hnode n) fun _ => settles_ok _
  · refine settles_bind (t.settles_get _) fun n => ?_
    split
    · exact settles_bind (settles_editAt hvalue _ _ _) fun _ => settles_ok _
    · intro x h
      cases h

/-- Assigning goes down a path and ends with it. -/
theorem settles_assign (t : Tree) (root : Value) (path : Path) (new : Value) :
    Settles (t.assign root path new) := by
  unfold assign
  split
  · intro x h
    cases h
  · refine t.settles_editContainer root _ (fun n => ?_) fun v => ?_
    · intro x h
      unfold Node.assignField at h
      split at h <;> cases h
    · exact settles_assignEntry _ _ _ v

end Settles

end Tree

namespace Linking

open Trellis.Tree

variable {t t₀ : Tree} {old new id : NodeId} {n : Node}

/-! ## Records only -/

/-- A change of what a node records. -/
theorem ends_record {g : Node → Node} {met : NodeId → Prop} (hg : ∀ n, (g n).body = n.body)
    (h : t₀.SameBodies t) (hmet : met id) :
    (change id g).Ends t (fun _ => t₀.SameBodies)
      fun e t' => t₀.SameBodies t' ∧ t₀.Missing met e :=
  ends_change (fun _ _ => h.trans (sameBodies_update t id hg)) fun hn =>
    ⟨h, id, rfl, h.unknown_iff.mp hn, hmet⟩

theorem ends_relink {l : Link} {side : Side} {target : Link} {met : NodeId → Prop}
    (h : t₀.SameBodies t) (hmet : ∀ x, l = .to x → met x) :
    (relink l side target).Ends t (fun _ => t₀.SameBodies)
      fun e t' => t₀.SameBodies t' ∧ t₀.Missing met e := by
  match l with
  | .unknown => exact h
  | .absent => exact h
  | .to other => exact ends_record (fun m => m.body_setLink side target) h (hmet other rfl)

/-- Stamping only writes records. It stops at an unknown node below the root, or when its budget is
spent, which does not happen if the budget exceeds the number of nodes below and none of them lies
below itself. -/
theorem ends_stampBelow (fuel : Nat) (root : NodeId) (hroot : ∃ n, t₀.get? root = some n)
    (h : t₀.SameBodies t) :
    (stampBelow fuel root).Ends t (fun _ => t₀.SameBodies) fun e t' => t₀.SameBodies t' ∧
      (((∃ x, e = .endless x) ∧ (¬ t₀.Circular root → fuel ≤ t₀.population root)) ∨
        t₀.Missing (t₀.Below root) e) := by
  induction fuel generalizing t root with
  | zero => exact ⟨h, .inl ⟨⟨root, rfl⟩, fun _ => Nat.zero_le _⟩⟩
  | succ fuel ih =>
    rw [stampBelow]
    refine ends_bind (ends_childNodesWithPaths fun hn => ?_) ?_
    · obtain ⟨n, hroot⟩ := hroot
      cases hroot.symm.trans (h.unknown_iff.mp hn)
    intro held t₁ hchildren
    obtain ⟨ht₁, n, hn, hheld⟩ := hchildren
    rw [ht₁]
    have hmem : ∀ e ∈ held, t₀.Holds root e.2 := by
      intro e he
      exact h.holds_of ⟨n, hn, List.mem_map_of_mem (f := (·.2)) (hheld ▸ he)⟩
    refine ends_bind (ends_forM (I := t₀.SameBodies) (K := fun e => ∃ m, t₀.get? e.2 = some m) h ?_) ?_
    · intro e he t ht
      refine ends_change (fun m hm => ⟨?_, ?_⟩) fun hx => ⟨ht, .inr ?_⟩
      · exact ht.trans (sameBodies_update t e.2 fun m => m.body_attach ⟨root, e.1⟩)
      · exact ht.symm.known ⟨m, hm⟩
      · exact ⟨e.2, rfl, ht.unknown_iff.mp hx, .single (hmem e he)⟩
    intro _ t₂ hattached
    obtain ⟨h₂, hknown⟩ := hattached
    refine ends_foldlM h₂ ?_ held.length
    intro e he count t ht
    have hin := List.mem_reverse.mp he
    have hhead := hmem e hin
    have hrest := ih e.2 (hknown e hin) ht
    refine ends_bind (hrest.mono (fun _ _ h => h) fun _ _ h => ⟨h.1, ?_⟩) fun _ _ h => h
    rcases h.2 with ⟨hend, hfuel⟩ | hmiss
    · refine .inl ⟨hend, fun hac => ?_⟩
      have hchild : ¬ t₀.Circular e.2 := fun hc => hac (hc.above (.single hhead))
      obtain ⟨m, hm⟩ := hknown e hin
      have hlt := population_lt hhead hm fun hb => hac ⟨e.2, .single hhead, hb⟩
      have hle := hfuel hchild
      omega
    · exact .inr (hmiss.imp fun x hx => .head hhead hx)

/-- With the budget it is given, stamping ends unless a node there lies below itself. -/
theorem ends_stampDescendants (root : NodeId) (hroot : ∃ n, t₀.get? root = some n)
    (h : t₀.SameBodies t) :
    (stampDescendants root).Ends t (fun _ => t₀.SameBodies) fun e t' =>
      t₀.SameBodies t' ∧ t₀.Unstampable root e := by
  have hstamp := ends_stampBelow t.nesting root hroot h
  refine Ends.mono (x := stampDescendants root) hstamp (fun _ _ h => h) fun e t' hstop =>
    ⟨hstop.1, hstop.2.imp_left fun ⟨hend, hfuel⟩ => ⟨hend, ?_⟩⟩
  by_contra hac
  have hle := hfuel hac
  have hlt := t₀.population_lt_nesting root
  rw [← h.nesting_eq] at hlt
  omega

/-! ## Stamping, removing, replacing -/

/-- A stamp that fails has changed nothing, or stops below the root. -/
theorem ends_stamp (t : Tree) (root : NodeId) :
    (stamp root).Ends t (fun _ => t.SameBodies) fun e t' =>
      t' = t ∨ (t.SameBodies t' ∧ t.Unstampable root e) := by
  rw [stamp]
  refine ends_bind (ends_get fun _ => .inl rfl) ?_
  intro n _ hknown
  obtain ⟨ht, hn⟩ := hknown
  rw [ht]
  split
  · exact ends_throw (.inl rfl)
  · refine ends_bind (P := fun _ => t.SameBodies) ?_ ?_
    · exact ends_change (fun _ _ => sameBodies_update t root Node.body_detach) fun _ => .inl rfl
    · intro _ t₁ h₁
      exact (ends_stampDescendants root ⟨n, hn⟩ h₁).mono (fun _ _ h => h) fun _ _ h => .inr h

/-- The nodes that are told a new index are found below the parent. -/
theorem below_of_shifted {parent : NodeId} {items : List Value} {path : Path} {i : Nat}
    (hres : t.resolve (.node parent) path = .ok (.list items)) {e : NodeId × Nat}
    (he : e ∈ Value.shifted items i) : t.Below parent e.1 := by
  obtain ⟨⟨item, position⟩, hitem, hm⟩ := List.mem_flatMap.mp he
  obtain ⟨⟨q, x⟩, hx, rfl⟩ := List.mem_map.mp hm
  have hmem : item ∈ items := List.fst_mem_of_mem_zipIdx (List.mem_of_mem_drop hitem)
  refine below_of_resolve hres (by simp) ⟨x, ?_, .refl⟩
  rw [Value.held_list]
  exact List.mem_flatMap.mpr ⟨item, hmem, List.mem_map_of_mem (f := (·.2)) hx⟩

/-- What a removal does once the entry is out: some nodes are told their new index, and the
neighbours are joined. -/
theorem ends_close (depth : Nat) (moved : List (NodeId × Nat)) (hn : t₀.get? id = some n) :
    Ends (do
        moved.forM fun (other, index) => change other (·.renumber depth index)
        let n ← ask (·.get id)
        relink n.prev .next n.next
        relink n.next .prev n.prev
        change id Node.detach) t₀ (fun _ => t₀.SameBodies) fun e t' => t₀.SameBodies t' ∧
      t₀.Missing (fun x => (∃ side, t₀.slots id side = .to x) ∨ x ∈ moved.map (·.1)) e := by
  refine ends_bind (ends_forM
    (I := fun t' => t₀.SameBodies t' ∧ ∀ side, t'.slots id side = t₀.slots id side)
    (K := fun _ => True) ⟨.refl t₀, fun _ => rfl⟩ ?_) ?_
  · intro e he t ⟨ht, hslots⟩
    refine ends_change (fun m _ => ⟨⟨?_, fun side => ?_⟩, trivial⟩) fun hx => ?_
    · exact ht.trans (sameBodies_update t e.1 fun m => m.body_renumber depth e.2)
    · rw [slots_update_of fun m => m.link_renumber depth e.2, hslots]
    · exact ⟨ht, e.1, rfl, ht.unknown_iff.mp hx, .inr (List.mem_map_of_mem he)⟩
  · intro _ t₁ ⟨⟨h₁, hslots⟩, _⟩
    obtain ⟨m, hm⟩ := h₁.known ⟨n, hn⟩
    have hlink : ∀ side x, m.link side = .to x → ∃ side, t₀.slots id side = .to x := by
      intro side x hx
      exact ⟨side, by rw [← hslots, slots_eq hm, hx]⟩
    refine ends_bind (ends_get fun hx => ?_) ?_
    · cases hm.symm.trans hx
    intro k _ ⟨ht, hk⟩
    rw [ht]
    obtain rfl : k = m := Option.some.inj (hk.symm.trans hm)
    refine ends_bind (ends_relink h₁ fun x hx => .inl (hlink .prev x hx)) ?_
    intro _ t₂ h₂
    refine ends_bind (ends_relink h₂ fun x hx => .inl (hlink .next x hx)) ?_
    intro _ t₃ h₃
    refine ends_change (fun _ _ => h₃.trans (sameBodies_update t₃ id Node.body_detach)) fun hx => ?_
    cases hn.symm.trans (h₃.unknown_iff.mp hx)

/-- A removal that fails has changed nothing, or it has erased the entry and stops at a node that
lies below the parent or is linked to the removed one. -/
theorem ends_remove (t : Tree) (id : NodeId) :
    (remove id).Ends t
      (fun _ t' => ∃ a done, t.attachmentOf? id = some a ∧
        t.erase (.node a.parent) a.path = .ok done ∧ done.tree.SameBodies t')
      fun e t' => t' = t ∨ ∃ a done, t.attachmentOf? id = some a ∧
        t.erase (.node a.parent) a.path = .ok done ∧
        t.Missing (fun x => (∃ side, t.slots id side = .to x) ∨ t.Below a.parent x) e := by
  rw [remove]
  refine ends_bind (ends_get fun _ => .inl rfl) ?_
  intro n _ ⟨ht, hn⟩
  rw [ht]
  cases ha : n.attachment with
  | none => exact ends_throw (.inl rfl)
  | some a =>
    obtain ⟨parent, path⟩ := a
    have hat : t.attachmentOf? id = some ⟨parent, path⟩ := (attachmentOf?_eq hn).trans ha
    simp only
    cases hlast : path.splitLast? with
    | none => exact ends_throw (.inl rfl)
    | some split =>
      obtain ⟨above, last⟩ := split
      refine ends_bind (P := fun v t' => t' = t ∧ t.resolve (.node parent) above = .ok v)
        (ends_ask (fun v hv => ⟨rfl, hv⟩) fun _ _ => .inl rfl) ?_
      intro v _ ⟨ht, hres⟩
      rw [ht]
      refine ends_bind (P := fun _ t' => ∃ done, done.tree = t' ∧
        t.erase (.node parent) path = .ok done)
        (ends_edit (fun done hd => ⟨done, rfl, hd⟩) fun _ _ => .inl rfl) ?_
      intro _ _ ⟨done, hdone, herase⟩
      rw [← hdone]
      have hrec := sameRecords_of_erase herase
      obtain ⟨m, hm⟩ := hrec.known ⟨n, hn⟩
      refine (ends_close above.length _ hm).mono (fun _ t' h => ⟨_, done, hat, herase, h⟩) ?_
      intro e t' ⟨_, x, hx, hunknown, hmet⟩
      refine .inr ⟨_, done, hat, herase, x, hx, (hrec.unknown_iff x).mp hunknown, ?_⟩
      rcases hmet with ⟨side, hside⟩ | hmoved
      · exact .inl ⟨side, by rw [← hrec.slots, hside]⟩
      · obtain ⟨e, he, rfl⟩ := List.mem_map.mp hmoved
        right
        split at he
        · exact below_of_shifted hres he
        · cases he

/-! ## Replacing -/

/-- What a replacement does once the entry is written: the new node takes over, and everything below
it is stamped. -/
theorem ends_settle (hk : ∃ n, t₀.get? old = some n) (hk' : ∃ m, t₀.get? new = some m)
    {g : Node → Node} (hg : ∀ m, (g m).body = m.body) :
    Ends (do
        change new g
        relink n.prev .next (.to new)
        relink n.next .prev (.to new)
        let _ ← stampDescendants new
        change old Node.detach) t₀ (fun _ => t₀.SameBodies) fun e t' => t₀.SameBodies t' ∧
      (t₀.Missing (fun x => ∃ side, n.link side = .to x) e ∨ t₀.Unstampable new e) := by
  refine ends_bind (P := fun _ => t₀.SameBodies) ?_ ?_
  · refine ends_change (fun _ _ => sameBodies_update t₀ new hg) fun hx => ?_
    obtain ⟨m, hm⟩ := hk'
    cases hm.symm.trans hx
  intro _ t₁ h₁
  have hrelink : ∀ side s t, t₀.SameBodies t →
      (relink (n.link side) s (.to new)).Ends t (fun _ => t₀.SameBodies) fun e t' =>
        t₀.SameBodies t' ∧
          (t₀.Missing (fun x => ∃ side, n.link side = .to x) e ∨ t₀.Unstampable new e) := by
    intro side s t ht
    exact (ends_relink ht fun x hx => ⟨side, hx⟩).mono (fun _ _ h => h) fun _ _ h =>
      ⟨h.1, .inl h.2⟩
  refine ends_bind (hrelink .prev .next t₁ h₁) ?_
  intro _ t₂ h₂
  refine ends_bind (hrelink .next .prev t₂ h₂) ?_
  intro _ t₃ h₃
  refine ends_bind ((ends_stampDescendants new hk' h₃).mono (fun _ _ h => h) fun _ _ h =>
    ⟨h.1, .inr h.2⟩) ?_
  intro _ t₄ h₄
  refine ends_change (fun _ _ => h₄.trans (sameBodies_update t₄ old Node.body_detach)) fun hx => ?_
  obtain ⟨k, hk⟩ := hk
  cases hk.symm.trans (h₄.unknown_iff.mp hx)

/-- A replacement that fails has changed nothing, or it has written the entry and stops at a node
linked to the old one or while it stamps below the new one. If it has changed nothing and there was
no end, there was none above the old node. -/
theorem ends_replace (t : Tree) (old new : NodeId) :
    (replace old new).Ends t
      (fun _ t' => ∃ a t₁, t.Placed old new a t₁ ∧ t₁.SameBodies t')
      fun e t' => (t' = t ∧ ∀ x, e = .endless x → t.rootOf old = .error e) ∨
        ∃ a t₁, t.Placed old new a t₁ ∧ t₁.SameBodies t' ∧
          (t.Missing (fun x => ∃ side, t.slots old side = .to x) e ∨ t₁.Unstampable new e) := by
  unfold replace
  split
  · exact ends_throw (.inl ⟨rfl, by simp⟩)
  refine ends_bind (ends_get fun _ => .inl ⟨rfl, by simp⟩) ?_
  intro m _ ⟨ht, hm⟩
  rw [ht]
  split
  · exact ends_throw (.inl ⟨rfl, by simp⟩)
  refine ends_bind (ends_get fun _ => .inl ⟨rfl, by simp⟩) ?_
  intro n _ ⟨ht, hn⟩
  rw [ht]
  cases ha : n.attachment with
  | none => exact ends_throw (.inl ⟨rfl, by simp⟩)
  | some a =>
    obtain ⟨parent, path⟩ := a
    have hat : t.attachmentOf? old = some ⟨parent, path⟩ := (attachmentOf?_eq hn).trans ha
    simp only
    refine ends_bind (P := fun _ t' => t' = t) (ends_ask (fun _ _ => rfl) ?_) ?_
    · exact fun e he => .inl ⟨rfl, fun _ _ => he⟩
    intro root _ ht
    rw [ht]
    split
    · exact ends_throw (.inl ⟨rfl, by simp⟩)
    refine ends_bind (P := fun _ t' => ∃ done, done.tree = t' ∧
      t.assign (.node parent) path (.node new) = .ok done)
      (ends_edit (fun done hd => ⟨done, rfl, hd⟩) ?_) ?_
    · intro e he
      refine .inl ⟨rfl, fun x hx => ?_⟩
      exact absurd (he.trans (congrArg Except.error hx)) (t.settles_assign _ _ _ x)
    intro _ _ ⟨done, hdone, hassign⟩
    rw [← hdone]
    have hrec := sameRecords_of_assign hassign
    have hplaced : t.Placed old new ⟨parent, path⟩ done.tree :=
      ⟨hat, ⟨m, hm⟩, done, hassign, rfl⟩
    have hsettle := ends_settle (n := n) (hrec.known ⟨n, hn⟩) (hrec.known ⟨m, hm⟩)
      (g := fun m : Node =>
        { m with attachment := some ⟨parent, path⟩, prev := n.prev, next := n.next })
      fun _ => rfl
    refine hsettle.mono (fun _ t' h => ⟨_, _, hplaced, h⟩) ?_
    intro e t' ⟨hsame, hstop⟩
    refine .inr ⟨_, _, hplaced, hsame, hstop.imp_left ?_⟩
    intro ⟨x, hx, hunknown, side, hside⟩
    exact ⟨x, hx, (hrec.unknown_iff x).mp hunknown, side, by rw [slots_eq hn, hside]⟩

end Linking

end Trellis
