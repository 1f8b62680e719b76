import Trellis.Proofs.Assigning
import Trellis.Proofs.Documents
import Trellis.Proofs.Siblings

/-!
# Plain data between nodes

All that linkage is about are the nodes that a node holds, with their paths and in their order, and
what these record. Assigning writes inside one node: it exchanges one value there or adds an entry to
a map. Where neither the value that goes nor the one that comes holds a node, the node holds what it
held, at the same paths, however large the two are and wherever they lie between other nodes. So the
tree stays well-linked, and every question about parents and neighbours has the answer it had.
-/

namespace Trellis

/-! ## Inside a value -/

namespace Value

variable {u u' v v' w w' new : Value} {keys rest : List Key} {key : Key} {path : Path}
  {answer : Option Value}

theorem heldNodes_of_held (h : v.held = []) (q : Path) : v.heldNodes q = [] := by
  have hmap := map_snd_heldNodes q v
  rwa [h, List.map_eq_nil_iff] at hmap

/-- `new` has come in the place of the value that is answered, or to a map under a new name. -/
inductive Stores (new : Value) : Option Value → Value → Value → Prop where
  | exchanged (old : Value) : Stores new (some old) old new
  | added {d : Dict Value} {name : String} : name ∉ d.names →
    Stores new none (map d) (map ⟨d.entries ++ [(name, new)]⟩)

theorem stores_of_assignEntry (h : assignEntry path key new v = .ok (answer, v')) :
    ∃ keys u u', Stores new answer u u' ∧ Differ u u' keys v v' := by
  cases v with
  | list items =>
    cases key with
    | name n => simp [assignEntry] at h
    | index i =>
      simp only [assignEntry] at h
      split at h
      · rename_i old hold
        obtain ⟨rfl, rfl⟩ := Prod.mk.inj (Except.ok.inj h)
        exact ⟨[.index i], old, new, .exchanged old, Differ.at_index .here hold⟩
      · cases h
  | map d =>
    cases key with
    | index i => simp [assignEntry] at h
    | name n =>
      simp only [assignEntry] at h
      obtain ⟨rfl, rfl⟩ := Prod.mk.inj (Except.ok.inj h)
      rcases d.put_cases n new with ⟨before, old, after, rfl, hput⟩ | ⟨hn, hput⟩
      · rw [hput]
        exact ⟨[.name n], old, new, .exchanged old, .entry .here⟩
      · rw [hput]
        exact ⟨[], map d, _, .added hn, .here⟩
  | null => simp [assignEntry] at h
  | bool b => simp [assignEntry] at h
  | int i => simp [assignEntry] at h
  | text s => simp [assignEntry] at h
  | node id => simp [assignEntry] at h

/-- Storing a value without nodes, where none was, brings and takes none. -/
theorem Stores.heldNodes_eq (h : Stores new answer u u') (hnew : new.held = [])
    (hold : ∀ old, answer = some old → old.held = []) (q : Path) :
    u'.heldNodes q = u.heldNodes q := by
  cases h with
  | exchanged => rw [heldNodes_of_held hnew, heldNodes_of_held (hold u rfl)]
  | @added d name hname =>
    obtain ⟨entries⟩ := d
    have hlast : new.heldNodes (q ++ [.name name]) = [] := heldNodes_of_held hnew _
    simp [heldNodes, heldInEntries_append, heldInEntries, hlast]

theorem Stores.distinct (h : Stores new answer u u') (hnew : new.Distinct) (hu : u.Distinct) :
    u'.Distinct := by
  cases h with
  | exchanged => exact hnew
  | @added d name hname =>
    have hinsert : d.insert name new = ⟨d.entries ++ [(name, new)]⟩ := by
      rw [Dict.insert, Dict.put, Dict.set?_of_not_mem hname]
    obtain ⟨hd, hentries⟩ := distinct_map.mp hu
    rw [← hinsert, distinct_map]
    refine ⟨hd.insert name new, ?_⟩
    intro e he
    rcases Dict.mem_insert he with rfl | he
    · exact hnew
    · exact hentries e he

/-- A difference inside a place that differs. -/
theorem Differ.append (h : Differ w w' keys v v') (h' : Differ u u' rest w w') :
    Differ u u' (keys ++ rest) v v' := by
  induction h with
  | here => exact h'
  | item _ ih => exact .item ih
  | entry _ ih => exact .entry ih

end Value

namespace Node

variable {n n' : Node} {u u' w w' : Value} {path : Path} {keys : List Key}

theorem Differ.append (h : Differ w w' path n n') (h' : Value.Differ u u' keys w w') :
    Differ u u' (path ++ keys) n n' := by
  obtain ⟨name, rest, i, v, v', rfl, hfield, hv, rfl⟩ := h
  exact ⟨name, rest ++ keys, i, v, v', rfl, hfield, hv.append h', rfl⟩

/-- A node holds the same nodes as one that differs where the same nodes are held. -/
theorem Differ.heldNodes_eq (h : Differ u u' path n n')
    (hu : ∀ q, u'.heldNodes q = u.heldNodes q) : n'.heldNodes = n.heldNodes := by
  obtain ⟨name, rest, i, v, v', rfl, hfield, hv, rfl⟩ := h
  obtain ⟨before, after, hn, hset⟩ := heldNodes_setField hfield
  obtain ⟨left, right, hleft, hright⟩ := hv.heldNodes [.name name]
  rw [hn, hset, hleft, hright, hu]

theorem Differ.distinct (h : Differ u u' path n n') (hd : n.Distinct)
    (hu : u.Distinct → u'.Distinct) : n'.Distinct := by
  obtain ⟨name, rest, i, v, v', rfl, hfield, hv, rfl⟩ := h
  have hvd : v.Distinct := distinct_field hd hfield
  exact distinct_setField hd (hv.distinct hvd (hu (hv.leads.distinct hvd)))

end Node

namespace Tree

variable {t t' : Tree} {root id x : NodeId} {n n' : Node} {p path : Path} {new : Value}

/-! ## Inside one node -/

theorem get?_of_get (h : t.get id = .ok n) : t.get? id = some n := by
  cases hn : t.get? id with
  | none =>
    rw [get_of_get?_none hn] at h
    cases h
  | some m =>
    rw [get_of_get? hn] at h
    rw [Except.ok.inj h]

theorem anchorFrom_ne_none (t : Tree) (id : NodeId) (path : Path) (keys : List Key) :
    t.anchorFrom (.node id) path keys ≠ .ok none := by
  intro h
  cases keys with
  | nil => cases h
  | cons key rest =>
    rw [anchorFrom] at h
    obtain ⟨w, -, h⟩ := bind_eq_ok.mp h
    obtain ⟨found, -, h⟩ := bind_eq_ok.mp h
    cases found with
    | none => cases h
    | some below => cases h

/-- Below a node, an edit that succeeds changes one node, as a whole or at a place inside it. -/
theorem inside_of_editContainer {α : Type} {onNode : Node → Except TreeError (α × Node)}
    {onValue : Value → Except TreeError (α × Value)} {done : Edited α}
    (h : t.editContainer (.node root) path onNode onValue = .ok done) :
    ∃ id n n', t.get? id = some n ∧ done.tree = t.update id (fun _ => n') ∧
      (onNode n = .ok (done.answer, n') ∨
        ∃ place u u', onValue u = .ok (done.answer, u') ∧ Node.Differ u u' place n n') := by
  unfold editContainer at h
  obtain ⟨found, ha, h⟩ := bind_eq_ok.mp h
  split at h
  · -- The root is a node, so there is a last node on the way.
    exact (anchorFrom_ne_none t root [] path ha).elim
  · rename_i id above
    obtain ⟨n, hn, h⟩ := bind_eq_ok.mp h
    obtain ⟨⟨answer, n'⟩, hnode, h⟩ := bind_eq_ok.mp h
    obtain rfl := Except.ok.inj h
    exact ⟨id, n, n', get?_of_get hn, rfl, .inl hnode⟩
  · rename_i id above field rest
    obtain ⟨n, hn, h⟩ := bind_eq_ok.mp h
    split at h
    · rename_i i v hfield
      obtain ⟨⟨answer, v'⟩, hedit, h⟩ := bind_eq_ok.mp h
      obtain rfl := Except.ok.inj h
      obtain ⟨u, u', hvalue, hdiffer⟩ := Value.differ_of_editAt hedit
      cases field with
      | index j => cases hfield
      | name name =>
        refine ⟨id, n, n.setField i v', get?_of_get hn, ?_, .inr ⟨.name name :: rest, u, u', hvalue,
          name, rest, i, v, v', rfl, hfield, hdiffer, rfl⟩⟩
        exact update_congr fun m hm => by rw [Option.some.inj ((get?_of_get hn).symm.trans hm)]
    · cases h

/-- Below a node, assigning stores the value at one place inside one node. -/
theorem stores_of_assign {done : Edited (Option Value)}
    (h : t.assign (.node root) p new = .ok done) : ∃ id n n' place u u', t.get? id = some n ∧
      done.tree = t.update id (fun _ => n') ∧ Node.Differ u u' place n n' ∧
      Value.Stores new done.answer u u' := by
  rcases List.eq_nil_or_concat' p with rfl | ⟨parent, last, rfl⟩
  · cases h
  · rw [assign_append] at h
    obtain ⟨id, n, n', hn, htree, hnode | ⟨place, w, w', hvalue, hdiffer⟩⟩ :=
      inside_of_editContainer h
    · rw [Node.assignField] at hnode
      split at hnode
      · rename_i i old hfield
        obtain ⟨hanswer, rfl⟩ := Prod.mk.inj (Except.ok.inj hnode)
        cases last with
        | index j => cases hfield
        | name name =>
          refine ⟨id, n, _, [.name name], old, new, hn, htree,
            ⟨name, [], i, old, new, rfl, hfield, .here, rfl⟩, ?_⟩
          rw [← hanswer]
          exact .exchanged old
      · cases hnode
    · obtain ⟨keys, u, u', hstores, hinner⟩ := Value.stores_of_assignEntry hvalue
      exact ⟨id, n, n', place ++ keys, u, u', hn, htree, hdiffer.append hinner, hstores⟩

/-! ## Holding the same nodes -/

/-- `t'` has the nodes of `t` and what they record, and every node holds what it held. -/
structure SameHoldings (t t' : Tree) : Prop extends SameRecords t t' where
  held : t.SameHeld t'

namespace SameHoldings

theorem get? (h : t.SameHoldings t') (hn' : t'.get? x = some n') :
    ∃ n, t.get? x = some n ∧ n'.heldNodes = n.heldNodes ∧ n'.attachment = n.attachment := by
  obtain ⟨n, hn, hheld⟩ := h.held.get? hn'
  have hat := h.attachment x
  rw [attachmentOf?_eq hn', attachmentOf?_eq hn] at hat
  exact ⟨n, hn, hheld, hat⟩

theorem wellLinked (h : t.SameHoldings t') (hl : t.WellLinked)
    (hd : ∀ {id : NodeId} {n : Node}, t'.get? id = some n → n.Distinct) : t'.WellLinked := by
  refine hl.of_sameHeld h.held hd ?_ ?_
  · intro id n hn
    exact (hl.family hn).congr (fun c _ => h.attachment c) fun c _ => h.slots c
  · intro id hun
    exact (hl.unlinked hun).congr (h.attachment id) (h.slots id)

theorem childNodesWithPaths_eq (h : t.SameHoldings t') (x : NodeId) :
    t'.childNodesWithPaths x = t.childNodesWithPaths x := by
  cases hn' : t'.get? x with
  | none =>
    have hn := (h.unknown_iff x).mp hn'
    simp [childNodesWithPaths, get_of_get?_none hn', get_of_get?_none hn, bind, Except.bind]
  | some n' =>
    obtain ⟨n, hn, hheld, -⟩ := h.get? hn'
    rw [Tree.childNodesWithPaths_eq hn', Tree.childNodesWithPaths_eq hn, hheld]

/-- Following recorded parents is the same in both trees, step by step. -/
theorem climb_eq (h : t.SameHoldings t') (fuel : Nat) (x : NodeId) :
    t'.rootOfFrom fuel x = t.rootOfFrom fuel x ∧
      t'.fullPathFrom fuel x = t.fullPathFrom fuel x := by
  induction fuel generalizing x with
  | zero => exact ⟨rfl, rfl⟩
  | succ fuel ih =>
    rw [rootOfFrom, rootOfFrom, fullPathFrom, fullPathFrom]
    cases hn' : t'.get? x with
    | none =>
      rw [get_of_get?_none hn', get_of_get?_none ((h.unknown_iff x).mp hn')]
      exact ⟨rfl, rfl⟩
    | some n' =>
      obtain ⟨n, hn, -, hat⟩ := h.get? hn'
      simp only [get_of_get? hn', get_of_get? hn, hat, bind, Except.bind]
      cases n.attachment with
      | none => exact ⟨rfl, rfl⟩
      | some a => simp only [ih a.parent, and_self]

theorem rootOf_eq (h : t.SameHoldings t') (x : NodeId) : t'.rootOf x = t.rootOf x := by
  rw [rootOf, nesting_congr h.unknown_iff]
  exact (h.climb_eq _ x).1

theorem fullPath_eq (h : t.SameHoldings t') (x : NodeId) : t'.fullPath x = t.fullPath x := by
  rw [fullPath, nesting_congr h.unknown_iff]
  exact (h.climb_eq _ x).2

end SameHoldings

end Tree

/-! ## Asking for neighbours -/

namespace Linking

open Trellis.Tree

variable {α : Type} {t t' : Tree}

/-- What a run answers, or how it fails. -/
def outcome (x : Linking α) (t : Tree) : Except TreeError α :=
  match x.run t with
  | .ok a _ => .ok a
  | .error e _ => .error e

theorem Answers.outcome_eq {x : Linking α} {a : α} (h : x.Answers t a) : x.outcome t = .ok a := by
  obtain ⟨t', hrun⟩ := h
  rw [outcome, hrun]

/-- In well-linked trees that hold and record the same, every node has the same neighbours. -/
theorem sibling_outcome_eq (h : t.SameHoldings t') (hl : t.WellLinked) (hl' : t'.WellLinked)
    (x : NodeId) (side : Side) : (sibling x side).outcome t' = (sibling x side).outcome t := by
  cases hn' : t'.get? x with
  | none =>
    have hn := (h.unknown_iff x).mp hn'
    rw [outcome, run_sibling_unknown hn' side, outcome, run_sibling_unknown hn side]
  | some n' =>
    obtain ⟨n, hn, -, hat⟩ := h.get? hn'
    cases ha : n.attachment with
    | none =>
      have ha' := hat.trans ha
      rw [outcome, run_sibling_loose hn' (hl'.loose hn' ha' side) ha', outcome,
        run_sibling_loose hn (hl.loose hn ha side) ha]
    | some a =>
      obtain ⟨q', before, after, hq', hsplit⟩ := hl'.place hn' (hat.trans ha)
      obtain ⟨q, hq, hheld, -⟩ := h.get? hq'
      -- A search steps over all that lies between, and ends at the next node that the parent holds.
      have hanswer := run_sibling_attached hl hn ha hq (hheld.symm.trans hsplit) side
      have hanswer' := run_sibling_attached hl' hn' (hat.trans ha) hq' hsplit side
      rw [hanswer.outcome_eq, hanswer'.outcome_eq]

end Linking

namespace Tree

variable {t : Tree} {root : NodeId} {p : Path} {v : Value}

/-! ## Assigning plain data -/

/-- A value that is found under a key can be written there. -/
theorem accepts_of_child {u old : Value} {path : Path} {key : Key}
    (h : t.child u path key = .ok old) : t.Accepts key u := by
  cases hu : u.asNode? with
  | some id =>
    obtain rfl := Value.eq_node hu
    obtain ⟨n, hn⟩ := get?_of_child h
    obtain ⟨i, hfield⟩ := namedField?_of_child hn h
    exact (accepts_node hn).mpr ⟨i, old, hfield⟩
  | none =>
    rcases child_plain hu h with ⟨items, i, rfl, rfl, hi⟩ | ⟨d, name, rfl, rfl, -⟩
    · obtain ⟨hlt, -⟩ := List.getElem?_eq_some_iff.mp hi
      exact ⟨i, hlt, rfl⟩
    · exact ⟨name, rfl⟩

/-- Below a node, `p` holds a value without nodes or is a new name of a map. -/
def PlainAt (t : Tree) (root : NodeId) (p : Path) : Prop :=
  (∃ old, t.resolve (.node root) p = .ok old ∧ old.held = []) ∨
  ∃ parent d name, p = parent ++ [.name name] ∧
    t.resolve (.node root) parent = .ok (.map d) ∧ name ∉ d.names

theorem PlainAt.assignable (h : t.PlainAt root p) : t.Assignable (.node root) p := by
  rcases h with ⟨old, hold, hfree⟩ | ⟨parent, d, name, rfl, hd, -⟩
  · rcases List.eq_nil_or_concat' p with rfl | ⟨parent, last, rfl⟩
    · obtain rfl := Except.ok.inj hold
      simp at hfree
    · obtain ⟨u, hu, hlast⟩ := resolve_append_eq_ok.mp hold
      obtain ⟨w, -, hw, -⟩ := resolve_cons_eq_ok.mp hlast
      exact ⟨parent, last, u, rfl, hu, accepts_of_child hw⟩
  · exact ⟨parent, .name name, .map d, rfl, hd, name, rfl⟩

/-- Whatever is displaced there holds no node. -/
theorem PlainAt.free {answer : Option Value} (h : t.PlainAt root p)
    (displaced : ∀ old, answer = some old → t.resolve (.node root) p = .ok old) (old : Value)
    (hanswer : answer = some old) : old.held = [] := by
  have hold := displaced old hanswer
  rcases h with ⟨found, hfound, hfree⟩ | ⟨parent, d, name, rfl, hd, hname⟩
  · rwa [Except.ok.inj (hold.symm.trans hfound)]
  · -- The new name leads nowhere yet.
    obtain ⟨u, hu, hlast⟩ := resolve_append_eq_ok.mp hold
    obtain rfl := Except.ok.inj (hd.symm.trans hu)
    obtain ⟨w, -, hw, -⟩ := resolve_cons_eq_ok.mp hlast
    cases (child_missing hname []).symm.trans hw

/-- Assigning plain data in the place of plain data, or of nothing, leaves every node with the nodes
that it holds, and the tree well-linked. -/
theorem sameHoldings_of_assign {done : Edited (Option Value)} (hl : t.WellLinked) (hv : v.Plain)
    (hok : t.assign (.node root) p v = .ok done)
    (hfree : ∀ old, done.answer = some old → old.held = []) :
    t.SameHoldings done.tree ∧ done.tree.WellLinked := by
  obtain ⟨id, n, n', place, u, u', hn, htree, hdiffer, hstores⟩ := stores_of_assign hok
  have hget : ∀ x, done.tree.get? x = if id = x then some n' else t.get? x := by
    intro x
    rw [htree, get?_update]
    split
    · rename_i hx
      rw [← hx, hn, Option.map_some]
    · rfl
  have hheld : n'.heldNodes = n.heldNodes :=
    hdiffer.heldNodes_eq (hstores.heldNodes_eq hv.free hfree)
  have hsame : t.SameHoldings done.tree := by
    refine ⟨sameRecords_of_assign hok, fun x => ?_⟩
    rw [hget]
    split
    · rename_i hx
      rw [← hx, hn, Option.map_some, Option.map_some, hheld]
    · rfl
  refine ⟨hsame, hsame.wellLinked hl ?_⟩
  intro x m hm
  rw [hget] at hm
  split at hm
  · rw [← Option.some.inj hm]
    exact hdiffer.distinct (hl.distinct hn) (hstores.distinct hv.distinct)
  · exact hl.distinct hm

/-- Both trees answer questions about children, parents and neighbours in the same way, failures
included. -/
structure SameLinkage (t t' : Tree) : Prop where
  children : ∀ x, t'.childNodesWithPaths x = t.childNodesWithPaths x
  next : ∀ x, (Linking.nextSibling x).outcome t' = (Linking.nextSibling x).outcome t
  prev : ∀ x, (Linking.prevSibling x).outcome t' = (Linking.prevSibling x).outcome t
  fullPath : ∀ x, t'.fullPath x = t.fullPath x
  rootOf : ∀ x, t'.rootOf x = t.rootOf x

/-- In a well-linked tree, plain data can be assigned wherever there is plain data, and under every
new name of a map. The tree stays well-linked, and nothing that is asked about linkage is answered
in another way than before. -/
theorem plain_data_keeps_linkage (hl : t.WellLinked) (hv : v.Plain) (hp : t.PlainAt root p) :
    ∃ done, t.assign (.node root) p v = .ok done ∧ done.tree.WellLinked ∧
      t.SameLinkage done.tree := by
  have hs : t.Unshared (.node root) := by
    refine hl.unshared (by simp) fun a ha b hb => ?_
    rw [List.mem_singleton.mp ha, List.mem_singleton.mp hb]
    exact hl.acyclic root
  obtain ⟨parent, last, u, rfl, hu, hacc⟩ := hp.assignable
  obtain ⟨done, hok, hdisp, hover, hoff, hnode⟩ := assign_accepted hs hu hacc v
  have hassigned := assigned_of_overwrites hok hu hdisp hover hoff hnode
  have hfree := hp.free fun old hold => (hassigned.displaced old).mp hold
  obtain ⟨hsame, hl'⟩ := sameHoldings_of_assign hl hv hok hfree
  refine ⟨done, hok, hl', ?_⟩
  constructor
  · exact hsame.childNodesWithPaths_eq
  · exact fun x => Linking.sibling_outcome_eq hsame hl hl' x .next
  · exact fun x => Linking.sibling_outcome_eq hsame hl hl' x .prev
  · exact hsame.fullPath_eq
  · exact hsame.rootOf_eq

/-- A list comes to stand between two nodes that do not know each other yet. -/
theorem plain_data_keeps_linkage_partly : Linking.partlyLinked.WellLinked ∧ ∃ done,
    Linking.partlyLinked.assign (.node ⟨3⟩) [.name "body", .index 1, .name "y"]
      (.list [.null, .map ⟨[("z", .int 1)]⟩]) = .ok done ∧
    done.tree.WellLinked ∧ (Linking.prevSibling ⟨2⟩).outcome done.tree = .ok (some ⟨1⟩) ∧
    done.tree.fullPath ⟨1⟩ = .ok [.name "body", .index 1, .name "x"] := by
  have hl : Linking.partlyLinked.WellLinked := Descending.wellLinked (by decide) (by decide)
  have hv : (Value.list [.null, .map ⟨[("z", .int 1)]⟩]).Plain := ⟨by decide, by decide⟩
  have hp : Linking.partlyLinked.PlainAt ⟨3⟩ [.name "body", .index 1, .name "y"] :=
    .inr ⟨[.name "body", .index 1], ⟨[("x", .node ⟨1⟩)]⟩, "y", rfl, by decide, by decide⟩
  obtain ⟨done, hok, hl', hsame⟩ := plain_data_keeps_linkage hl hv hp
  exact ⟨hl, done, hok, hl', (hsame.prev ⟨2⟩).trans rfl, (hsame.fullPath ⟨1⟩).trans rfl⟩

end Tree

end Trellis
