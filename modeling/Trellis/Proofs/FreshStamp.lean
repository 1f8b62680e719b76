import Trellis.Proofs.FullPath

/-!
# What a fresh stamp leaves

A root without a parent is stamped. Nothing is asked of what the nodes recorded before, nor of the
rest of the tree: only that every node below the root is known, is listed once among its descendants,
and does not lie below itself. Then each of them has one holder, so the stamp writes each once. It
counts what `Tree.descendants` lists, it leaves every node below the root attached where it is held,
and the paths recorded one by one join to those at which the pre-order cursor meets the nodes.

Names may repeat, so looking a path up need not lead back to the node; the cursor still hands the node
out there.
-/

namespace Trellis

open Relation (ReflTransGen TransGen)

namespace Tree

variable {t t' : Tree} {root a d x : NodeId} {n : Node} {p q : Path} {fuel : Nat}

/-- What stamping `root` leaves, as the tree answers it. -/
structure StampedFrom (t : Tree) (root : NodeId) (t' : Tree) : Prop where
  /-- What the root or a node below it holds is attached there and knows no neighbours. -/
  places : ∀ holder listed path c, ReflTransGen t.Holds root holder →
    t.childNodesWithPaths holder = .ok listed → (path, c) ∈ listed →
    t'.attachmentOf? c = some ⟨holder, path⟩ ∧ ∀ side, t'.slots c side = .unknown
  top : t'.Unlinked root
  /-- The joined path of a node below the root is the one at which pre-order meets it. -/
  paths : ∃ listed : List (Path × Value),
    (∀ limit, t'.preorderWithPaths (.node root) .unrestricted limit = listed.take limit) ∧
    ∀ d, t.Below root d → ∃ path, t'.fullPath d = .ok path ∧
      ∀ q, (q, .node d) ∈ listed ↔ q = path
  bodies : t.SameBodies t'
  apart : ∀ x, x ≠ root → ¬ t.Below root x → t'.get? x = t.get? x

/-! ## Listed once, held once -/

/-- In a list joined from blocks without repetition, an element lies in one block. -/
theorem block_unique {α β : Type} {l : List α} {f : α → List β} (hnd : (l.flatMap f).Nodup)
    {a b : α} (ha : a ∈ l) (hb : b ∈ l) {x : β} (hxa : x ∈ f a) (hxb : x ∈ f b) : a = b := by
  by_contra hne
  have hsymm : Std.Symm (Function.onFun List.Disjoint f) := ⟨fun _ _ h => h.symm⟩
  exact (List.nodup_flatMap.mp hnd).2.forall ha hb hne hxa hxb

theorem map_snd_offspring_succ (hn : t.get? a = some n) (depth : Nat) :
    (t.offspring (depth + 1) a).map (·.2) =
      n.held.flatMap fun c => c :: (t.offspring depth c).map (·.2) := by
  rw [offspring_succ hn, List.map_flatMap, Node.held, List.flatMap_map]
  refine List.flatMap_congr fun e _ => ?_
  simp [branch]

/-- Where nothing below a root is unknown or lies below itself, listing it once means holding it
once. -/
theorem forestBelow_of_nodup (hknown : ∀ d, t.Below root d → ∃ m, t.get? d = some m)
    (hac : ∀ d, t.Below root d → ¬ t.Below d d) (hn : t.get? root = some n)
    (hfuel : t.population root < fuel) (hnd : ((t.offspring fuel root).map (·.2)).Nodup) :
    t.ForestBelow root := by
  induction fuel generalizing root n with
  | zero => omega
  | succ fuel ih =>
    rw [map_snd_offspring_succ hn] at hnd
    have hholds : ∀ c ∈ n.held, t.Holds root c := fun c hc => ⟨n, hn, hc⟩
    have hdrop := population_drops hknown hac
    have hchild : ∀ c ∈ n.held, t.ForestBelow c := by
      intro c hc
      obtain ⟨m, hm⟩ := hknown c (.single (hholds c hc))
      have hlt := hdrop root c .refl (hholds c hc)
      have hblock := (List.nodup_flatMap.mp hnd).1 c hc
      exact ih (fun d hd => hknown d (.head (hholds c hc) hd))
        (fun d hd => hac d (.head (hholds c hc) hd)) hm (by omega) (List.nodup_cons.mp hblock).2
    -- The block of a held node lists everything at or below that node.
    have hlisted : ∀ c ∈ n.held, ∀ d, ReflTransGen t.Holds c d →
        d ∈ c :: (t.offspring fuel c).map (·.2) := by
      intro c hc d hd
      have hlt : t.population c < fuel := by
        have := hdrop root c .refl (hholds c hc)
        omega
      obtain ⟨path, hway⟩ := exists_way hd
      rcases mem_offspring_of_way hway
        (fun x y hx => hdrop x y (.head (hholds c hc) hx)) hlt with ⟨-, rfl⟩ | hmem
      · exact List.mem_cons_self
      · exact List.mem_cons_of_mem _ (List.mem_map_of_mem (f := (·.2)) hmem)
    have hapart : ∀ c ∈ n.held, ∀ b, ReflTransGen t.Holds c b → ∀ d, t.Holds b d → d ∉ n.held := by
      intro c hc b hb d hbd hd
      have hbelow : t.Below c d := TransGen.tail' hb hbd
      have hsame : c = d := block_unique hnd hc hd (hlisted c hc d hbelow.to_reflTransGen)
        (hlisted d hd d .refl)
      exact hac c (.single (hholds c hc)) (hsame ▸ hbelow)
    -- A node reached from the root is the root, or it is reached from a held node.
    have hsplit : ∀ b, ReflTransGen t.Holds root b →
        b = root ∨ ∃ c ∈ n.held, ReflTransGen t.Holds c b := by
      intro b hb
      rcases ReflTransGen.cases_head hb with h | ⟨c, ⟨m, hm, hc⟩, hcb⟩
      · exact .inl h.symm
      · obtain rfl : n = m := Option.some.inj (hn.symm.trans hm)
        exact .inr ⟨c, hc, hcb⟩
    constructor
    · intro a b ha hab
      exact hknown b (TransGen.tail' ha hab)
    · intro a m ha hm
      rcases hsplit a ha with rfl | ⟨c, hc, hca⟩
      · obtain rfl : n = m := Option.some.inj (hn.symm.trans hm)
        refine (List.nodup_flatMap.mp hnd).2.imp fun hdisjoint heq => ?_
        exact hdisjoint List.mem_cons_self (heq ▸ List.mem_cons_self)
      · exact (hchild c hc).held_once hca hm
    · intro a b d ha hb had hbd
      rcases hsplit a ha with rfl | ⟨c, hc, hca⟩
      · rcases hsplit b hb with rfl | ⟨e, he, heb⟩
        · rfl
        · obtain ⟨m, hm, hd⟩ := had
          obtain rfl : n = m := Option.some.inj (hn.symm.trans hm)
          exact absurd hd (hapart e he b heb d hbd)
      · rcases hsplit b hb with rfl | ⟨e, he, heb⟩
        · obtain ⟨m, hm, hd⟩ := hbd
          obtain rfl : n = m := Option.some.inj (hn.symm.trans hm)
          exact absurd hd (hapart c hc a hca d had)
        · obtain rfl : c = e := block_unique hnd hc he
            (hlisted c hc d (hca.tail had)) (hlisted e he d (heb.tail hbd))
          exact (hchild c hc).one_holder hca heb had hbd

section Stamped

variable (hac : ∀ d, ReflTransGen t.Holds root d → ¬ t.Below d d)
  (hknown : ∀ d, t.Below root d → ∃ m, t.get? d = some m)
  (hst : (t.update root Node.detach).Stamped (ReflTransGen t.Holds root) t')

include hac hknown in
theorem population_drops_from (a b : NodeId) (ha : ReflTransGen t.Holds root a)
    (hab : t.Holds a b) : t.population b < t.population a :=
  population_drops hknown (fun d hd => hac d hd.to_reflTransGen) a b ha hab

include hac hknown in
theorem mem_offspring_of_below (hway : t.Way root p d) (hd : t.Below root d) :
    (p, d) ∈ t.offspring t.nesting root := by
  rcases mem_offspring_of_way hway (population_drops_from hac hknown)
    (t.population_lt_nesting root) with ⟨-, rfl⟩ | hmem
  · exact absurd hd (hac d .refl)
  · exact hmem

include hac hknown in
/-- The offspring are the nodes below. -/
theorem mem_offspring_iff : d ∈ (t.offspring t.nesting root).map (·.2) ↔ t.Below root d := by
  constructor
  · intro hd
    obtain ⟨⟨p, d⟩, hp, rfl⟩ := List.mem_map.mp hd
    exact below_of_mem_offspring hp
  · intro hd
    obtain ⟨p, hway⟩ := exists_way hd.to_reflTransGen
    exact List.mem_map_of_mem (f := (·.2)) (mem_offspring_of_below hac hknown hway hd)

/-! ## Joined paths -/

include hst in
theorem Stamped.sameBodies_detach : t.SameBodies t' :=
  (sameBodies_update t root Node.body_detach).trans hst.sameBodies

include hst in
/-- What a node at or below the root holds is attached there. -/
theorem Stamped.get?_held {c : NodeId} {path : Path} (ha : ReflTransGen t.Holds root a)
    (hn : t.get? a = some n) (hc : (path, c) ∈ n.heldNodes) :
    t'.get? c = ((t.update root Node.detach).get? c).map (·.attach ⟨a, path⟩) := by
  obtain ⟨m, hm, hb⟩ := (sameBodies_update t root Node.body_detach).symm.get? hn
  exact hst.inside ha hm (Node.heldNodes_of_body hb ▸ hc)

include hst in
/-- What does not lie below the root is not stamped. -/
theorem Stamped.get?_apart (hx : ¬ t.Below root x) :
    t'.get? x = (t.update root Node.detach).get? x := by
  refine hst.outside fun b hb hbx => hx ?_
  rw [(sameBodies_update t root Node.body_detach).holds_eq] at hbx
  exact TransGen.tail' hb hbx

include hac hst in
theorem Stamped.get?_root : t'.get? root = (t.get? root).map Node.detach := by
  rw [hst.get?_apart (hac root .refl), get?_update_self]

include hknown hst in
/-- Whoever holds a node at or below the root is its recorded parent. -/
theorem Stamped.recorded {c : NodeId} {path : Path} (ha : ReflTransGen t.Holds root a)
    (hn : t.get? a = some n) (hc : (path, c) ∈ n.heldNodes) :
    ∃ m, t'.get? c = some m ∧ m.attachment = some ⟨a, path⟩ ∧ ∀ side, m.link side = .unknown := by
  obtain ⟨k, hk⟩ := hknown c (TransGen.tail' ha ⟨n, hn, List.mem_map_of_mem (f := (·.2)) hc⟩)
  obtain ⟨m, hm⟩ := (sameBodies_update t root Node.body_detach).known ⟨k, hk⟩
  refine ⟨m.attach ⟨a, path⟩, ?_, m.attachment_attach _, fun side => m.link_attach _ side⟩
  rw [hst.get?_held ha hn hc, hm, Option.map_some]

include hknown hst in
/-- By what is recorded, a node stands where the way down to it leads. -/
theorem Stamped.situated_of_way (ha : ReflTransGen t.Holds root a) (h : t'.Situated root p a)
    (hway : t.Way a q d) : t'.Situated root (p ++ q) d := by
  induction hway generalizing p with
  | here a => rwa [List.append_nil]
  | @down a c d n q rest hn hc _ ih =>
    obtain ⟨m, hm, hma, -⟩ := hst.recorded hknown ha hn hc
    have hcs : t'.Situated root (p ++ q) c := .under hm hma h
    have hholds : t.Holds a c := ⟨n, hn, List.mem_map_of_mem (f := (·.2)) hc⟩
    rw [← List.append_assoc]
    exact ih (ha.tail hholds) hcs

include hac hknown hst in
/-- The joined path of a node at or below the root is the path of a way down to it. -/
theorem Stamped.fullPath_of_way (hn : t.get? root = some n) (hway : t.Way root p d)
    (hd : ReflTransGen t.Holds root d) : t'.fullPath d = .ok p := by
  have hsame := hst.sameBodies_detach
  have hroot : t'.get? root = some n.detach := by
    rw [hst.get?_root hac, hn, Option.map_some]
  have hup : ∀ x, ReflTransGen t.Holds root x → ∃ m, t'.get? x = some m ∧
      ∀ a, m.attachment = some a → ReflTransGen t.Holds root a.parent ∧ t'.Holds a.parent x := by
    intro x hx
    rcases ReflTransGen.cases_tail hx with rfl | ⟨b, hb, hbx⟩
    · exact ⟨n.detach, hroot, by simp⟩
    · obtain ⟨k, hk, hxk⟩ := hbx
      obtain ⟨⟨path, x⟩, hc, rfl⟩ := List.mem_map.mp hxk
      obtain ⟨m, hm, hma, -⟩ := hst.recorded hknown hb hk hc
      refine ⟨m, hm, ?_⟩
      intro a ha
      obtain rfl : ⟨b, path⟩ = a := Option.some.inj (hma.symm.trans ha)
      rw [hsame.holds_eq]
      exact ⟨hb, k, hk, hxk⟩
  obtain ⟨root', path, -, hs, -, hfull⟩ :=
    situated_of_upward (fun x hx => hsame.below_eq ▸ hac x hx) hup hd
  have htop : t'.Situated root [] root := .top hroot n.attachment_detach
  have hs' := hst.situated_of_way hknown .refl htop hway
  rw [hfull, (hs.unique hs').2, List.nil_append]

include hac hknown hst in
/-- The pre-order cursor meets every node below the root at one path, the joined one. -/
theorem Stamped.paths (hn : t.get? root = some n)
    (hnd : ((t.offspring t.nesting root).map (·.2)).Nodup) : ∃ listed : List (Path × Value),
    (∀ limit, t'.preorderWithPaths (.node root) .unrestricted limit = listed.take limit) ∧
    ∀ d, t.Below root d → ∃ path, t'.fullPath d = .ok path ∧
      ∀ q, (q, .node d) ∈ listed ↔ q = path := by
  have hsame := hst.sameBodies_detach
  have hg : t'.Grounded (.node root) := by
    intro id hid
    rw [beneath_node, hsame.holds_eq] at hid
    rw [hsame.below_eq]
    exact hac id hid
  have hlist := filterMap_nodeAt?_listing hg
    (hsame.holds_eq ▸ population_drops_from hac hknown) (t.population_lt_nesting root)
  rw [hsame.offspring_eq] at hlist
  refine ⟨t'.listing (.node root) .unrestricted,
    (yields_listing hg (t'.span_le_reach _)).takeFrom_eq, ?_⟩
  intro d hd
  obtain ⟨p, hway⟩ := exists_way hd.to_reflTransGen
  have hp := mem_offspring_of_below hac hknown hway hd
  refine ⟨p, hst.fullPath_of_way hac hknown hn hway hd.to_reflTransGen, ?_⟩
  intro q
  rw [← mem_filterMap_nodeAt?, hlist]
  constructor
  · intro hq
    rcases List.mem_cons.mp hq with heq | hq
    · obtain ⟨-, rfl⟩ := Prod.mk.inj heq
      exact absurd hd (hac d .refl)
    · exact (Prod.mk.inj (List.inj_on_of_nodup_map hnd hq hp rfl)).1
  · rintro rfl
    exact List.mem_cons_of_mem _ hp

end Stamped

end Tree

namespace Linking

open Trellis.Tree

variable {t : Tree} {root : NodeId} {n : Node}

/-- A root without a parent, below which nothing is unknown or lies below itself: its descendants are
the nodes below it. If each of these is listed once, stamping the root succeeds, counts them, and
records exactly their places. -/
theorem stamp_exact (hn : t.get? root = some n) (ha : n.attachment = none)
    (hknown : ∀ d, t.Below root d → ∃ m, t.get? d = some m)
    (hac : ∀ d, ReflTransGen t.Holds root d → ¬ t.Below d d) :
    ∃ ids : List NodeId, (∀ limit, t.descendants root limit = .ok (ids.take limit)) ∧
      (∀ d, d ∈ ids ↔ t.Below root d) ∧
      ((∀ d, t.Below root d → ids.count d = 1) →
        ∃ t', (stamp root).run t = .ok ids.length t' ∧ t.StampedFrom root t') := by
  have hac' : ∀ d, t.Below root d → ¬ t.Below d d := fun d hd => hac d hd.to_reflTransGen
  have hfuel := t.population_lt_nesting root
  have hg : t.Grounded (.node root) := fun id hid => hac id (beneath_node.mp hid)
  refine ⟨(t.offspring t.nesting root).map (·.2),
    descendants_eq hn hg (population_drops_from hac hknown) hfuel,
    fun d => mem_offspring_iff hac hknown, ?_⟩
  intro honce
  have hnd : ((t.offspring t.nesting root).map (·.2)).Nodup := by
    refine List.nodup_iff_count_eq_one.mpr fun d hd => ?_
    exact honce d ((mem_offspring_iff hac hknown).mp hd)
  have hf := forestBelow_of_nodup hknown hac' hn hfuel hnd
  obtain ⟨t', hrun, hst⟩ := run_stamp_below hf hac' hn ha
  rw [List.length_map]
  refine ⟨t', hrun, ?_⟩
  constructor
  · intro holder listed path c hholder hlist hc
    obtain ⟨k, hk, rfl⟩ := heldNodes_of_childNodesWithPaths hlist
    obtain ⟨m, hm, hma, hlinks⟩ := hst.recorded hknown hholder hk hc
    exact ⟨(attachmentOf?_eq hm).trans hma, fun side => (slots_eq hm side).trans (hlinks side)⟩
  · have hroot : t'.get? root = some n.detach := by
      rw [hst.get?_root hac, hn, Option.map_some]
    refine ⟨(attachmentOf?_eq hroot).trans n.attachment_detach, fun side => ?_⟩
    rw [slots_eq hroot, Node.link_detach]
  · exact hst.paths hac hknown hn hnd
  · exact hst.sameBodies_detach
  · intro x hx hbelow
    rw [hst.get?_apart hbelow, get?_update_of_ne (Ne.symm hx)]

/-- A shelf that holds a wrap in a map, and the wrap a leaf. What they record is of no use: the parent
of the leaf is unknown, the wrap stands below its own leaf, and the shelf knows a neighbour. Another
shelf holds the first. -/
def staleRecords : Tree where
  nodes := #[
    { kind := ⟨"Leaf", []⟩, fields := [], arity := Node.arity_leaf,
      attachment := some ⟨⟨9⟩, []⟩, next := .to ⟨0⟩ },
    { kind := ⟨"Wrap", ["size", "inner"]⟩, fields := [.int 2, .node ⟨0⟩], arity := rfl,
      attachment := some ⟨⟨0⟩, [.index 7]⟩, prev := .absent },
    { kind := ⟨"Shelf", ["boxes"]⟩, fields := [.map ⟨[("x", .int 1), ("y", .node ⟨1⟩)]⟩],
      arity := rfl, prev := .to ⟨3⟩ },
    { kind := ⟨"Shelf", ["boxes"]⟩, fields := [.list [.node ⟨2⟩]], arity := rfl }]

theorem stamp_exact_staleRecords :
    staleRecords.descendants ⟨2⟩ 9 = .ok [⟨1⟩, ⟨0⟩] ∧ ∃ t', (stamp ⟨2⟩).run staleRecords = .ok 2 t' ∧
    staleRecords.StampedFrom ⟨2⟩ t' ∧
    t'.fullPath ⟨0⟩ = .ok [.name "boxes", .name "y", .name "inner"] := by
  have hdesc : staleRecords.Descending := by decide
  have hroot : staleRecords.get? ⟨2⟩ = some staleRecords.nodes[2] := rfl
  have hknown : ∀ d, staleRecords.Below ⟨2⟩ d → ∃ m, staleRecords.get? d = some m := by
    intro d hd
    have hlt : d.number < staleRecords.nodes.size :=
      (hdesc.lt_of_below hd).trans (by decide)
    exact ⟨staleRecords.nodes[d.number], Array.getElem?_eq_getElem hlt⟩
  obtain ⟨ids, hids, hmem, hstamp⟩ := stamp_exact hroot rfl hknown
    fun d _ h => Nat.lt_irrefl _ (hdesc.lt_of_below h)
  have hlist : staleRecords.descendants ⟨2⟩ 9 = .ok [⟨1⟩, ⟨0⟩] := by decide
  have htake : ids.take 9 = [⟨1⟩, ⟨0⟩] := Except.ok.inj ((hids 9).symm.trans hlist)
  have hlen : ids.length = 2 := by
    have := congrArg List.length htake
    simp only [List.length_take, List.length_cons, List.length_nil] at this
    omega
  obtain rfl : ids = [⟨1⟩, ⟨0⟩] := by rwa [List.take_of_length_le (by omega)] at htake
  obtain ⟨t', hrun, hst⟩ := hstamp fun d hd => by
    rcases List.mem_cons.mp ((hmem d).mpr hd) with rfl | h
    · decide
    · rw [List.mem_singleton.mp h]
      decide
  refine ⟨hlist, t', hrun, hst, ?_⟩
  obtain rfl := after_of_ok hrun
  decide

end Linking

end Trellis
