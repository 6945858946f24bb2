import GrammarLinker.Proofs.Copy.Lockstep
import GrammarLinker.Proofs.Grammar.Blueprint

/-!
# Copying commutes with local resolution

A grammar that has just been built can be copied first and the copy resolved on its own, or be resolved first and copied after that. Both
copies are made in lockstep, so they have the same ids (`Grammar.copy_lockstep`). What an include of the copy refers to is the copy
of what its source is read as (`Grammar.CopiedBy.own_iff`), because the copy has repositories that correspond to those of the grammar.
So what is resolved in the one order is resolved in the other, to the same list (`Grammar.copy_resolveLocal`).
-/

namespace GrammarLinker

open Arena

/-- A node may be resolved before or after it is given other ids. -/
theorem Node.resolvedTo_rename (φ : Renaming) (node : Node) (target : ListId) (parent : Option NodeId) :
    ({ name := node.name, rule := node.rule, parent, body := node.body.rename φ } : Node).resolvedTo (φ.list target) =
      { name := node.name, rule := node.rule, parent, body := (node.resolvedTo target).body.rename φ } := by
  obtain ⟨name, rule, -, body⟩ := node
  cases body with
  | rule children => rfl
  | inclusion i =>
    obtain ⟨text, declared, state⟩ := i
    cases state <;> rfl

namespace Grammar

section

variable {g copy copy' : Grammar} {m n c e b : Arena} {φ : Renaming}

/-- The copy of an include refers to the copy of the list that the include is read as. -/
theorem CopiedBy.own_iff (h : g.CopiedBy copy m c φ) (hk : m.KeyedIn (g.reach m)) (hf : m.FiniteIn (g.reach m)) {id : NodeId}
    (hid : g.Reaches m (.node id)) (ha : m.HasNode id) {list : ListId} :
    copy.Own c (φ.node id) list ↔ ∃ t, g.Reads m id t ∧ φ.list t = list := by
  have hreads : copy.Reads c (φ.node id) list ↔ ∃ t, g.Reads m id t ∧ φ.list t = list :=
    reads_of_embeds (h.embeds hk) (g.reach_staysIn m) hf hid ha .repository h.root h.repository
  rw [Grammar.own_iff, hreads, and_iff_right_of_imp]
  rintro ⟨t, ht, -⟩
  exact (h.registered _).2 ⟨id, hid, ht.pending?, rfl⟩

/-- An arena is another one in which a grammar has resolved every own reference for which there is a list, and nothing else. -/
structure ResolvesOwn (g : Grammar) (a b : Arena) : Prop where
  change : ResolvesBy (g.Own a) a b
  all : ∀ id list, g.Own a id list → b.pending? id = none

theorem ResolvesOwn.node_resolved (h : g.ResolvesOwn m n) {id : NodeId} {target : ListId} (ho : g.Own m id target) {node : Node}
    (hnode : m.node id = .ok node) : n.node id = .ok (node.resolvedTo target) :=
  h.change.node_resolved (fun _ hl => hl.unique ho) (h.all id target ho) hnode

theorem ResolvesOwn.node_kept (h : g.ResolvesOwn m n) {id : NodeId} (hno : ∀ target, ¬g.Own m id target) {node : Node}
    (hnode : m.node id = .ok node) : n.node id = .ok node :=
  h.change.node_kept hno hnode

/-- A node that was copied before the own references were resolved is the node that was copied after it, as soon as the own references
of the copy are resolved. -/
theorem CopiedBy.node_eq (hc : g.CopiedBy copy m c φ) (hb : g.CopiedBy copy' n b φ) (hk : m.KeyedIn (g.reach m))
    (hf : m.FiniteIn (g.reach m)) (hown : ∀ id, g.Reaches m (.node id) → (m.pending? id).isSome = true → id ∈ g.registry.includes)
    (hn : g.ResolvesOwn m n) (he : copy.ResolvesOwn c e) (hreach : ∀ id, g.Reaches n (.node id) ↔ g.Reaches m (.node id))
    {id : NodeId} (hid : g.Reaches m (.node id)) (ha : m.HasNode id) : b.node (φ.node id) = e.node (φ.node id) := by
  obtain ⟨node, hnode⟩ := ha.node_ok
  obtain ⟨parent, hcnode, hparent⟩ := hc.contents id node hid hnode
  -- resolution keeps parents, and the same ones are copied
  have hparents : ∀ (node' : Node) (parent' : Option NodeId), node'.parent = node.parent → (∀ q, parent' = some q ↔
      ∃ p, node'.parent = some p ∧ g.Reaches n (.node p) ∧ φ.node p = q) → parent' = parent := by
    intro node' parent' heq hparent'
    refine Option.ext fun q => ?_
    rw [hparent', hparent, heq]
    simp only [hreach]
  by_cases hreads : ∃ t, g.Reads m id t
  · obtain ⟨t, ht⟩ := hreads
    have hcopied : copy.Own c (φ.node id) (φ.list t) := (hc.own_iff hk hf hid ha).2 ⟨t, ht, rfl⟩
    have hnnode := hn.node_resolved ⟨hown id hid ht.pending?, ht⟩ hnode
    obtain ⟨parent', hbnode, hparent'⟩ := hb.contents id _ ((hreach id).2 hid) hnnode
    rw [he.node_resolved hcopied hcnode, hbnode, Node.resolvedTo_rename, hparents _ parent' (node.parent_resolvedTo t) hparent',
      Node.name_resolvedTo, Node.rule_resolvedTo]
  · have hno : ∀ list, ¬copy.Own c (φ.node id) list := fun list ho => by
      obtain ⟨t, ht, -⟩ := (hc.own_iff hk hf hid ha).1 ho
      exact hreads ⟨t, ht⟩
    obtain ⟨parent', hbnode, hparent'⟩ :=
      hb.contents id node ((hreach id).2 hid) (hn.node_kept (fun t ho => hreads ⟨t, ho.2⟩) hnode)
    rw [he.node_kept hno hcnode, hbnode, hparents node parent' rfl hparent']

end

/-- What a grammar that was just built reaches was added for it. -/
theorem reach_of_start {file : GrammarFile} {g : Grammar} {a m : Arena} (h : (build file).start a = .ok (.ok g, m)) :
    g.BuiltFrom file a m ∧ (g.reach m).Within (m.since a) ∧ m.KeyedIn (g.reach m) ∧ m.FiniteIn (g.reach m) := by
  obtain ⟨-, -, -, hbuilt, -⟩ := LinkM.outcome (build_ok file a) h
  have hg := hbuilt g rfl
  have hsound := hg.sound
  have hreach : (g.reach m).Within (m.since a) := reach_within hsound.closed.staysIn hg.root hg.repository
  exact ⟨hg, hreach, fun id r hr hid => hsound.keyed id r hr (hreach.repositories id hid),
    fun id hid => finiteIn_of_start h id (hreach.repositories id hid)⟩

/-- A grammar that was just built may be copied before it is resolved on its own or after it: the copies have the same root and
repository, and what was added for them is the same when both are resolved, whether or not names are missing. -/
theorem copy_resolveLocal {file : GrammarFile} {g : Grammar} {a m : Arena} (h : (build file).start a = .ok (.ok g, m))
    (hroom : m.lists.size < Arena.capacity) :
    ∃ copy c answer e answer' n copy' b,
      g.copy m = .ok (copy, c) ∧ copy.resolveLocal.start c = .ok (answer, e) ∧
      g.resolveLocal.start m = .ok (answer', n) ∧ g.copy n = .ok (copy', b) ∧
      copy'.root = copy.root ∧ copy'.repository = copy.repository ∧ b.since n = c.since m ∧
      (∀ id, (c.since m).nodes id → b.node id = e.node id) ∧ (∀ id, (c.since m).lists id → b.list id = e.list id) ∧
      ∀ id, (c.since m).repositories id → b.repository id = e.repository id := by
  obtain ⟨hg, hreach, hk, hf⟩ := reach_of_start h
  have hclosed : m.ClosedIn (m.since a) := hg.sound.closed
  have hfinite := finiteIn_of_start h
  have hsince := since_within_region m a
  have hown : ∀ id, g.Reaches m (.node id) → (m.pending? id).isSome = true → id ∈ g.registry.includes :=
    fun id hid hp => hg.registered_of_pending (hreach.nodes id hid) hp
  obtain ⟨answer', n, hrun, hn, hn', -⟩ := resolveLocal_ok hclosed hfinite hsince hg.liesIn
  obtain ⟨copy, copy', c, b, φ, hcopy, hcopy', -, -, hc, hb, hlists, hrepositories, hsize, hreaches⟩ :=
    copy_lockstep hclosed hfinite hsince hg.liesIn hn hroom
  obtain ⟨answer, e, hrun', he, he', -⟩ := resolveLocal_ok (hc.closedIn (hreach.trans hsince)) (hc.finiteIn hk hf)
    (since_within_region c m) hc.liesIn
  refine ⟨copy, c, answer, e, answer', n, copy', b, hcopy, hrun', hrun, hcopy', ?_, ?_, ?_, ?_, ?_, ?_⟩
  · rw [hb.root, hc.root]
  · rw [hb.repository, hc.repository]
  · simp only [since, HasNode, HasList, HasRepository, hsize, hlists, hrepositories, hn.size, hn.lists, hn.repositories]
  · intro id hid
    obtain ⟨source, hsource, rfl⟩ := hc.nodes.surjOn hid
    exact hc.node_eq hb hk hf hown ⟨hn, hn'⟩ ⟨he, he'⟩ hreaches hsource (hsince.nodes _ (hreach.nodes _ hsource))
  · intro id _
    rw [he.list, list_congr hlists]
  · intro id _
    rw [he.repository, repository_congr hrepositories]

/-- A file with a rule whose own repository has a key of the outer one too, and with a key that is missing. -/
def shadowing : GrammarFile where
  scopeName := "s"
  patterns := [{ name := some "outer", patterns := [.including "#k", .including "$self"], repository := [("k", .matching "inner" "1")] },
    .including "#missing"]
  repository := [("k", .matching "top" "2")]

/-- A grammar in which a name is missing can be copied before it is resolved and after. -/
theorem copy_resolveLocal_shadowing : ∃ g m, (build shadowing).start {} = .ok (.ok g, m) ∧ m.lists.size < Arena.capacity ∧
    ∃ copy c answer e answer' n copy' b,
      g.copy m = .ok (copy, c) ∧ copy.resolveLocal.start c = .ok (answer, e) ∧
      g.resolveLocal.start m = .ok (answer', n) ∧ g.copy n = .ok (copy', b) ∧
      copy'.root = copy.root ∧ copy'.repository = copy.repository ∧ b.since n = c.since m ∧
      (∀ id, (c.since m).nodes id → b.node id = e.node id) ∧ (∀ id, (c.since m).lists id → b.list id = e.list id) ∧
      ∀ id, (c.since m).repositories id → b.repository id = e.repository id := by
  have hread : ((build shadowing).start {}).map (fun p => (p.1.isOk, p.2.lists.size)) = .ok (true, 6) := by cbv
  cases h : (build shadowing).start {} with
  | error fault => rw [h] at hread; cases hread
  | ok p =>
    obtain ⟨answer, m⟩ := p
    rw [h] at hread
    obtain ⟨hok, hsize⟩ := Prod.mk.inj (Except.ok.inj hread)
    cases answer with
    | error e => cases hok
    | ok g =>
      have hroom : m.lists.size < Arena.capacity := by
        simp only at hsize
        rw [hsize]
        decide
      exact ⟨g, m, rfl, hroom, copy_resolveLocal h hroom⟩

end Grammar

end GrammarLinker
