import GrammarLinker.Proofs.Session.Calls

/-!
# Calls go one way

Whatever is called, what was there stays as it was, but for one thing: an include that waits may come to stand for a list, and then it
stands for that list for good (`Arena.MayBecome`). This holds from every session that is reached, over all calls that follow, those that
end with an error included (`Session.Actions.arena_mayBecome`). A build, a copy, or a link that gives up halfway leaves new objects behind, and
none of the old ones refers to them unless it was resolved to one.
-/

namespace GrammarLinker

open Arena InterGrammar

/-- What may become of the state of an include: one that waits may come to stand for a list. -/
inductive IncludeState.MayBecome : IncludeState → IncludeState → Prop where
  | kept (state : IncludeState) : MayBecome state state
  | resolved (reference : Reference) (target : ListId) : MayBecome (.pending reference) (.resolved target)

/-- What may become of a rule or an include: nothing but the state of an include is ever changed. -/
inductive NodeBody.MayBecome : NodeBody → NodeBody → Prop where
  | rule (children : ListId) : MayBecome (.rule children) (.rule children)
  | inclusion (text : String) (declared : Option RepositoryId) {state state' : IncludeState} (h : state.MayBecome state') :
      MayBecome (.inclusion ⟨text, declared, state⟩) (.inclusion ⟨text, declared, state'⟩)

/-- What may become of a node. -/
structure Node.MayBecome (n n' : Node) : Prop where
  name : n'.name = n.name
  rule : n'.rule = n.rule
  parent : n'.parent = n.parent
  body : n.body.MayBecome n'.body

/-- What may become of an arena: there may be more, and of what was there only includes that waited may have changed. -/
structure Arena.MayBecome (a b : Arena) : Prop where
  node : ∀ id node, a.node id = .ok node → ∃ node', b.node id = .ok node' ∧ node.MayBecome node'
  list : ∀ id items, a.list id = .ok items → b.list id = .ok items
  repository : ∀ id repository, a.repository id = .ok repository → b.repository id = .ok repository

theorem NodeBody.MayBecome.refl (body : NodeBody) : body.MayBecome body := by
  cases body with
  | rule children => exact .rule children
  | inclusion i => exact .inclusion i.reference i.repository (.kept i.state)

theorem Node.MayBecome.refl (n : Node) : n.MayBecome n := ⟨rfl, rfl, rfl, .refl n.body⟩

/-- What has come to stand for a list stands for that list for good. -/
theorem IncludeState.MayBecome.trans {s t u : IncludeState} (h : s.MayBecome t) (h' : t.MayBecome u) : s.MayBecome u := by
  cases h with
  | kept => exact h'
  | resolved reference target =>
    cases h' with
    | kept => exact .resolved reference target

theorem NodeBody.MayBecome.trans {x y z : NodeBody} (h : x.MayBecome y) (h' : y.MayBecome z) : x.MayBecome z := by
  cases h with
  | rule children => exact h'
  | inclusion text declared hs =>
    cases h' with
    | inclusion _ _ hs' => exact .inclusion text declared (hs.trans hs')

theorem Node.MayBecome.trans {l m n : Node} (h : l.MayBecome m) (h' : m.MayBecome n) : l.MayBecome n :=
  ⟨h'.name.trans h.name, h'.rule.trans h.rule, h'.parent.trans h.parent, h.body.trans h'.body⟩

/-- An include that waits may be resolved. -/
theorem Node.mayBecome_resolvedTo {n : Node} {reference : Reference} (h : n.pending? = some reference) (target : ListId) :
    n.MayBecome (n.resolvedTo target) := by
  refine ⟨n.name_resolvedTo target, n.rule_resolvedTo target, n.parent_resolvedTo target, ?_⟩
  obtain ⟨text, declared, hb⟩ := Node.pending?_eq_some.1 h
  have hb' : (n.resolvedTo target).body = .inclusion ⟨text, declared, .resolved target⟩ := by
    simp [Node.resolvedTo, Node.inclusion?, hb, Include.resolveTo?]
  rw [hb, hb']
  exact .inclusion text declared (.resolved reference target)

namespace Arena

variable {a b c : Arena}

theorem MayBecome.refl (a : Arena) : a.MayBecome a :=
  ⟨fun _ node h => ⟨node, h, .refl node⟩, fun _ _ h => h, fun _ _ h => h⟩

theorem MayBecome.trans (h : a.MayBecome b) (h' : b.MayBecome c) : a.MayBecome c := by
  refine ⟨?_, fun id items hl => h'.list id items (h.list id items hl), fun id r hr => h'.repository id r (h.repository id r hr)⟩
  intro id node hn
  obtain ⟨node', hn', hnode⟩ := h.node id node hn
  obtain ⟨node'', hn'', hnode'⟩ := h'.node id node' hn'
  exact ⟨node'', hn'', hnode.trans hnode'⟩

/-- To add is one way. -/
theorem Extends.mayBecome (h : a.Extends b) : a.MayBecome b :=
  ⟨fun id node hn => ⟨node, h.node id node hn, .refl node⟩, h.list, h.repository⟩

/-- To resolve is one way. -/
theorem ResolvesBy.mayBecome {P : NodeId → ListId → Prop} (h : ResolvesBy P a b) : a.MayBecome b := by
  refine ⟨?_, fun id items hl => (h.list id).trans hl, fun id r hr => (h.repository id).trans hr⟩
  intro id node hn
  rcases h.node id node hn with hb | ⟨target, -, ⟨reference, hp⟩, hb⟩
  · exact ⟨node, hb, .refl node⟩
  · exact ⟨_, hb, Node.mayBecome_resolvedTo hp target⟩

end Arena

namespace Session

variable {roots : Session → ListId → Prop} {s t : Session}

/-- A move goes one way. -/
theorem Move.mayBecome (hm : Move roots s t) (h : Sound s) : s.arena.MayBecome t.arena := by
  cases hm.change h with
  | grown gs hx => exact hx.mayBecome
  | resolved hr => exact hr.mayBecome

/-- Whatever is called after a session was reached, in any order and with errors or without, all nodes, lists and repositories stay what
they are, but for includes that waited and were resolved. -/
theorem Actions.arena_mayBecome (h : Reachable s) (hc : Actions AnyList s t) : s.arena.MayBecome t.arena := by
  have hmove : ∀ u v, Sound u → s.arena.MayBecome u.arena → Move AnyList u v → s.arena.MayBecome v.arena :=
    fun _ _ hu hI hm => hI.trans (hm.mayBecome hu)
  exact hc.keeps admits_anyList hmove (fun _ _ _ _ hI => hI) h.sound (.refl s.arena)

/-- The circle, resolved as far as it can be, with what a build that fails leaves behind. -/
def circleUnbuilt : Arena where
  nodes := circleLeft.nodes ++ #[{ body := .rule ⟨3⟩ },
    { name := some "n", rule := { matchExpr := some "2" }, parent := some ⟨4⟩, body := .rule ⟨4⟩ }]
  lists := circle.lists ++ #[[], []]
  repositories := circle.repositories.push {}

/-- In the circle references are resolved, with an error for the one that is left, and then a build fails. -/
theorem mayBecome_circle : ∃ t, Reachable ⟨circle, circleSet.reverse⟩ ∧ Actions AnyList ⟨circle, circleSet.reverse⟩ t ∧
    t.arena.nodes.toList.map Node.pending? = [none, none, none, some (.foreign "c"), none, none] ∧ circle.MayBecome t.arena := by
  have hresolve : (resolve circleSet none).start circle = .ok (.error (.unresolvedReference "b" "c"), circleLeft) := by cbv
  have hbuild : (Grammar.build brokenFile).start circleLeft =
      .ok (.error (.malformedReference "c" ⟨"#", .missingKey⟩), circleUnbuilt) := by cbv
  have hfirst : Actions AnyList ⟨circle, circleSet.reverse⟩ ⟨circleLeft, circleSet.reverse⟩ :=
    .single (.move (.between (by decide) (fun g hg => List.mem_reverse.2 hg) hresolve))
  have hboth : Actions AnyList ⟨circle, circleSet.reverse⟩ ⟨circleUnbuilt, circleSet.reverse⟩ := hfirst.tail (.move (.unbuilt hbuild))
  exact ⟨_, reachable_circle, hboth, rfl, Actions.arena_mayBecome reachable_circle hboth⟩

end Session

end GrammarLinker
