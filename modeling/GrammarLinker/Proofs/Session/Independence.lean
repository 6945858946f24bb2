import GrammarLinker.Proofs.Session.OneWay

/-!
# A grammar and its copy are resolved independently

A node is changed only by resolving a grammar that has registered it (`Session.Actions.node_kept`). The registry of a grammar has the
includes that waited among the objects that were added for it, whether it was built or copied, so no two grammars of a session share a
registered include. Hence a grammar is as it was, whatever is done with its copy and with other grammars, and so is every node of the
copy, whatever is done with the grammar that it was made from (`Session.copy_independent`). Linking goes by moves
(`Session.Action.moves`), which keep every grammar that is built, so this is also said of those that are dropped in the end.
-/

namespace GrammarLinker

open Arena InterGrammar

namespace Session

variable {roots : Session → ListId → Prop} {s t : Session} {g copy : Grammar} {b : Arena}

/-- The session in which a grammar is out of reach. -/
def without (s : Session) (g : Grammar) : Session := { s with grammars := s.grammars.filter (· ≠ g) }

@[simp] theorem arena_without (s : Session) (g : Grammar) : (s.without g).arena = s.arena := rfl

theorem mem_without {k : Grammar} : k ∈ (s.without g).grammars ↔ k ∈ s.grammars ∧ k ≠ g := by
  simp [without]

/-- A session stays sound when a grammar is forgotten. -/
theorem Sound.without (h : Sound s) (g : Grammar) : Sound (s.without g) :=
  ⟨h.closed, h.nested, fun k hk => h.held k (mem_without.1 hk).1, fun k hk => h.nodup k (mem_without.1 hk).1,
    h.apart.sublist List.filter_sublist⟩

/-- What a grammar has registered no other grammar has. -/
theorem Sound.not_registered (h : Sound s) (hg : g ∈ s.grammars) {id : NodeId} (hid : id ∈ g.registry.includes) :
    ∀ k ∈ (s.without g).grammars, id ∉ k.registry.includes := by
  intro k hk hid'
  obtain ⟨hmem, hne⟩ := mem_without.1 hk
  exact h.apart.forall hg hmem hne.symm hid hid'

/-- A node that no grammar has registered, and that is there, is registered by no grammar that comes out of a move, and is not changed
by it. -/
theorem Move.node_kept (hm : Move roots s t) (hs : Sound s) {id : NodeId} {node : Node}
    (h : s.arena.node id = .ok node ∧ ∀ g ∈ s.grammars, id ∉ g.registry.includes) :
    t.arena.node id = .ok node ∧ ∀ g ∈ t.grammars, id ∉ g.registry.includes := by
  obtain ⟨hn, hfree⟩ := h
  cases hm.change hs with
  | grown gs hx hnew =>
    refine ⟨hx.node id node hn, fun g hg hid => ?_⟩
    rcases List.mem_append.1 hg with hg | hg
    · exact (hnew g hg id hid).1.1 (hasNode_of_node hn)
    · exact hfree g hg hid
  | resolved hr hP =>
    refine ⟨hr.node_kept (fun list hp => ?_) hn, hfree⟩
    obtain ⟨g, hg, hid⟩ := hP id list hp
    exact hfree g hg hid

/-- Calls do not change a node that none of the grammars has registered. -/
theorem Actions.node_kept (hadm : Admits roots) (hc : Actions roots s t) (hs : Sound s) {id : NodeId} (hid : s.arena.HasNode id)
    (hfree : ∀ g ∈ s.grammars, id ∉ g.registry.includes) : t.arena.node id = s.arena.node id := by
  obtain ⟨node, hn⟩ := hid.node_ok
  have hkept := hc.keeps hadm (fun _ _ hu hI hm => Move.node_kept hm hu hI)
    (fun _ _ _ hsub hI => ⟨hI.1, fun g hg => hI.2 g (hsub hg)⟩) hs ⟨hn, hfree⟩
  exact hkept.1.trans hn.symm

/-- A grammar of a session and a copy of it have nothing to do with each other. -/
structure Independent (s : Session) (g copy : Grammar) (b : Arena) : Prop where
  /-- The copy has registered exactly the includes among what was added that wait, each once. -/
  once : copy.registry.includes.Nodup
  registered : ∀ id, id ∈ copy.registry.includes ↔ (b.since s.arena).nodes id ∧ (b.pending? id).isSome = true
  /-- No two grammars share a registered include, the copy and the grammar neither. -/
  apart : (copy :: s.grammars).Pairwise Apart
  /-- What is called without the grammar does not touch the includes that it has registered. -/
  source : ∀ t, Actions AnyList (without ⟨b, copy :: s.grammars⟩ g) t →
    ∀ id ∈ g.registry.includes, t.arena.node id = s.arena.node id
  /-- What is called without the copy does not touch a node that was added for it. -/
  copied : ∀ t, Actions AnyList (without ⟨b, copy :: s.grammars⟩ copy) t →
    ∀ id, (b.since s.arena).nodes id → t.arena.node id = b.node id

/-- In every session that is reached, as long as there are fewer lists than ids, a grammar can be copied, and the grammar and its copy are
resolved independently of each other. -/
theorem copy_independent (h : Reachable s) (hg : g ∈ s.grammars) (hroom : s.arena.lists.size < Arena.capacity) :
    ∃ copy b, g.copy s.arena = .ok (copy, b) ∧ Independent s g copy b := by
  have hs := h.sound
  rcases Grammar.copy_cases hs.closed (hs.nested.finiteChains hs.closed) (hs.held g hg) with
    ⟨-, hle⟩ | ⟨copy, b, φ, hrun, hx, -, hcopied⟩
  · exact absurd hroom (Nat.not_lt.2 hle)
  have hreach := (hs.held g hg).reach_within hs.closed
  have hb : Sound ⟨b, copy :: s.grammars⟩ := (Move.copied hg hrun).sound admits_anyList hs
  refine ⟨copy, b, hrun, hcopied.once, fun id => hcopied.mem_includes hreach, hb.apart, fun t hc id hid => ?_, fun t hc id hid => ?_⟩
  · have hhas : s.arena.HasNode id := (hs.held g hg).includes id hid
    have hkept := hc.node_kept admits_anyList (hb.without g) (hx.hasNode hhas)
      (hb.not_registered (List.mem_cons_of_mem _ hg) hid)
    obtain ⟨node, hn⟩ := hhas.node_ok
    rw [hkept, arena_without, hn]
    exact hx.node id node hn
  · refine hc.node_kept admits_anyList (hb.without copy) hid.2 fun k hk hreg => ?_
    obtain ⟨hmem, hne⟩ := mem_without.1 hk
    -- the other grammars were there before, and so were their includes
    rcases List.mem_cons.1 hmem with rfl | hmem
    · exact hne rfl
    · exact hid.1 ((hs.held k hmem).includes id hreg)

/-- The copy of the first grammar of the circle. -/
def circleCopy : Grammar := { scopeName := "a", name := none, root := ⟨3⟩, repository := ⟨2⟩, registry := ⟨"a", [⟨4⟩]⟩ }

/-- The circle with the copy. -/
def circleCopied : Arena where
  nodes := circle.nodes ++ #[{ body := .inclusion ⟨"b", some ⟨2⟩, .pending (.foreign "b")⟩ }, { body := .rule ⟨4⟩ }]
  lists := circle.lists ++ #[[⟨4⟩, ⟨5⟩], []]
  repositories := circle.repositories.push {}

/-- The circle when the copy and the second grammar are resolved as far as they can be. -/
def circleCopyLeft : Arena :=
  { circleCopied with
    nodes := #[{ body := .inclusion ⟨"b", some ⟨0⟩, .pending (.foreign "b")⟩ }, { body := .rule ⟨0⟩ },
      { body := .inclusion ⟨"a", some ⟨1⟩, .resolved ⟨3⟩⟩ }, { body := .inclusion ⟨"c", some ⟨1⟩, .pending (.foreign "c")⟩ },
      { body := .inclusion ⟨"b", some ⟨2⟩, .resolved ⟨2⟩⟩ }, { body := .rule ⟨4⟩ }] }

/-- The copy is resolved with the second grammar of the circle, and the grammar that it was made from goes on waiting. -/
theorem copy_independent_circle : Reachable ⟨circle, circleSet.reverse⟩ ∧ circleSet[0] ∈ circleSet.reverse ∧
    circle.lists.size < Arena.capacity ∧ circleSet[0].copy circle = .ok (circleCopy, circleCopied) ∧
    Independent ⟨circle, circleSet.reverse⟩ circleSet[0] circleCopy circleCopied ∧
    ∃ t, Actions AnyList (without ⟨circleCopied, circleCopy :: circleSet.reverse⟩ circleSet[0]) t ∧
      t.arena.pending? ⟨4⟩ = none ∧ t.arena.node ⟨0⟩ = circle.node ⟨0⟩ ∧ t.arena.pending? ⟨0⟩ = some (.foreign "b") := by
  have hmem : circleSet[0] ∈ circleSet.reverse := by decide
  have hroom : circle.lists.size < Arena.capacity := by decide
  have hcopy : circleSet[0].copy circle = .ok (circleCopy, circleCopied) := by cbv
  obtain ⟨copy, b, hrun, hi⟩ := copy_independent reachable_circle hmem hroom
  obtain ⟨rfl, rfl⟩ := Prod.mk.inj (Except.ok.inj (hrun.symm.trans hcopy))
  have hresolve : (resolve [circleCopy, circleSet[1]] none).start circleCopied =
      .ok (.error (.unresolvedReference "b" "c"), circleCopyLeft) := by cbv
  have hc : Actions AnyList (without ⟨circleCopied, circleCopy :: circleSet.reverse⟩ circleSet[0])
      { without ⟨circleCopied, circleCopy :: circleSet.reverse⟩ circleSet[0] with arena := circleCopyLeft } :=
    .single (.move (.between (by decide) (by decide) hresolve))
  exact ⟨reachable_circle, hmem, hroom, hrun, hi, _, hc, rfl, hi.source _ hc ⟨0⟩ (by decide), rfl⟩

end Session

end GrammarLinker
