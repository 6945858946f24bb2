import GrammarLinker.Proofs.LinkedSet.Isolation
import GrammarLinker.Proofs.LinkedSet.Meaning

/-!
# Linked sets are closed

Under `abort` every file is built and every grammar that is built is linked. Whatever a linked grammar reaches was added in the span of
one of them (`Linker.Linked.staysIn`), where every include is registered and so resolved in the end. A linked grammar therefore reaches
nothing that was there before and no pending include (`Grammar.ClosedSince`), and a copy of it has nothing left to resolve.
-/

namespace GrammarLinker

open Arena

/-- Everything that a grammar reaches was added after an arena, and no include of it is pending. -/
structure Grammar.ClosedSince (g : Grammar) (a b : Arena) : Prop where
  within : (g.reach b).Within (b.since a)
  resolved : ∀ id, g.Reaches b (.node id) → b.pending? id = none

/-- A copy of a grammar that reaches no pending include registers none. -/
theorem Grammar.CopiedBy.includes_eq_nil {g copy : Grammar} {a b : Arena} {φ : Renaming} (h : g.CopiedBy copy a b φ)
    (hresolved : ∀ id, g.Reaches a (.node id) → a.pending? id = none) : copy.registry.includes = [] := by
  refine List.eq_nil_iff_forall_not_mem.2 fun id hid => ?_
  obtain ⟨source, hsource, hpending, -⟩ := (h.registered id).1 hid
  rw [hresolved source hsource] at hpending
  cases hpending

namespace Linker

variable {config : LinkConfig} {files : List GrammarFile} {a m b : Arena} {spans : List Span} {s : Span}
  {unique resolved : List Grammar} {set : LinkedSet}

/-- The objects that were added in spans. -/
def spanned (spans : List Span) : Region where
  nodes id := ∃ s ∈ spans, s.region.nodes id
  lists id := ∃ s ∈ spans, s.region.lists id
  repositories id := ∃ s ∈ spans, s.region.repositories id

section

variable (h : Linked config files a spans m unique resolved set b)
include h

/-- An include of a span was declared in a repository of that span. -/
theorem Linked.repositories_declared (hs : s ∈ spans) {id : NodeId} (hid : s.region.nodes id) {node : Node}
    (hn : b.node id = .ok node) {i : Include} (hb : node.body = .inclusion i) :
    ∀ r, i.repository = some r → s.region.repositories r := by
  obtain ⟨file, -, hsound⟩ := h.built.sound s hs
  obtain ⟨old, ho, rfl | ⟨target, -, ⟨reference, hr⟩, rfl⟩⟩ := h.resolves.node_before hn
  · have hrefers := (hsound.closedIn.node id _ ho hid).2
    rw [hb] at hrefers
    exact hrefers.1
  · obtain ⟨text, declared, hbody⟩ := Node.pending?_eq_some.1 hr
    have hrefers := (hsound.closedIn.node id _ ho hid).2
    rw [hbody] at hrefers
    obtain rfl : i = ⟨text, declared, .resolved target⟩ := by
      simpa [Node.resolvedTo, Node.inclusion?, hbody, Include.resolveTo?, eq_comm] using hb
    exact hrefers.1

/-- What was added in spans refers to what was added in spans. -/
theorem Linked.staysIn : b.StaysIn (spanned spans) := by
  refine ⟨?_, ?_, ?_⟩
  · rintro id node hn ⟨s, hs, hid⟩
    cases hb : node.body with
    | rule children => exact ⟨s, hs, h.lists_children hs hid hn hb⟩
    | inclusion i =>
      refine ⟨fun r hr => ⟨s, hs, h.repositories_declared hs hid hn hb r hr⟩, fun t ht => ?_⟩
      have hi := inclusion_eq_some.2 ⟨node, hn, hb⟩
      obtain ⟨-, -, -, -, ⟨-, hown⟩ | ⟨t, htm, -, -, hother⟩⟩ := h.lists_target hs hid ⟨i, hi, ht⟩
      · exact ⟨s, hs, hown⟩
      · exact ⟨t, htm, hother⟩
  · rintro id items hl ⟨s, hs, hid⟩ item hitem
    exact ⟨s, hs, h.nodes_item hs hid hl hitem⟩
  · rintro id r hr ⟨s, hs, hid⟩
    obtain ⟨file, -, hsound⟩ := h.built.sound s hs
    rw [h.resolves.repository] at hr
    have hrefers := hsound.closedIn.repository id r hr hid
    exact ⟨fun p hp => ⟨s, hs, hrefers.1 p hp⟩, fun entry he => ⟨s, hs, hrefers.2 entry he⟩⟩

/-- What was added in spans was not there before linking. -/
theorem Linked.spanned_within : (spanned spans).Within (b.since a) := by
  refine ⟨?_, ?_, ?_⟩
  · rintro id ⟨s, hs, hid⟩
    obtain ⟨file, -, hsound⟩ := h.built.sound s hs
    exact ⟨fun ha => hid.1 (hsound.before.hasNode ha), h.resolves.hasNode.2 (hsound.after.hasNode hid.2)⟩
  · rintro id ⟨s, hs, hid⟩
    obtain ⟨file, -, hsound⟩ := h.built.sound s hs
    exact ⟨fun ha => hid.1 (hsound.before.hasList ha), h.resolves.hasList.2 (hsound.after.hasList hid.2)⟩
  · rintro id ⟨s, hs, hid⟩
    obtain ⟨file, -, hsound⟩ := h.built.sound s hs
    exact ⟨fun ha => hid.1 (hsound.before.hasRepository ha), h.resolves.hasRepository.2 (hsound.after.hasRepository hid.2)⟩

/-- A linked grammar reaches what was added in spans. -/
theorem Linked.reach_within {g : Grammar} (hg : g ∈ set.grammars) : (g.reach b).Within (spanned spans) := by
  obtain ⟨s, hs, rfl⟩ := h.exists_span hg
  obtain ⟨file, -, hsound⟩ := h.built.sound s hs
  exact Grammar.reach_within h.staysIn ⟨s, hs, hsound.built.root⟩ ⟨s, hs, hsound.built.repository⟩

/-- When every grammar that was built is linked, the linked grammars are closed. -/
theorem Linked.closedSince (hall : set.grammars = spans.map Span.grammar) {g : Grammar} (hg : g ∈ set.grammars) :
    g.ClosedSince a b := by
  refine ⟨(h.reach_within hg).trans h.spanned_within, fun id hid => ?_⟩
  obtain ⟨s, hs, hown⟩ := (h.reach_within hg).nodes id hid
  exact h.not_pending hs (hall ▸ List.mem_map_of_mem hs) hown

end

end Linker

namespace Session

open Linker

/-- In every session that is reached, the grammars of a set that is linked under `abort` are closed, so that a copy of one of them
registers no include. -/
theorem link_abort_closed {session : Session} (h : session.Reachable) {base : Option String} {files : List GrammarFile}
    {set : LinkedSet} {b : Arena}
    (hrun : (link { baseScope := base, onFailure := .abort } files).start session.arena = .ok (.ok set, b)) :
    ∀ g ∈ set.grammars, g.ClosedSince session.arena b ∧
      (b.lists.size < Arena.capacity → ∃ copy c, g.copy b = .ok (copy, c) ∧ copy.registry.includes = []) := by
  obtain ⟨hc, hn, -, hset, -⟩ := LinkM.outcome (link_ok _ files h.sound.closed h.sound.nested) hrun
  obtain ⟨spans, m, unique, resolved, hl⟩ := hset set rfl
  intro g hg
  have hclosed := hl.closedSince (hl.all rfl).2.2 hg
  refine ⟨hclosed, fun hroom => ?_⟩
  rcases Grammar.copy_cases hc (hn.finiteChains hc) (hl.ready_set.held g hg) with ⟨-, hle⟩ | ⟨copy, c, φ, hcopy, -, -, hcopied⟩
  · exact absurd hroom (Nat.not_lt.2 hle)
  · exact ⟨copy, c, hcopy, hcopied.includes_eq_nil hclosed.resolved⟩

/-- The two grammars that include each other can be linked under `abort`, and what they reach is theirs and resolved. -/
theorem link_abort_closed_embedding : Reachable {} ∧
    (link { baseScope := some "a", onFailure := .abort } embedding).start {} = .ok (.ok embeddedSet, embedded) ∧
    ∀ g ∈ embeddedSet.grammars, g.ClosedSince {} embedded ∧
      ∃ copy c, g.copy embedded = .ok (copy, c) ∧ copy.registry.includes = [] := by
  have hrun : (link { baseScope := some "a", onFailure := .abort } embedding).start {} = .ok (.ok embeddedSet, embedded) := by
    cbv
  refine ⟨.empty, hrun, fun g hg => ?_⟩
  obtain ⟨hclosed, hcopy⟩ := link_abort_closed .empty hrun g hg
  exact ⟨hclosed, hcopy (by decide)⟩

end Session

end GrammarLinker
