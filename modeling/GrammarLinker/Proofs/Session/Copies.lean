import GrammarLinker.Proofs.Arena.Readers
import GrammarLinker.Proofs.Session.Safety

/-!
# A copy is read like its source

What is read from the lists and repositories of a copy is what is read from those of the grammar that it was made from, under the ids of
the copies, and what is read from the grammar itself stays the same (`Session.copy_reads`). This is so in every session, with whatever
circles among its lists.

After calls alone every list has a text (`Session.Called.founded`): no list lies inside itself, since building makes containment a
forest, resolving does not change it, and a copy contains what its source contains.
-/

namespace GrammarLinker

open Arena InterGrammar

/-- The renaming that leaves every id. -/
def Renaming.id : Renaming := ⟨fun node => node, fun list => list, fun repository => repository⟩

theorem NodeBody.rename_id (body : NodeBody) : body.rename .id = body := by
  cases body with
  | rule children => rfl
  | inclusion i =>
    obtain ⟨text, declared, state⟩ := i
    cases state <;> cases declared <;> rfl

theorem Repository.rename_id (r : Repository) : r.rename .id = r := by
  obtain ⟨entries, parent⟩ := r
  cases parent <;> simp [Repository.rename, Renaming.id]

/-- There are as many lists as there were. -/
theorem Arena.Extends.lists_size_le {a b : Arena} (h : a.Extends b) : a.lists.size ≤ b.lists.size := by
  refine Nat.le_of_not_lt fun hlt => ?_
  have hlost : b.HasList ⟨b.lists.size⟩ := h.hasList (show b.lists.size < a.lists.size from hlt)
  exact Nat.lt_irrefl _ hlost

/-- What was there stands under its ids in an arena that is added to. -/
theorem Arena.Extends.embeds {a b : Arena} (h : a.Extends b) (ρ : Region) : Embeds .id ρ a b := by
  refine ⟨fun id node hn _ => ⟨node.parent, ?_⟩, fun id items hl _ => ?_, fun id r hr _ => ?_⟩
  · rw [NodeBody.rename_id]
    exact h.node id node hn
  · rw [show items.map Renaming.id.node = items from List.map_id items]
    exact h.list id items hl
  · rw [Repository.rename_id]
    exact h.repository id r hr

namespace Grammar

variable {g copy : Grammar} {a b : Arena} {φ : Renaming}

/-- No list of a copy lies inside itself, as none of its source does. -/
theorem CopiedBy.founded (h : g.CopiedBy copy a b φ) (hc : a.Closed) (hx : a.Extends b) (hreach : (g.reach a).Within a.region)
    (hf : a.Founded) : b.Founded := by
  have hstays := g.reach_staysIn a
  have hcopied : ∀ list, Acc (fun inner outer => a.Encloses outer inner) list → g.Reaches a (.list list) →
      Acc (fun inner outer => b.Encloses outer inner) (φ.list list) := by
    intro list hacc
    induction hacc with
    | intro list _ ih =>
      refine fun hl => ⟨_, fun inner ⟨id, ⟨copies, hcopies, hid⟩, node, hn, hb⟩ => ?_⟩
      obtain ⟨items, hitems⟩ := (hreach.lists list hl).list_ok
      obtain rfl := Except.ok.inj (hcopies.symm.trans (h.items list items hl hitems))
      obtain ⟨source, hsource, rfl⟩ := List.mem_map.1 hid
      have hreachable := hstays.list list items hitems hl source hsource
      obtain ⟨old, hold⟩ := (hreach.nodes source hreachable).node_ok
      obtain ⟨parent, hcopy, -⟩ := h.contents source old hreachable hold
      obtain rfl := Except.ok.inj (hn.symm.trans hcopy)
      cases hbody : old.body with
      | inclusion i =>
        rw [hbody, NodeBody.rename_inclusion] at hb
        cases hb
      | rule children =>
        rw [hbody] at hb
        cases hb
        have ho : a.Owns source children := ⟨old, hold, hbody⟩
        exact ih children ⟨source, ⟨items, hitems, hsource⟩, ho⟩ (hstays.lists_owns hreachable ho)
  intro list
  by_cases hl : a.HasList list
  · exact hx.acc_encloses hc (hf list) hl
  · by_cases hb : b.HasList list
    · obtain ⟨source, hsource, rfl⟩ := h.lists.surjOn (show (b.since a).lists list from ⟨hl, hb⟩)
      exact hcopied source (hf source) hsource
    · exact ⟨list, fun inner ⟨id, hh, _⟩ => absurd hh.hasList hb⟩

end Grammar

/-- Resolution does not change what encloses what. -/
theorem Arena.ResolvesBy.founded {a b : Arena} {P : NodeId → ListId → Prop} (h : ResolvesBy P a b) (hf : a.Founded) : b.Founded := by
  have hencloses : ∀ outer inner, b.Encloses outer inner ↔ a.Encloses outer inner := fun outer inner => by
    unfold Encloses
    simp only [h.holds, h.owns]
  intro list
  simp only [hencloses]
  exact hf list

namespace Session

variable {roots : Session → ListId → Prop} {s t : Session} {g : Grammar}

/-! ## What moves keep -/

/-- A move lets no list lie inside itself. -/
theorem Move.founded (hm : Move roots s t) (hs : Sound s) (h : s.arena.Founded) : t.arena.Founded := by
  cases hm.effect hs with
  | built hrun =>
    obtain ⟨registry, hd⟩ := Grammar.build_sound hrun
    exact h.of_since hs.closed hd.grows hd.closed hd.forest
  | resolved hb => exact hb.founded h
  | @copied g copy b hg hrun =>
    obtain ⟨φ, hx, -, hcopied⟩ := hs.copiedBy hg hrun
    exact hcopied.founded hs.closed hx ((hs.held g hg).reach_within hs.closed) h

/-- After any calls no list lies inside itself, whatever lists were passed for roots. -/
theorem Called.founded (hadm : Admits roots) (h : Called roots s) : s.arena.Founded :=
  Called.induction hadm (fun _ _ hs hf hm => hm.founded hs hf) (fun _ _ _ _ hf => hf) founded_empty h

/-! ## Readers -/

/-- In every session that is reached, as long as there are fewer lists than ids, a grammar can be copied, and every reader finds in the
copy what it finds in the grammar, under the ids of the copies: the concrete patterns of the root, the text of the root, whether a list is
grounded, and what a name denotes in a repository. What is read from the arena as it was stays the same. After calls alone there is a
text. -/
theorem copy_reads (h : Reachable s) (hg : g ∈ s.grammars) (hroom : s.arena.lists.size < Arena.capacity) :
    ∃ copy b φ, g.copy s.arena = .ok (copy, b) ∧ g.CopiedBy copy s.arena b φ ∧
      (∃ ids, s.arena.concretePatterns g.root = .ok ids ∧ b.concretePatterns copy.root = .ok (ids.map φ.node)) ∧
      b.render copy.root = s.arena.render g.root ∧
      (∀ list, g.Reaches s.arena (.list list) →
        ∃ answer, s.arena.isGrounded list = .ok answer ∧ b.isGrounded (φ.list list) = .ok answer) ∧
      (∀ id name, g.Reaches s.arena (.repository id) →
        ∃ found, s.arena.lookup id name = .ok found ∧ b.lookup (φ.repository id) name = .ok (found.map φ.list)) ∧
      ReadsAlike .id s.arena.region s.arena b ∧
      ∀ roots, Admits roots → Called roots s → ∃ text, s.arena.render g.root = .ok text := by
  have hs := h.sound
  have hheld := hs.held g hg
  have hchains := hs.nested.finiteChains hs.closed
  have hstays : s.arena.StaysIn s.arena.region := ClosedIn.staysIn hs.closed
  have hreach := hheld.reach_within hs.closed
  rcases Grammar.copy_cases hs.closed hchains hheld with ⟨-, hle⟩ | ⟨copy, b, φ, hrun, hx, -, hcopied⟩
  · exact absurd hroom (Nat.not_lt.2 hle)
  have hb := (Move.copied hg hrun).sound admits_anyList hs
  have hsize := hx.lists_size_le
  have hembeds := hcopied.embeds fun id r hr hid => h.keyed id r hr (hreach.repositories id hid)
  have hreads := hembeds.readsAlike (g.reach_staysIn s.arena) hreach hcopied.lists.injOn (hchains.finiteIn hreach) hs.closed hb.closed hsize
  have hkept := (hx.embeds s.arena.region).readsAlike hstays (.refl _) (fun _ _ _ _ heq => heq) (hchains.finiteIn (.refl _)) hs.closed
    hb.closed hsize
  have hsafe := hs.safe
  refine ⟨copy, b, φ, hrun, hcopied, ?_, ?_, fun list hl => ?_, fun id name hid => ?_, hkept, fun roots hadm hcalled => ?_⟩
  · obtain ⟨ids, hids⟩ := hsafe.concretePatterns g.root hheld.root
    exact ⟨ids, hids, by rw [hcopied.root, hreads.concretePatterns g.root .root, hids]; rfl⟩
  · rw [hcopied.root]
    exact hreads.render g.root .root
  · obtain ⟨answer, hanswer⟩ := hsafe.isGrounded list (hreach.lists list hl)
    exact ⟨answer, hanswer, by rw [hreads.isGrounded list hl, hanswer]⟩
  · obtain ⟨found, hfound⟩ := hsafe.lookup id (hreach.repositories id hid) name
    exact ⟨found, hfound, by rw [hreads.lookup id name hid, hfound]; rfl⟩
  · exact (hcalled.founded hadm).render_ok hs.closed hheld.root

/-- The second grammar of the ring includes the first one, which includes it. -/
theorem copy_reads_ring : Reachable ⟨ring, ringSet.grammars⟩ ∧ ringSet.grammars[1] ∈ ringSet.grammars ∧
    ring.lists.size < Arena.capacity ∧ ∃ copy b, ∃ φ : Renaming, ringSet.grammars[1].copy ring = .ok (copy, b) ∧
      b.concretePatterns copy.root = .ok ([⟨2⟩, ⟨5⟩, ⟨7⟩].map φ.node) ∧
      b.render copy.root = .ok "include a [resolved, 2 patterns]\nrule _\n  include $self [resolved, 2 patterns]\n" ∧
      b.isGrounded (φ.list ⟨4⟩) = .ok true ∧ b.lookup (φ.repository ⟨1⟩) "m" = .ok none := by
  have hreachable : Reachable ⟨ring, ringSet.grammars⟩ := (called_ring_linked AnyList).reachable
  have hmem : ringSet.grammars[1] ∈ ringSet.grammars := List.getElem_mem _
  have hroom : ring.lists.size < Arena.capacity := by decide
  -- The include of the first grammar leads to its root, and its own `$self` to its repository.
  have hinclude : ringSet.grammars[1].Reaches ring (.node ⟨6⟩) := Grammar.Reaches.root.step (.item rfl List.mem_cons_self)
  have hlist : ringSet.grammars[1].Reaches ring (.list ⟨4⟩) := hinclude.step (.target rfl rfl rfl)
  have hself : ringSet.grammars[1].Reaches ring (.node ⟨3⟩) :=
    ((hlist.step (.item rfl List.mem_cons_self)).step (.children rfl rfl)).step (.item rfl List.mem_cons_self)
  have hrepository : ringSet.grammars[1].Reaches ring (.repository ⟨1⟩) := hself.step (.declared rfl rfl rfl)
  obtain ⟨copy, b, φ, hrun, -, ⟨ids, hids, hcopies⟩, htext, hgrounded, hlookup, -⟩ := copy_reads hreachable hmem hroom
  obtain ⟨grounded, hsource, hcopy⟩ := hgrounded ⟨4⟩ hlist
  obtain ⟨found, hfound, hcopied⟩ := hlookup ⟨1⟩ "m" hrepository
  have hpatterns : ring.concretePatterns ringSet.grammars[1].root = .ok [⟨2⟩, ⟨5⟩, ⟨7⟩] := by cbv
  have hrendered : ring.render ringSet.grammars[1].root =
      .ok "include a [resolved, 2 patterns]\nrule _\n  include $self [resolved, 2 patterns]\n" := by cbv
  have htrue : ring.isGrounded ⟨4⟩ = .ok true := by cbv
  have hnone : ring.lookup ⟨1⟩ "m" = .ok none := by cbv
  obtain rfl := Except.ok.inj (hids.symm.trans hpatterns)
  obtain rfl := Except.ok.inj (hsource.symm.trans htrue)
  obtain rfl := Except.ok.inj (hfound.symm.trans hnone)
  exact ⟨hreachable, hmem, hroom, copy, b, φ, hrun, hcopies, htext.trans hrendered, hcopy, hcopied⟩

end Session

end GrammarLinker
