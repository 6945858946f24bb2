import GrammarLinker.Proofs.Arena.Depth
import GrammarLinker.Proofs.Arena.Inlining
import GrammarLinker.Proofs.Session.Calls

/-!
# No call looks at an id that is out of range

After any calls every id that is stored somewhere is the id of an object that is there, and every id that a grammar has registered is
the id of an include (`Session.Called.inRange`). So whatever is called next answers, and so does everything that is read by ids of objects
that are there (`Session.Safe`). This holds also when the calls before had errors and left behind what they had begun, and whatever
lists were passed for roots.
-/

namespace GrammarLinker

open Arena InterGrammar

/-! ## Reading by ids that are there -/

namespace Arena

variable {a b : Arena} {id : NodeId} {list : ListId}

/-- The children of a rule, or what an include stands for, can be read. -/
theorem Closed.subpatterns_ok (hc : a.Closed) (hid : a.HasNode id) : ∃ ids, a.subpatterns id = .ok ids := by
  obtain ⟨node, hn⟩ := hid.node_ok
  simp only [subpatterns, hn, bind, Except.bind]
  cases hb : node.body with
  | rule children => exact (ClosedIn.lists_owns hc hid ⟨node, hn, hb⟩).list_ok
  | inclusion i =>
    cases ht : i.target? with
    | none => exact ⟨[], by simp only [ht]; rfl⟩
    | some target =>
      obtain ⟨ids, hids⟩ := (hc.hasList_target (inclusion_eq_some.2 ⟨node, hn, hb⟩) ht).list_ok
      exact ⟨ids, by simp only [ht, hids]⟩

/-- All concrete patterns of a list can be told. -/
theorem Closed.concretePatterns_ok (hc : a.Closed) (hl : a.HasList list) : ∃ ids, a.concretePatterns list = .ok ids := by
  obtain ⟨ids, h⟩ := hc.exists_inlined hl
  exact ⟨ids, h.concretePatterns hc⟩

end Arena

/-! ## What is registered -/

/-- An include stays one when the arena is added to. -/
theorem Arena.Extends.isInclude {a b : Arena} (h : a.Extends b) {id : NodeId} (hi : a.IsInclude id) : b.IsInclude id := by
  obtain ⟨node, hn, hr⟩ := isInclude_iff.1 hi
  exact isInclude_iff.2 ⟨node, h.node id node hn, hr⟩

/-- An include stays one when it is resolved. -/
theorem Arena.ResolvesBy.isInclude {a b : Arena} {P : NodeId → ListId → Prop} (h : ResolvesBy P a b) {id : NodeId}
    (hi : a.IsInclude id) : b.IsInclude id := by
  obtain ⟨node, hn, hr⟩ := isInclude_iff.1 hi
  rcases h.node id node hn with hb | ⟨target, -, -, hb⟩
  · exact isInclude_iff.2 ⟨node, hb, hr⟩
  · exact isInclude_iff.2 ⟨_, hb, (node.isRule_resolvedTo target).trans hr⟩

/-- What waits is an include. -/
theorem Arena.isInclude_of_pending {a : Arena} {id : NodeId} (h : (a.pending? id).isSome = true) : a.IsInclude id := by
  obtain ⟨reference, hp⟩ := Option.isSome_iff_exists.1 h
  obtain ⟨node, hn, hp⟩ := pending?_eq_some.1 hp
  exact isInclude_iff.2 ⟨node, hn, Node.isRule_of_pending hp⟩

namespace Session

variable {roots : Session → ListId → Prop} {s t : Session}

/-- What the grammars of a session have registered are includes. -/
def Listed (s : Session) : Prop := ∀ g ∈ s.grammars, ∀ id ∈ g.registry.includes, s.arena.IsInclude id

/-- A move registers includes only, and leaves them what they are. -/
theorem Move.listed (hm : Move roots s t) (hs : Sound s) (h : Listed s) : Listed t := by
  cases hm.change hs with
  | grown gs hx hnew =>
    intro g hg id hid
    rcases List.mem_append.1 hg with hg | hg
    · exact isInclude_of_pending (hnew g hg id hid).2
    · exact hx.isInclude (h g hg id hid)
  | resolved hr hP => exact fun g hg id hid => hr.isInclude (h g hg id hid)

theorem Called.listed (hadm : Admits roots) (h : Called roots s) : Listed s :=
  Called.induction hadm (fun _ _ hs hl hm => hm.listed hs hl) (fun _ _ _ hsub hl g hg => hl g (hsub hg)) nofun h

/-! ## What is called next -/

/-- What is called next, by ids of objects that are there, looks at no id that is out of range. A call answers then. Copying has no
answer when there are at least as many lists as ids, and the text of a list has none when it has no end. -/
structure Safe (s : Session) : Prop where
  build : ∀ file, ∃ answer b, (Grammar.build file).start s.arena = .ok (answer, b)
  entries : ∀ g ∈ s.grammars, ∀ repository, s.arena.HasRepository repository →
    ∃ answer b, (g.registry.resolveEntries repository).start s.arena = .ok (answer, b)
  self : ∀ g ∈ s.grammars, ∀ root, ∃ answer b, (g.registry.resolveSelf root).start s.arena = .ok (answer, b)
  own : ∀ g ∈ s.grammars, ∃ answer b, g.resolveLocal.start s.arena = .ok (answer, b)
  between : ∀ gs base, gs.Nodup → (∀ g ∈ gs, g ∈ s.grammars) → ∃ answer b, (resolve gs base).start s.arena = .ok (answer, b)
  link : ∀ config files, ∃ answer b, (Linker.link config files).start s.arena = .ok (answer, b)
  copy : ∀ g ∈ s.grammars, (∃ copy b, g.copy s.arena = .ok (copy, b)) ∨
    g.copy s.arena = .error .endless ∧ capacity ≤ s.arena.lists.size
  isGrounded : ∀ list, s.arena.HasList list → ∃ grounded, s.arena.isGrounded list = .ok grounded
  lookup : ∀ id, s.arena.HasRepository id → ∀ name, ∃ found, s.arena.lookup id name = .ok found
  subpatterns : ∀ id, s.arena.HasNode id → ∃ ids, s.arena.subpatterns id = .ok ids
  concretePatterns : ∀ list, s.arena.HasList list → ∃ ids, s.arena.concretePatterns list = .ok ids
  render : ∀ list, s.arena.HasList list → s.arena.render list ≠ .error .dangling

/-- In a sound session nothing looks at an id that is out of range. -/
theorem Sound.safe (h : Sound s) : Safe s where
  build file := by
    obtain ⟨answer, b, hrun, -⟩ := Grammar.build_ok file s.arena
    exact ⟨answer, b, hrun⟩
  entries g hg repository hr := by
    obtain ⟨answer, b, hrun, -⟩ := h.entries hg hr
    exact ⟨answer, b, hrun⟩
  self g hg root := by
    obtain ⟨answer, b, hrun, -⟩ := h.self hg root
    exact ⟨answer, b, hrun⟩
  own g hg := by
    obtain ⟨answer, b, hrun, -⟩ := h.own hg
    exact ⟨answer, b, hrun⟩
  between gs base hnd hgs := by
    obtain ⟨answer, b, hrun, -⟩ := h.between hnd hgs base
    exact ⟨answer, b, hrun⟩
  link config files := by
    obtain ⟨answer, b, hrun, -⟩ := Linker.link_ok config files h.closed h.nested
    exact ⟨answer, b, hrun⟩
  copy g hg := by
    rcases Grammar.copy_cases h.closed (h.nested.finiteChains h.closed) (h.held g hg) with hfault | ⟨copy, b, -, hrun, -⟩
    · exact .inr hfault
    · exact .inl ⟨copy, b, hrun⟩
  isGrounded list hl := by
    obtain ⟨grounded, hrun, -⟩ := h.closed.isGrounded_ok hl
    exact ⟨grounded, hrun⟩
  lookup id hid name := lookup_ok (h.nested.finiteChains h.closed) hid name
  subpatterns id hid := h.closed.subpatterns_ok hid
  concretePatterns list hl := h.closed.concretePatterns_ok hl
  render list hl := h.closed.render_ne_dangling hl

/-- After any calls all ids that are stored are in range, registered ids are those of includes, and no call looks at an id that is out of
range. -/
theorem Called.inRange (h : Called AnyList s) : s.arena.Closed ∧
    (∀ g ∈ s.grammars, g.HeldBy s.arena ∧ ∀ id ∈ g.registry.includes, s.arena.IsInclude id) ∧ Safe s := by
  have hs := h.sound admits_anyList
  exact ⟨hs.closed, fun g hg => ⟨hs.held g hg, h.listed admits_anyList g hg⟩, hs.safe⟩

/-- In the arena of the ring and of a copy of its first grammar no operation meets an id that dangles. -/
theorem inRange_ring : ∃ s, Called AnyList s ∧ s.grammars.map Grammar.scopeName = ["a", "a", "b"] ∧
    s.arena.nodes.toList.filterMap (fun node => node.inclusion?.map Include.target?) =
      [some ⟨4⟩, some ⟨6⟩, some ⟨4⟩, some ⟨6⟩, some ⟨7⟩, some ⟨10⟩, some ⟨7⟩, some ⟨10⟩] ∧ s.arena.Closed ∧
    (∀ g ∈ s.grammars, g.HeldBy s.arena ∧ ∀ id ∈ g.registry.includes, s.arena.IsInclude id) ∧ Safe s := by
  obtain ⟨s, hs, hnames, htargets⟩ := called_ring AnyList
  exact ⟨s, hs, hnames, htargets, hs.inRange⟩

end Session

end GrammarLinker
