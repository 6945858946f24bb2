import GrammarLinker.Proofs.Grammar.Blueprint
import GrammarLinker.Proofs.LinkedSet.Survivors

/-!
# Files in another order

When files are listed in another order, their grammars are built from the same blueprints somewhere else (`Linker.Arranged`). What is due
in the one arrangement is due in the other, under the ids that correspond (`Linker.Arranged.due`): an include refers to the same list of
its grammar, or denotes the same list in the set, and what supports a list is a chain of such includes. So the same grammars survive
(`Session.link_survivors`).
-/

namespace GrammarLinker

open Arena InterGrammar

namespace Linker

/-- The grammar of a blueprint under the ids that an arrangement gives to its scope. -/
def placed (φ : String → Renaming) (p : Blueprint) : Grammar := p.grammar.rename (φ p.file.scopeName)

/-- Grammars of an arena were built from blueprints: those of a scope stand in it under ids of their own. -/
structure Arranged (parts : List Blueprint) (φ : String → Renaming) (gs : List Grammar) (a : Arena) : Prop where
  mem : ∀ g, g ∈ gs ↔ ∃ p ∈ parts, placed φ p = g
  embeds : ∀ p ∈ parts, Embeds (φ p.file.scopeName) p.arena.region p.arena a
  distinct : ∀ p ∈ parts, ∀ q ∈ parts, ∀ id k, p.arena.HasNode id → q.arena.HasNode k →
    (φ p.file.scopeName).node id = (φ q.file.scopeName).node k → p = q ∧ id = k

variable {policy : FailurePolicy} {files : List GrammarFile} {spans : List Span} {a b : Arena}

/-- A grammar may be built before others. -/
theorem Arranged.cons {p : Blueprint} {parts : List Blueprint} {φ : String → Renaming} {gs : List Grammar}
    (h : Arranged parts φ gs b) (hx : (a.append p.arena).Extends b)
    (hfresh : ∀ q ∈ parts, ∀ id, ¬(a.append p.arena).HasNode ((φ q.file.scopeName).node id))
    (hother : ∀ q ∈ parts, q.file.scopeName ≠ p.file.scopeName) :
    Arranged (p :: parts) (Function.update φ p.file.scopeName a.shift) (p.grammar.rename a.shift :: gs) b := by
  have hp : Function.update φ p.file.scopeName a.shift p.file.scopeName = a.shift := Function.update_self ..
  have hq : ∀ q ∈ parts, Function.update φ p.file.scopeName a.shift q.file.scopeName = φ q.file.scopeName :=
    fun q hq => Function.update_of_ne (hother q hq) ..
  -- an id of `p` lies before those of the others
  have hapart : ∀ q ∈ parts, ∀ id k, p.arena.HasNode id → a.shift.node id ≠ (φ q.file.scopeName).node k :=
    fun q hq id k hid heq => hfresh q hq k (heq ▸ hasNode_append hid)
  refine ⟨fun g => ?_, ?_, ?_⟩
  · rw [List.mem_cons, h.mem, List.exists_mem_cons_iff, placed, hp, eq_comm]
    refine or_congr_right (exists_congr fun q => and_congr_right fun hmem => ?_)
    rw [placed, placed, hq q hmem]
  · refine List.forall_mem_cons.2 ⟨?_, fun q hmem => ?_⟩
    · rw [hp]
      exact (embeds_append a p.arena).extends hx
    · rw [hq q hmem]
      exact h.embeds q hmem
  · refine List.forall_mem_cons.2 ⟨List.forall_mem_cons.2 ⟨?_, ?_⟩, fun q hmem => List.forall_mem_cons.2 ⟨?_, ?_⟩⟩
    · rw [hp]
      exact fun id k _ _ heq => ⟨rfl, shift_node_inj heq⟩
    · intro r hr id k hid _ heq
      rw [hp, hq r hr] at heq
      exact absurd heq (hapart r hr id k hid)
    · intro id k _ hk heq
      rw [hp, hq q hmem] at heq
      exact absurd heq.symm (hapart q hmem k id hk)
    · intro r hr id k hid hk heq
      rw [hq q hmem, hq r hr] at heq
      exact h.distinct q hmem r hr id k hid hk heq

/-- The grammars that were built are those of the blueprints, each under ids of its own. -/
theorem Spans.arranged (h : Spans policy files a spans b) (hnd : (files.map GrammarFile.scopeName).Nodup) :
    ∃ φ, Arranged (files.filterMap Blueprint.of?) φ (spans.map Span.grammar) b ∧
      ∀ p ∈ files.filterMap Blueprint.of?, ∀ id, ¬a.HasNode ((φ p.file.scopeName).node id) := by
  induction h with
  | done a => exact ⟨fun _ => a.shift, ⟨by simp, nofun, nofun⟩, nofun⟩
  | @built file rest g a m b spans h hr ih =>
    obtain ⟨hfile, hnd⟩ := List.nodup_cons.1 hnd
    obtain ⟨φ, hφ, hfresh⟩ := ih hnd
    obtain ⟨p, rfl, rfl, rfl⟩ := Blueprint.of_start h
    have hother : ∀ q ∈ rest.filterMap Blueprint.of?, q.file.scopeName ≠ p.file.scopeName := by
      intro q hq heq
      obtain ⟨file, hf, hof⟩ := List.mem_filterMap.1 hq
      rw [← Blueprint.of?_eq_some.1 hof, ] at hf
      exact hfile (heq ▸ List.mem_map_of_mem hf)
    rw [List.filterMap_cons_some (Blueprint.of?_file p)]
    refine ⟨_, hφ.cons hr.extends hfresh hother, List.forall_mem_cons.2 ⟨?_, fun q hq id => ?_⟩⟩
    · rw [Function.update_self]
      exact a.not_hasNode_shift
    · rw [Function.update_of_ne (hother q hq)]
      exact fun hid => hfresh q hq id ((built_of_start h).1.hasNode hid)
  | @failed file rest e a m b spans hp h hr ih =>
    obtain ⟨φ, hφ, hfresh⟩ := ih (List.nodup_cons.1 hnd).2
    rw [List.filterMap_cons_none (Blueprint.of?_eq_none h)]
    obtain ⟨hx, -⟩ := LinkM.outcome (Grammar.build_ok file a) h
    exact ⟨φ, hφ, fun p hp id hid => hfresh p hp id (hx.hasNode hid)⟩

/-! ## What is due in an arrangement -/

section

variable {parts : List Blueprint} {φ : String → Renaming} {gs : List Grammar} {p : Blueprint} {id : NodeId} {list : ListId}
  (h : Arranged parts φ gs a)
include h

/-- Some of the grammars of an arrangement are an arrangement. -/
theorem Arranged.of_subset {few : List Blueprint} {hs : List Grammar} (hsub : few ⊆ parts)
    (hmem : ∀ g, g ∈ hs ↔ ∃ p ∈ few, placed φ p = g) : Arranged few φ hs a :=
  ⟨hmem, fun p hp => h.embeds p (hsub hp), fun p hp q hq => h.distinct p (hsub hp) q (hsub hq)⟩

variable (hp : p ∈ parts)
include hp

/-- A blueprint that is placed is one of the grammars. -/
theorem Arranged.placed_mem : placed φ p ∈ gs := (h.mem _).2 ⟨p, hp, rfl⟩

/-- An include is registered by the grammar of its blueprint, and by no other one. -/
theorem Arranged.registered {q : Blueprint} (hq : q ∈ parts) (hid : p.arena.HasNode id)
    (hmem : (φ p.file.scopeName).node id ∈ (placed φ q).registry.includes) : q = p ∧ id ∈ p.grammar.registry.includes := by
  obtain ⟨k, hk, heq⟩ := List.mem_map.1 hmem
  obtain ⟨rfl, rfl⟩ := h.distinct p hp q hq id k hid (q.heldBy.includes k hk) heq.symm
  exact ⟨rfl, hk⟩

/-- What an include refers to in its grammar is what it refers to in the blueprint, under another id. -/
theorem Arranged.own_iff (hid : p.arena.HasNode id) : (placed φ p).Own a ((φ p.file.scopeName).node id) list ↔
    ∃ t, p.grammar.Own p.arena id t ∧ (φ p.file.scopeName).list t = list := by
  have hreads : (placed φ p).Reads a ((φ p.file.scopeName).node id) list ↔
      ∃ t, p.grammar.Reads p.arena id t ∧ (φ p.file.scopeName).list t = list :=
    Grammar.reads_of_embeds (h.embeds p hp) p.staysIn p.finiteIn hid hid p.heldBy.repository rfl rfl
  constructor
  · intro ho
    obtain ⟨-, hmem⟩ := h.registered hp hp hid ho.1
    obtain ⟨t, ht, rfl⟩ := hreads.1 ho.2
    exact ⟨t, ⟨hmem, ht⟩, rfl⟩
  · rintro ⟨t, ho, rfl⟩
    exact ⟨List.mem_map_of_mem ho.1, hreads.2 ⟨t, ho.2, rfl⟩⟩

/-- An include refers to the lists of its own grammar that it refers to in its blueprint. -/
theorem Arranged.ownOf_iff (hid : p.arena.HasNode id) : OwnOf gs a ((φ p.file.scopeName).node id) list ↔
    ∃ t, p.grammar.Own p.arena id t ∧ (φ p.file.scopeName).list t = list := by
  rw [← h.own_iff hp hid]
  refine ⟨?_, fun ho => ⟨_, h.placed_mem hp, ho⟩⟩
  rintro ⟨g, hg, ho⟩
  obtain ⟨q, hq, rfl⟩ := (h.mem g).1 hg
  obtain ⟨rfl, -⟩ := h.registered hp hq hid ho.1
  exact ho

/-- An include waits for what it waits for in its blueprint. -/
theorem Arranged.pending? (hid : p.arena.HasNode id) : a.pending? ((φ p.file.scopeName).node id) = p.arena.pending? id :=
  (h.embeds p hp).pending? hid hid

/-- A grammar finds what it names when it does so in the blueprint. -/
theorem Arranged.findsOwn_iff : (placed φ p).FindsOwn a ↔ p.grammar.FindsOwn p.arena := by
  simp only [Grammar.FindsOwn, placed, Grammar.rename, List.forall_mem_map]
  refine forall₂_congr fun id hid => ?_
  have hhas := p.heldBy.includes id hid
  rw [h.pending? hp hhas]
  refine forall₃_congr fun reference _ _ => ?_
  exact (exists_congr fun list => h.own_iff hp hhas).trans ⟨fun ⟨_, t, ho, _⟩ => ⟨t, ho⟩, fun ⟨t, ho⟩ => ⟨_, t, ho, rfl⟩⟩

end

/-! ## Two arrangements -/

section

variable {base : Option String} {parts few : List Blueprint} {φ ψ : String → Renaming} {gs gs' hs hs' : List Grammar} {m m' : Arena}
  {p : Blueprint} {id : NodeId} {list : ListId}
  (h : Arranged parts φ gs m) (h' : Arranged parts ψ gs' m') (hf : Arranged few φ hs m) (hf' : Arranged few ψ hs' m')
  (hsub : few ⊆ parts) (hnd : (hs.map Grammar.scopeName).Nodup) (hnd' : (hs'.map Grammar.scopeName).Nodup)
include hf hf' hnd hnd'

/-- The grammar of a scope name is built from the same blueprint in both arrangements. -/
theorem Arranged.named_transfer {g : Grammar} {scope : String} (hg : named hs scope = some g) :
    ∃ q ∈ few, placed φ q = g ∧ named hs' scope = some (placed ψ q) := by
  obtain ⟨hmem, hscope⟩ := (named_eq_some hnd).1 hg
  obtain ⟨q, hq, rfl⟩ := (hf.mem g).1 hmem
  exact ⟨q, hq, rfl, (named_eq_some hnd').2 ⟨hf'.placed_mem hq, hscope⟩⟩

/-- A reference denotes a list of the same blueprint in both. -/
theorem Arranged.target_transfer (hp : p ∈ few) {reference : Reference}
    (ht : target hs base m (placed φ p) reference = .ok (some list)) :
    ∃ q ∈ few, ∃ t, q.arena.HasList t ∧ (φ q.file.scopeName).list t = list ∧
      target hs' base m' (placed ψ p) reference = .ok (some ((ψ q.file.scopeName).list t)) := by
  have hroot : ∀ {scope}, (named hs scope).map Grammar.root = some list → ∃ q ∈ few, ∃ t, q.arena.HasList t ∧
      (φ q.file.scopeName).list t = list ∧ (named hs' scope).map Grammar.root = some ((ψ q.file.scopeName).list t) := by
    intro scope hl
    obtain ⟨g, hg, rfl⟩ := Option.map_eq_some_iff.1 hl
    obtain ⟨q, hq, rfl, hq'⟩ := hf.named_transfer hf' hnd hnd' hg
    exact ⟨q, hq, q.grammar.root, q.heldBy.root, rfl, by rw [hq']; rfl⟩
  cases reference with
  | entry name => cases ht
  | self => cases ht
  | base =>
    cases base with
    | none => cases ht; exact ⟨p, hp, p.grammar.root, p.heldBy.root, rfl, rfl⟩
    | some scope =>
      obtain ⟨q, hq, t, hhas, hl, hroot'⟩ := hroot (Except.ok.inj ht)
      exact ⟨q, hq, t, hhas, hl, congrArg Except.ok hroot'⟩
  | foreign scope =>
    obtain ⟨q, hq, t, hhas, hl, hroot'⟩ := hroot (Except.ok.inj ht)
    exact ⟨q, hq, t, hhas, hl, congrArg Except.ok hroot'⟩
  | foreignEntry scope name =>
    cases hk : named hs scope with
    | none => simp [target, hk] at ht
    | some g =>
      obtain ⟨q, hq, rfl, hq'⟩ := hf.named_transfer hf' hnd hnd' hk
      obtain ⟨found, hfound⟩ := lookup_ok q.finiteChains q.heldBy.repository name
      have hlm := (hf.embeds q hq).lookup q.staysIn q.finiteIn q.heldBy.repository hfound
      have hlm' := (hf'.embeds q hq).lookup q.staysIn q.finiteIn q.heldBy.repository hfound
      simp only [target, hk] at ht
      obtain ⟨t, rfl, hl⟩ := Option.map_eq_some_iff.1 (Except.ok.inj (hlm.symm.trans ht))
      refine ⟨q, hq, t, q.closed.lists_lookup q.heldBy.repository hfound, hl, ?_⟩
      simp only [target, hq']
      exact hlm'

include h h' hsub

/-- An include denotes a list of the same blueprint in both. -/
theorem Arranged.designates_transfer (hp : p ∈ parts) (hid : p.arena.HasNode id)
    (hd : Designates hs base m ((φ p.file.scopeName).node id) list) :
    ∃ q ∈ parts, ∃ t, q.arena.HasList t ∧ (φ q.file.scopeName).list t = list ∧
      Designates hs' base m' ((ψ p.file.scopeName).node id) ((ψ q.file.scopeName).list t) := by
  obtain ⟨g, hg, hmem, reference, hpending, hcross, ht⟩ := hd
  obtain ⟨r, hr, rfl⟩ := (hf.mem g).1 hg
  obtain ⟨rfl, hreg⟩ := h.registered hp (hsub hr) hid hmem
  obtain ⟨q, hq, t, hhas, hl, ht'⟩ := hf.target_transfer hf' hnd hnd' hr ht
  rw [h.pending? hp hid, ← h'.pending? hp hid] at hpending
  exact ⟨q, hsub hq, t, hhas, hl, placed ψ r, hf'.placed_mem hr, List.mem_map_of_mem hreg, reference, hpending, hcross, ht'⟩

/-- What an include is there to stand for in one arrangement it is there to stand for in another. -/
theorem Arranged.edge_transfer (hp : p ∈ parts) (hid : p.arena.HasNode id)
    (he : Edge gs hs base m ((φ p.file.scopeName).node id) list) :
    ∃ q ∈ parts, ∃ t, q.arena.HasList t ∧ (φ q.file.scopeName).list t = list ∧
      Edge gs' hs' base m' ((ψ p.file.scopeName).node id) ((ψ q.file.scopeName).list t) := by
  rcases he with hs | ho | hd
  · obtain ⟨t, ht, -⟩ := ((h.embeds p hp).standsFor hid hid).1 hs
    exact absurd ht (p.not_standsFor id t)
  · obtain ⟨t, ht, hl⟩ := (h.ownOf_iff hp hid).1 ho
    exact ⟨p, hp, t, ht.hasList p.closed p.heldBy, hl, .inr (.inl ((h'.ownOf_iff hp hid).2 ⟨t, ht, rfl⟩))⟩
  · obtain ⟨q, hq, t, hhas, hl, hd'⟩ := h.designates_transfer h' hf hf' hsub hnd hnd' hp hid hd
    exact ⟨q, hq, t, hhas, hl, .inr (.inr hd')⟩

/-- A list of a blueprint is supported in both. -/
theorem Arranged.supported_transfer (hs : m.Supported (Edge gs hs base m) list) : ∀ p ∈ parts, ∀ t, p.arena.HasList t →
    (φ p.file.scopeName).list t = list → m'.Supported (Edge gs' hs' base m') ((ψ p.file.scopeName).list t) := by
  induction hs with
  | solid hs =>
    rintro p hp t ht rfl
    exact .solid (((h'.embeds p hp).solid p.staysIn (.refl _) ht).2 (((h.embeds p hp).solid p.staysIn (.refl _) ht).1 hs))
  | @through list target items id hl hmem he _ ih =>
    rintro p hp t ht rfl
    obtain ⟨own, hown⟩ := ht.list_ok
    have hitems := (h.embeds p hp).list t own hown ht
    rw [hl, Except.ok.injEq] at hitems
    subst hitems
    obtain ⟨k, hk, rfl⟩ := List.mem_map.1 hmem
    obtain ⟨q, hq, t', ht', rfl, he'⟩ := h.edge_transfer h' hf hf' hsub hnd hnd' hp (p.closed.hasNode_item hown hk) he
    exact .through ((h'.embeds p hp).list t own hown ht) (List.mem_map_of_mem hk) he' (ih q hq t' ht' rfl)

/-- What is due in the one arrangement is due in the other. -/
theorem Arranged.due_transfer (hp : p ∈ parts) (hid : p.arena.HasNode id)
    (hd : Due gs hs base m ((φ p.file.scopeName).node id) list) :
    ∃ t, Due gs' hs' base m' ((ψ p.file.scopeName).node id) t := by
  rcases hd with ho | ⟨hd, hwhy⟩
  · obtain ⟨t, ht, -⟩ := (h.ownOf_iff hp hid).1 ho
    exact ⟨_, .inl ((h'.ownOf_iff hp hid).2 ⟨t, ht, rfl⟩)⟩
  · obtain ⟨q, hq, t, ht, rfl, hd'⟩ := h.designates_transfer h' hf hf' hsub hnd hnd' hp hid hd
    refine ⟨_, .inr ⟨hd', hwhy.imp ?_ fun hs => h.supported_transfer h' hf hf' hsub hnd hnd' hs q hq t ht rfl⟩⟩
    rintro ⟨reference, hpending, hroot⟩
    exact ⟨reference, (h'.pending? hp hid).trans ((h.pending? hp hid).symm.trans hpending), hroot⟩

end

/-! ## Linking -/

variable {base : Option String} {files files' : List GrammarFile} {spans spans' : List Span} {a m n b m' n' b' : Arena}
  {passed passed' : List Grammar} {set set' : LinkedSet}

section

variable (h : Sieved base files a spans m passed n set b) (hc : a.Closed) (hn : a.Nested)
  (hnd : (files.map GrammarFile.scopeName).Nodup)
include h hc hn hnd

/-- The grammars that passed are arranged as all are. -/
theorem Sieved.arranged_passed {parts few : List Blueprint} {φ : String → Renaming}
    (hφ : Arranged parts φ (spans.map Span.grammar) m) (hfew : ∀ p, p ∈ few ↔ p ∈ parts ∧ p.grammar.FindsOwn p.arena) :
    Arranged few φ passed m := by
  refine hφ.of_subset (fun p hp => ((hfew p).1 hp).1) fun g => ?_
  rw [h.mem_passed hc hn hnd, hφ.mem]
  constructor
  · rintro ⟨⟨p, hp, rfl⟩, hfinds⟩
    exact ⟨p, (hfew p).2 ⟨hp, (hφ.findsOwn_iff hp).1 hfinds⟩, rfl⟩
  · rintro ⟨p, hp, rfl⟩
    obtain ⟨hp, hfinds⟩ := (hfew p).1 hp
    exact ⟨⟨p, hp, rfl⟩, (hφ.findsOwn_iff hp).2 hfinds⟩

omit hc hn in
/-- The grammars that pass have distinct scopes. -/
theorem Sieved.nodup_passed : (passed.map Grammar.scopeName).Nodup :=
  (hnd.sublist h.built.scopeNames).sublist (h.localized.sublist.map _)

omit hc hn in
/-- The grammars that come out have distinct scope names. -/
theorem Sieved.nodup_grammars : (set.grammars.map Grammar.scopeName).Nodup := by
  rw [h.grammars]
  exact (h.nodup_passed hnd).sublist (List.filter_sublist.map _)

/-- What survives when files are listed in one order survives when they are listed in another one. -/
theorem Sieved.survives (h' : Sieved base files' a spans' m' passed' n' set' b') (hp : files'.Perm files) {scope : String}
    (hscope : scope ∈ set.grammars.map Grammar.scopeName) : scope ∈ set'.grammars.map Grammar.scopeName := by
  classical
  have hnd' : (files'.map GrammarFile.scopeName).Nodup := (hp.map _).nodup_iff.2 hnd
  have hparts : (files'.filterMap Blueprint.of?).Perm (files.filterMap Blueprint.of?) := hp.filterMap _
  obtain ⟨φ, hφ, -⟩ := h.built.arranged hnd
  obtain ⟨ψ, hψ, -⟩ := h'.built.arranged hnd'
  replace hψ := hψ.of_subset hparts.symm.subset fun g => (hψ.mem g).trans (exists_congr fun p => and_congr_left' hparts.mem_iff)
  obtain ⟨few, hfew⟩ : ∃ few : List Blueprint, ∀ p, p ∈ few ↔ p ∈ files.filterMap Blueprint.of? ∧ p.grammar.FindsOwn p.arena :=
    ⟨(files.filterMap Blueprint.of?).filter fun p => p.grammar.FindsOwn p.arena, by simp⟩
  have hpφ := h.arranged_passed hc hn hnd hφ hfew
  have hpψ := h'.arranged_passed hc hn hnd' hψ hfew
  obtain ⟨g, hg, rfl⟩ := List.mem_map.1 hscope
  obtain ⟨hgs, hfinds, hall⟩ := (h.mem_grammars hc hn hnd).1 hg
  obtain ⟨p, hmem, rfl⟩ := (hφ.mem g).1 hgs
  refine List.mem_map.2 ⟨placed ψ p, (h'.mem_grammars hc hn hnd').2 ⟨hψ.placed_mem hmem, ?_, ?_⟩, rfl⟩
  · exact (hψ.findsOwn_iff hmem).2 ((hφ.findsOwn_iff hmem).1 hfinds)
  · intro id' hid'
    obtain ⟨id, hid, rfl⟩ := List.mem_map.1 hid'
    have hhas := p.heldBy.includes id hid
    refine (hall _ (List.mem_map_of_mem hid)).imp (fun hnone => ?_) fun ⟨list, hd⟩ => ?_
    · exact (hψ.pending? hmem hhas).trans ((hφ.pending? hmem hhas).symm.trans hnone)
    · exact hφ.due_transfer hψ hpφ hpψ (fun q hq => ((hfew q).1 hq).1) (h.nodup_passed hnd) (h'.nodup_passed hnd') hmem
        hhas hd

end

/-- The linked scopes and the dropped ones are the scopes of the files. -/
theorem Accounts.perm {gs : List Grammar} {dropped : List DroppedGrammar} (h : Accounts a files gs dropped) :
    (gs.map Grammar.scopeName ++ dropped.map DroppedGrammar.scope).Perm (files.map GrammarFile.scopeName) := by
  obtain ⟨kept, lost, -, hperm, hkept, hlost⟩ := h
  rw [← map_eq_map_of_forall₂ hkept fun file g hb => hb.names.1.symm, ← map_eq_map_of_forall₂ hlost fun file d hd => hd.1.symm,
    ← List.map_append]
  exact hperm.map _

end Linker

namespace Session

open Linker

/-- In every session that is reached, files of distinct scope names are linked under `dropGrammar` as `Linker.Sieved` says: those
grammars come out that can be built, that find what they name, and that are resolved after the first run between them. In whatever order
the files are listed, the same scopes are linked and the same ones dropped. -/
theorem link_survivors {s : Session} (h : s.Reachable) (base : Option String) {files : List GrammarFile}
    (hnd : (files.map GrammarFile.scopeName).Nodup) :
    ∃ spans m passed n set b, Sieved base files s.arena spans m passed n set b ∧
      ∀ files' : List GrammarFile, files'.Perm files → ∃ set' b',
        (link { baseScope := base, onFailure := .dropGrammar } files').start s.arena = .ok (.ok set', b') ∧
        (set'.grammars.map Grammar.scopeName).Perm (set.grammars.map Grammar.scopeName) ∧
        (set'.dropped.map DroppedGrammar.scope).Perm (set.dropped.map DroppedGrammar.scope) := by
  obtain ⟨spans, m, passed, n, set, b, hset⟩ := link_sieved base hnd h.sound.closed h.sound.nested
  refine ⟨spans, m, passed, n, set, b, hset, fun files' hp => ?_⟩
  have hnd' : (files'.map GrammarFile.scopeName).Nodup := (hp.map _).nodup_iff.2 hnd
  obtain ⟨spans', m', passed', n', set', b', hset'⟩ := link_sieved base hnd' h.sound.closed h.sound.nested
  obtain ⟨_, ⟨⟩, haccounts⟩ := link_accounts hset.linked
  obtain ⟨_, ⟨⟩, haccounts'⟩ := link_accounts hset'.linked
  have hnames : (set'.grammars.map Grammar.scopeName).Perm (set.grammars.map Grammar.scopeName) :=
    (List.perm_ext_iff_of_nodup (hset'.nodup_grammars hnd') (hset.nodup_grammars hnd)).2 fun scope =>
      ⟨hset'.survives h.sound.closed h.sound.nested hnd' hset hp.symm, hset.survives h.sound.closed h.sound.nested hnd hset' hp⟩
  refine ⟨set', b', hset'.linked, hnames, ?_⟩
  have htotal := haccounts'.perm.trans ((hp.map _).trans haccounts.perm.symm)
  exact (List.perm_append_left_iff _).1 (htotal.trans (hnames.symm.append_right _))

/-- Files of which one can be linked. The second has an include of a grammar that is not there, and is dropped after the first run; the
first one includes the second, and is dropped after the next. -/
def cascadeFiles : List GrammarFile :=
  [{ scopeName := "a", patterns := [.including "b"] }, { scopeName := "b", patterns := [.including "missing"] },
    { scopeName := "c", patterns := [.matching "r" "x"] }]

/-- One file names a grammar that is not there, the next one includes it, and only the third one is left, in whatever order. -/
theorem link_survivors_cascade : Reachable {} ∧ (cascadeFiles.map GrammarFile.scopeName).Nodup ∧
    ∃ spans m passed n set b, Sieved none cascadeFiles {} spans m passed n set b ∧
      set.grammars.map Grammar.scopeName = ["c"] ∧ set.dropped.map DroppedGrammar.scope = ["b", "a"] ∧
      ∀ files' : List GrammarFile, files'.Perm cascadeFiles → ∃ set' b',
        (link { onFailure := .dropGrammar } files').start {} = .ok (.ok set', b') ∧
        (set'.grammars.map Grammar.scopeName).Perm (set.grammars.map Grammar.scopeName) ∧
        (set'.dropped.map DroppedGrammar.scope).Perm (set.dropped.map DroppedGrammar.scope) := by
  have hnd : (cascadeFiles.map GrammarFile.scopeName).Nodup := by decide
  obtain ⟨spans, m, passed, n, set, b, hset, hperm⟩ := link_survivors .empty none hnd
  have hscopes : ((link { onFailure := .dropGrammar } cascadeFiles).start {}).map (fun p =>
      p.1.map fun set => (set.grammars.map Grammar.scopeName, set.dropped.map DroppedGrammar.scope)) =
        .ok (.ok (["c"], ["b", "a"])) := by cbv
  have heq : (set.grammars.map Grammar.scopeName, set.dropped.map DroppedGrammar.scope) = _ :=
    Except.ok.inj (Except.ok.inj ((congrArg (Except.map _) hset.linked).symm.trans hscopes))
  obtain ⟨hkept, hdropped⟩ := Prod.mk.inj heq
  exact ⟨.empty, hnd, spans, m, passed, n, set, b, hset, hkept, hdropped, hperm⟩

end Session

end GrammarLinker
