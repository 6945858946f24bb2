import GrammarLinker.Proofs.Copy.Isomorphism
import GrammarLinker.Proofs.InterGrammar.Order
import GrammarLinker.Proofs.LinkedSet.Link

/-!
# Sessions

A session is an arena with the grammars that were made in it. It starts empty and goes on by anything that can be done with an
arena: grammars are built, resolved, copied and linked (`Session.Action`), and between these calls objects are added and written, where
the ids that are written are those of objects that are there (`Session.Step`). Every session that is reached is sound
(`Session.Reachable.sound`): its arena is one in which each set of its grammars can be resolved. So the order of the grammars does not
matter in any of them (`Session.resolve_order`).

Resolving `$self` takes a root. Which lists may be passed for it is left open (`Session.Admits`): any list that is there, or the roots
of grammars alone.
-/

namespace GrammarLinker

open Arena InterGrammar

/-- An arena with the grammars that were made in it. -/
structure Session where
  arena : Arena := {}
  grammars : List Grammar := []

namespace Session

/-- A list of the arena. -/
def AnyList (s : Session) (list : ListId) : Prop := s.arena.HasList list

/-- The root of a grammar that was made. -/
def IsRoot (s : Session) (list : ListId) : Prop := ∃ g ∈ s.grammars, g.root = list

/-- What is built, resolved and copied by itself. -/
inductive Move (roots : Session → ListId → Prop) (s : Session) : Session → Prop where
  | built {file : GrammarFile} {g : Grammar} {b : Arena} (h : (Grammar.build file).start s.arena = .ok (.ok g, b)) :
      Move roots s ⟨b, g :: s.grammars⟩
  | unbuilt {file : GrammarFile} {e : LinkError} {b : Arena} (h : (Grammar.build file).start s.arena = .ok (.error e, b)) :
      Move roots s { s with arena := b }
  | entries {g : Grammar} {repository : RepositoryId} {answer : Except LinkError Nat} {b : Arena} (hg : g ∈ s.grammars)
      (hr : s.arena.HasRepository repository) (h : (g.registry.resolveEntries repository).start s.arena = .ok (answer, b)) :
      Move roots s { s with arena := b }
  | self {g : Grammar} {root : ListId} {answer : Except LinkError Nat} {b : Arena} (hg : g ∈ s.grammars) (hroot : roots s root)
      (h : (g.registry.resolveSelf root).start s.arena = .ok (answer, b)) : Move roots s { s with arena := b }
  | between {gs : List Grammar} {base : Option String} {answer : Except LinkError Report} {b : Arena} (hnd : gs.Nodup)
      (hgs : ∀ g ∈ gs, g ∈ s.grammars) (h : (resolve gs base).start s.arena = .ok (answer, b)) : Move roots s { s with arena := b }
  | copied {g copy : Grammar} {b : Arena} (hg : g ∈ s.grammars) (h : g.copy s.arena = .ok (copy, b)) :
      Move roots s ⟨b, copy :: s.grammars⟩

/-- Moves one after the other. -/
abbrev Moves (roots : Session → ListId → Prop) : Session → Session → Prop := Relation.ReflTransGen (Move roots)

/-- What can be called in a session. -/
inductive Action (roots : Session → ListId → Prop) (s : Session) : Session → Prop where
  | move {t : Session} (h : Move roots s t) : Action roots s t
  | own {g : Grammar} {answer : Except LinkError Unit} {b : Arena} (hg : g ∈ s.grammars)
      (h : g.resolveLocal.start s.arena = .ok (answer, b)) : Action roots s { s with arena := b }
  | linked {config : LinkConfig} {files : List GrammarFile} {set : LinkedSet} {b : Arena}
      (h : (Linker.link config files).start s.arena = .ok (.ok set, b)) : Action roots s ⟨b, set.grammars ++ s.grammars⟩
  | unlinked {config : LinkConfig} {files : List GrammarFile} {e : LinkError} {b : Arena}
      (h : (Linker.link config files).start s.arena = .ok (.error e, b)) : Action roots s { s with arena := b }

/-- The sessions that calls lead to from an empty arena. -/
inductive Called (roots : Session → ListId → Prop) : Session → Prop where
  | empty : Called roots {}
  | call {s t : Session} (h : Called roots s) (hc : Action roots s t) : Called roots t

/-- Calls one after the other. -/
abbrev Actions (roots : Session → ListId → Prop) : Session → Session → Prop := Relation.ReflTransGen (Action roots)

/-- What can be done in a session: calls are made, and objects are added and written. -/
inductive Step (s : Session) : Session → Prop where
  | call {t : Session} (hc : Action AnyList s t) : Step s t
  | allocNode {node : Node} (h : node.RefersInto s.arena.region) : Step s { s with arena := (s.arena.allocNode node).2 }
  | allocList {items : List NodeId} (h : ∀ item ∈ items, s.arena.HasNode item) :
      Step s { s with arena := (s.arena.allocList items).2 }
  | allocRepository {parent : Option RepositoryId} (h : ∀ p, parent = some p → s.arena.HasRepository p) :
      Step s { s with arena := (s.arena.allocRepository parent).2 }
  | setNode {id : NodeId} {node : Node} {b : Arena} (h : node.RefersInto s.arena.region)
      (hb : s.arena.setNode id node = .ok b) : Step s { s with arena := b }
  | setList {id : ListId} {items : List NodeId} {b : Arena} (h : ∀ item ∈ items, s.arena.HasNode item)
      (hb : s.arena.setList id items = .ok b) : Step s { s with arena := b }
  | insertEntry {id : RepositoryId} {key : String} {list : ListId} {b : Arena} (h : s.arena.HasList list)
      (hb : s.arena.insertEntry id key list = .ok b) : Step s { s with arena := b }

/-- The sessions that are reached from an empty one. -/
inductive Reachable : Session → Prop where
  | empty : Reachable {}
  | step {s t : Session} (h : Reachable s) (hs : Step s t) : Reachable t

/-! ## Sound sessions -/

/-- In a sound session every set of grammars can be resolved. -/
structure Sound (s : Session) : Prop where
  closed : s.arena.Closed
  nested : s.arena.Nested
  held : ∀ g ∈ s.grammars, g.HeldBy s.arena
  nodup : ∀ g ∈ s.grammars, g.registry.includes.Nodup
  apart : s.grammars.Pairwise Apart

/-- Lists may be passed for roots, the roots of grammars among them. -/
structure Admits (roots : Session → ListId → Prop) : Prop where
  own : ∀ s, Sound s → ∀ g ∈ s.grammars, roots s g.root
  hasList : ∀ s, Sound s → ∀ list, roots s list → s.arena.HasList list

/-- Any list may be passed as a root. -/
theorem admits_anyList : Admits AnyList :=
  ⟨fun _ h g hg => (h.held g hg).root, fun _ _ _ hl => hl⟩

/-- The roots of grammars may be passed as roots. -/
theorem admits_isRoot : Admits IsRoot := by
  refine ⟨fun _ _ g hg => ⟨g, hg, rfl⟩, ?_⟩
  rintro s h list ⟨g, hg, rfl⟩
  exact (h.held g hg).root

variable {roots : Session → ListId → Prop} {s t : Session}

/-- The arena may be replaced by one that is as good and holds what the grammars refer to. -/
theorem Sound.with_arena (h : Sound s) {b : Arena} (hc : b.Closed) (hn : b.Nested)
    (hheld : ∀ g ∈ s.grammars, g.HeldBy s.arena → g.HeldBy b) : Sound { s with arena := b } :=
  ⟨hc, hn, fun g hg => hheld g hg (h.held g hg), h.nodup, h.apart⟩

/-- Grammars of a sound session, each taken once, can be resolved. -/
theorem Sound.ready (h : Sound s) {gs : List Grammar} (hnd : gs.Nodup) (hgs : ∀ g ∈ gs, g ∈ s.grammars) :
    Ready gs s.arena :=
  ⟨h.closed, h.nested.finiteChains h.closed, fun g hg => h.held g (hgs g hg),
    hnd.pairwise_of_forall_ne fun _ hg _ hk hne => h.apart.forall (hgs _ hg) (hgs _ hk) hne⟩

/-- Grammars of a sound session, each taken once, register no include twice. -/
theorem Sound.nodup_sites (h : Sound s) {gs : List Grammar} (hnd : gs.Nodup) (hgs : ∀ g ∈ gs, g ∈ s.grammars) :
    ((sites gs).map Prod.snd).Nodup :=
  InterGrammar.nodup_sites (h.ready hnd hgs).disjoint fun g hg => h.nodup g (hgs g hg)

/-- Grammars may be added whose includes are new and that share none. -/
theorem Sound.add (h : Sound s) {b : Arena} {gs : List Grammar} (hc : b.Closed) (hn : b.Nested)
    (hheld : ∀ g ∈ s.grammars, g.HeldBy s.arena → g.HeldBy b) (hgs : ∀ g ∈ gs, g.HeldBy b)
    (hnd : ∀ g ∈ gs, g.registry.includes.Nodup) (hapart : gs.Pairwise Apart)
    (hnew : ∀ g ∈ gs, ∀ id ∈ g.registry.includes, ¬s.arena.HasNode id) : Sound ⟨b, gs ++ s.grammars⟩ := by
  refine ⟨hc, hn, ?_, ?_, List.pairwise_append.2 ⟨hapart, h.apart, ?_⟩⟩
  · intro g hg
    rcases List.mem_append.1 hg with hg | hg
    · exact hgs g hg
    · exact hheld g hg (h.held g hg)
  · intro g hg
    rcases List.mem_append.1 hg with hg | hg
    · exact hnd g hg
    · exact h.nodup g hg
  · intro g hg k hk id hid hid'
    exact hnew g hg id hid ((h.held k hk).includes id hid')

/-- Resolution leads to a sound session when the arena stays closed. -/
theorem Sound.of_resolvesBy (h : Sound s) {P : NodeId → ListId → Prop} {b : Arena} (hr : ResolvesBy P s.arena b) (hc : b.Closed) :
    Sound { s with arena := b } :=
  h.with_arena hc (hr.nested h.nested) fun _ _ hg => hg.of_resolvesBy hr

section

variable (h : Sound s) {g : Grammar}
include h

/-- Resolving the names of a grammar answers, changes the arena by resolution alone, and keeps it closed. -/
theorem Sound.entries {repository : RepositoryId} (hg : g ∈ s.grammars) (hr : s.arena.HasRepository repository) :
    ∃ answer b, (g.registry.resolveEntries repository).start s.arena = .ok (answer, b) ∧
      ResolvesBy (fun id list => id ∈ g.registry.includes ∧ Registry.Names s.arena repository id list) s.arena b ∧ b.Closed := by
  have hf := (h.nested.finiteChains h.closed).finiteIn (.refl _)
  obtain ⟨answer, b, hrun, hb, -⟩ := g.registry.resolveEntries_ok h.closed hf (.refl _) hr (h.held g hg).includes
  exact ⟨answer, b, hrun, hb, hb.closed h.closed fun _ _ hn => hn.2.hasList h.closed hr⟩

/-- So does resolving its `$self` to a list. -/
theorem Sound.self (hg : g ∈ s.grammars) (root : ListId) :
    ∃ answer b, (g.registry.resolveSelf root).start s.arena = .ok (answer, b) ∧
      ResolvesBy (fun id list => id ∈ g.registry.includes ∧ s.arena.pending? id = some .self ∧ list = root) s.arena b ∧
        (s.arena.HasList root → b.Closed) := by
  obtain ⟨n, b, hrun, hb, -⟩ := g.registry.resolveSelf_ok (h.held g hg).includes root
  exact ⟨.ok n, b, hrun, hb, fun hroot => hb.closed h.closed fun _ _ hl => hl.2.2 ▸ hroot⟩

/-- So does resolving both. -/
theorem Sound.own (hg : g ∈ s.grammars) :
    ∃ answer b, g.resolveLocal.start s.arena = .ok (answer, b) ∧ ResolvesBy (g.Own s.arena) s.arena b ∧ b.Closed := by
  have hf := (h.nested.finiteChains h.closed).finiteIn (.refl _)
  obtain ⟨answer, b, hrun, hb, -⟩ := g.resolveLocal_ok h.closed hf (.refl _) (h.held g hg).liesIn
  exact ⟨answer, b, hrun, hb, hb.closed h.closed fun _ _ ho => ho.hasList h.closed (h.held g hg)⟩

/-- So does resolving the references between grammars. -/
theorem Sound.between {gs : List Grammar} (hnd : gs.Nodup) (hgs : ∀ g ∈ gs, g ∈ s.grammars) (base : Option String) :
    ∃ answer b, (resolve gs base).start s.arena = .ok (answer, b) ∧ ResolvesBy (Earns gs base s.arena) s.arena b ∧ b.Closed := by
  have hready := h.ready hnd hgs
  obtain ⟨answer, b, hrun, he⟩ := resolve_ends hready base
  exact ⟨answer, b, hrun, he.resolvesBy, he.resolvesBy.closed h.closed fun _ _ hl => hready.hasList_of_designates hl.1⟩

end

/-- Copying a grammar leaves alone what was there and adds a copy. -/
theorem Sound.copiedBy (h : Sound s) {g copy : Grammar} {b : Arena} (hg : g ∈ s.grammars) (hrun : g.copy s.arena = .ok (copy, b)) :
    ∃ φ, s.arena.Extends b ∧ (s.arena.Nested → b.Nested) ∧ g.CopiedBy copy s.arena b φ :=
  Grammar.copiedBy_of_copy h.closed (h.nested.finiteChains h.closed) (h.held g hg) hrun

/-- The session in which nothing was called is sound. -/
theorem sound_empty : Sound {} :=
  ⟨closed_empty, fun id _ _ hr => absurd (hasRepository_of_repository hr) (not_hasRepository_empty id), nofun, nofun, .nil⟩

/-! ## What every step keeps -/

section

variable (hadm : Admits roots)
include hadm

/-- A move leads from a sound session to a sound one. -/
theorem Move.sound (hm : Move roots s t) (h : Sound s) : Sound t := by
  cases hm with
  | @built file g b hrun =>
    obtain ⟨hx, hc, hn, hg, -⟩ := LinkM.outcome (Grammar.build_ok file s.arena) hrun
    have hbuilt := hg g rfl
    show Sound ⟨b, [g] ++ s.grammars⟩
    refine h.add (hc h.closed) (hn h.nested) (fun _ _ hk => hk.of_within hx.within) ?_ ?_ (List.pairwise_singleton _ _) ?_
    · exact fun k hk => List.mem_singleton.1 hk ▸ hbuilt.heldBy
    · exact fun k hk => List.mem_singleton.1 hk ▸ hbuilt.sound.nodup
    · exact fun k hk id hid => (hbuilt.sound.registered id (List.mem_singleton.1 hk ▸ hid)).1.1
  | @unbuilt file e b hrun =>
    obtain ⟨hx, hc, hn, -⟩ := LinkM.outcome (Grammar.build_ok file s.arena) hrun
    exact h.with_arena (hc h.closed) (hn h.nested) fun _ _ hk => hk.of_within hx.within
  | @entries g repository answer b hg hr hrun =>
    obtain ⟨hb, hc⟩ := LinkM.outcome (h.entries hg hr) hrun
    exact h.of_resolvesBy hb hc
  | @self g root answer b hg hroot hrun =>
    obtain ⟨hb, hc⟩ := LinkM.outcome (h.self hg root) hrun
    exact h.of_resolvesBy hb (hc (hadm.hasList s h root hroot))
  | between hnd hgs hrun =>
    obtain ⟨hb, hc⟩ := LinkM.outcome (h.between hnd hgs _) hrun
    exact h.of_resolvesBy hb hc
  | @copied g copy b hg hrun =>
    obtain ⟨hc, hn, hw, hheld, hnd, hnew, -⟩ := Grammar.copy_sound h.closed h.nested (h.held g hg) hrun
    show Sound ⟨b, [copy] ++ s.grammars⟩
    refine h.add hc hn (fun _ _ hk => hk.of_within hw) ?_ ?_ (List.pairwise_singleton _ _) ?_
    · exact fun k hk => List.mem_singleton.1 hk ▸ hheld
    · exact fun k hk => List.mem_singleton.1 hk ▸ hnd
    · exact fun k hk id hid => hnew id (List.mem_singleton.1 hk ▸ hid)

/-- So do moves one after the other. -/
theorem Moves.sound (hm : Moves roots s t) (h : Sound s) : Sound t := by
  induction hm with
  | refl => exact h
  | tail _ hm ih => exact hm.sound hadm ih

/-- A call leads from a sound session to a sound one. -/
theorem Action.sound (hc : Action roots s t) (h : Sound s) : Sound t := by
  cases hc with
  | move hm => exact hm.sound hadm h
  | @own g answer b hg hrun =>
    obtain ⟨hb, hc⟩ := LinkM.outcome (h.own hg) hrun
    exact h.of_resolvesBy hb hc
  | @linked config files set b hrun =>
    obtain ⟨hc, hn, hheld, hset, -⟩ := LinkM.outcome (Linker.link_ok config files h.closed h.nested) hrun
    obtain ⟨spans, m, unique, resolved, hl⟩ := hset set rfl
    have hready := hl.ready_set
    refine h.add hc hn (fun k _ hk => hheld k hk) hready.held ?_ hready.disjoint ?_
    · exact fun k hk => hl.nodup k hk
    · exact fun k hk id hid => hl.fresh k hk id hid
  | @unlinked config files e b hrun =>
    obtain ⟨hc, hn, hheld, -⟩ := LinkM.outcome (Linker.link_ok config files h.closed h.nested) hrun
    exact h.with_arena hc hn fun k _ hk => hheld k hk

end

/-- A step leads from a sound session to a sound one. -/
theorem Step.sound (hs : Step s t) (h : Sound s) : Sound t := by
  cases hs with
  | call hc => exact hc.sound admits_anyList h
  | allocNode hn =>
    exact h.with_arena (h.closed.allocNode hn) (h.nested.congr rfl) fun _ _ hg => hg.of_within (extends_allocNode _ _).within
  | allocList hi =>
    exact h.with_arena (h.closed.allocList hi) (h.nested.congr rfl) fun _ _ hg => hg.of_within (extends_allocList _ _).within
  | allocRepository hp =>
    exact h.with_arena (h.closed.allocRepository hp) (h.nested.allocRepository hp)
      fun _ _ hg => hg.of_within (extends_allocRepository _ _).within
  | setNode hn hb =>
    obtain ⟨-, hl, hr, hsize, -⟩ := setNode_eq_ok hb
    have hregion := region_congr hsize (congrArg Array.size hl) (congrArg Array.size hr)
    exact h.with_arena (h.closed.setNode hn hb) (h.nested.congr hr) fun _ _ hg => hg.of_within (hregion ▸ .refl _)
  | setList hi hb =>
    obtain ⟨-, hn, hr, hsize, -⟩ := setList_eq_ok hb
    have hregion := region_congr (congrArg Array.size hn) hsize (congrArg Array.size hr)
    exact h.with_arena (h.closed.setList hi hb) (h.nested.congr hr) fun _ _ hg => hg.of_within (hregion ▸ .refl _)
  | insertEntry hl hb =>
    obtain ⟨hn, hlists, hsize, -⟩ := insertEntry_eq_ok hb
    have hregion := region_congr (congrArg Array.size hn) (congrArg Array.size hlists) hsize
    exact h.with_arena (h.closed.insertEntry hl hb) (h.nested.insertEntry hb) fun _ _ hg => hg.of_within (hregion ▸ .refl _)

/-- Every session that is reached is sound. -/
theorem Reachable.sound (h : Reachable s) : Sound s := by
  induction h with
  | empty => exact sound_empty
  | step _ hs ih => exact hs.sound ih

/-- A session that calls alone lead to is reached. -/
theorem Called.reachable (h : Called AnyList s) : Reachable s := by
  induction h with
  | empty => exact .empty
  | call _ hc ih => exact ih.step (.call hc)

/-- What a move does to the arena: a build or a copy adds to it, or includes are resolved. -/
inductive Effect (s : Session) : Arena → Prop where
  | built {file : GrammarFile} {answer : Except LinkError Grammar} {b : Arena}
      (h : (Grammar.build file).start s.arena = .ok (answer, b)) : Effect s b
  | resolved {P : NodeId → ListId → Prop} {b : Arena} (h : ResolvesBy P s.arena b) : Effect s b
  | copied {g copy : Grammar} {b : Arena} (hg : g ∈ s.grammars) (h : g.copy s.arena = .ok (copy, b)) : Effect s b

/-- A move from a sound session has such an effect. -/
theorem Move.effect (hm : Move roots s t) (h : Sound s) : Effect s t.arena := by
  cases hm with
  | built hrun => exact .built hrun
  | unbuilt hrun => exact .built hrun
  | entries hg hr hrun =>
    obtain ⟨hb, -⟩ := LinkM.outcome (h.entries hg hr) hrun
    exact .resolved hb
  | @self g root answer b hg hroot hrun =>
    obtain ⟨hb, -⟩ := LinkM.outcome (h.self hg root) hrun
    exact .resolved hb
  | @between gs base answer b hnd hgs hrun =>
    obtain ⟨hb, -⟩ := LinkM.outcome (h.between hnd hgs base) hrun
    exact .resolved hb
  | copied hg hrun => exact .copied hg hrun

/-- A move gives no repository a key that it has. -/
theorem Move.keyed (hm : Move roots s t) (h : Sound s) (hk : s.arena.KeyedIn s.arena.region) : t.arena.KeyedIn t.arena.region := by
  cases hm.effect h with
  | @built file answer b hrun =>
    obtain ⟨-, -, -, -, -, hkeyed⟩ := LinkM.outcome (Grammar.build_ok file s.arena) hrun
    exact hkeyed hk
  | resolved hb => exact hb.keyedIn hk
  | copied hg hrun =>
    obtain ⟨-, -, -, -, -, -, hkeyed⟩ := Grammar.copy_sound h.closed h.nested (h.held _ hg) hrun
    exact hkeyed hk

/-- Neither does a call. -/
theorem Action.keyed (hc : Action roots s t) (h : Sound s) (hk : s.arena.KeyedIn s.arena.region) :
    t.arena.KeyedIn t.arena.region := by
  cases hc with
  | move hm => exact hm.keyed h hk
  | own hg hrun =>
    obtain ⟨hb, -⟩ := LinkM.outcome (h.own hg) hrun
    exact hb.keyedIn hk
  | @linked config files set b hrun =>
    obtain ⟨-, -, -, -, hkeyed⟩ := LinkM.outcome (Linker.link_ok config files h.closed h.nested) hrun
    exact hkeyed hk
  | @unlinked config files e b hrun =>
    obtain ⟨-, -, -, -, hkeyed⟩ := LinkM.outcome (Linker.link_ok config files h.closed h.nested) hrun
    exact hkeyed hk

/-- Neither does any step. -/
theorem Step.keyed (hs : Step s t) (h : Sound s) (hk : s.arena.KeyedIn s.arena.region) : t.arena.KeyedIn t.arena.region := by
  have hold : ∀ (ρ : Region) id, s.arena.HasRepository id → ρ.repositories id → s.arena.HasRepository id := fun _ _ hid _ => hid
  cases hs with
  | call hc => exact hc.keyed h hk
  | allocNode => exact hk.congr (hold _) rfl
  | allocList => exact hk.congr (hold _) rfl
  | allocRepository => exact hk.allocRepository (hold _) _
  | setNode hn hb =>
    obtain ⟨-, -, hr, -⟩ := setNode_eq_ok hb
    exact hk.congr (hold _) hr
  | setList hi hb =>
    obtain ⟨-, -, hr, -⟩ := setList_eq_ok hb
    exact hk.congr (hold _) hr
  | insertEntry hl hb => exact hk.insertEntry (hold _) hb

/-- In a session that is reached no repository has a key twice. -/
theorem Reachable.keyed (h : Reachable s) : s.arena.KeyedIn s.arena.region := by
  induction h with
  | empty => exact fun id _ _ hid => absurd hid (not_hasRepository_empty id)
  | step h hs ih => exact hs.keyed h.sound ih

/-! ## The order of the grammars -/

/-- In every session that is reached, the order in which grammars of distinct scope names are listed changes neither the arena in
which a run ends nor, but for the wording, its answer. -/
theorem resolve_order (h : Reachable s) {gs hs : List Grammar} (hgs : ∀ g ∈ gs, g ∈ s.grammars)
    (hnd : (gs.map Grammar.scopeName).Nodup) (hp : gs.Perm hs) (base : Option String) :
    ∃ answer answer' b, (resolve gs base).start s.arena = .ok (answer, b) ∧ (resolve hs base).start s.arena = .ok (answer', b) ∧
      Agree answer answer' := by
  exact resolve_perm (h.sound.ready hnd.of_map hgs) hp hnd (h.sound.nodup_sites hnd.of_map hgs) base

/-- The arena in which the first grammar of the circle was built. -/
def circleFirst : Arena where
  nodes := #[{ body := .inclusion ⟨"b", some ⟨0⟩, .pending (.foreign "b")⟩ }, { body := .rule ⟨0⟩ }]
  lists := #[[], [⟨0⟩, ⟨1⟩]]
  repositories := #[{}]

/-- The circle of two grammars is reached by building them. -/
theorem reachable_circle : Reachable ⟨circle, circleSet.reverse⟩ := by
  have hfirst : (Grammar.build { scopeName := "a", patterns := [.including "b", {}] }).start {} =
      .ok (.ok circleSet[0], circleFirst) := rfl
  have hsecond : (Grammar.build { scopeName := "b", patterns := [.including "a", .including "c"] }).start circleFirst =
      .ok (.ok circleSet[1], circle) := rfl
  exact (Reachable.empty.step (.call (.move (.built hfirst)))).step (.call (.move (.built hsecond)))

/-- Of the circle, which is reached by building, both orders of the two grammars are resolved alike. -/
theorem resolve_order_circle : Reachable ⟨circle, circleSet.reverse⟩ ∧ circleSet.Perm circleSet.reverse ∧
    ∃ answer answer' b, (resolve circleSet none).start circle = .ok (answer, b) ∧
      (resolve circleSet.reverse none).start circle = .ok (answer', b) ∧ Agree answer answer' := by
  have hp : circleSet.Perm circleSet.reverse := (List.reverse_perm _).symm
  exact ⟨reachable_circle, hp, resolve_order reachable_circle (fun g hg => List.mem_reverse.2 hg) (by decide) hp none⟩

end Session

end GrammarLinker
