import GrammarLinker.Proofs.Arena.Nesting
import GrammarLinker.Proofs.Copy.Order
import GrammarLinker.Proofs.Session.Calls

/-!
# Containment stays a forest

Building puts every node into one list and gives every rule a list of its own, copying does the same in another order, and resolution
lets includes stand for lists that no rule owns: for roots and for entries of repositories. So after any calls containment is a forest
(`Session.Called.forested`), however many circles the includes form. Lookups go from repositories to earlier ones, and the text of a
list from rules to later nodes, so that both come to an end.
-/

namespace GrammarLinker

open Arena InterGrammar

/-! ## Lists that no rule owns -/

namespace Arena

variable {a b : Arena}

/-- The lists that no rule owns, with all nodes and repositories. -/
def unowned (a : Arena) : Region := ⟨fun _ => True, a.FreeIn a.region, fun _ => True⟩

/-- The entries of repositories are such lists. -/
theorem Forest.refersInto_unowned (hf : a.Forest) (id : RepositoryId) (r : Repository) (hr : a.repository id = .ok r)
    (_ : a.unowned.repositories id) : r.RefersInto a.unowned :=
  ⟨fun _ _ => trivial, fun entry he => hf.entries id r (hasRepository_of_repository hr) hr entry he⟩

end Arena

variable {a b : Arena} {g : Grammar} {gs : List Grammar} {id : NodeId} {list : ListId}

/-- A name denotes a list that no rule owns. -/
theorem Registry.Names.freeIn (hf : a.Forest) {repository : RepositoryId} (h : Registry.Names a repository id list) :
    a.FreeIn a.region list := by
  obtain ⟨text, declared, name, -, ht⟩ := h
  exact Registry.lists_entryTarget (ρ := a.unowned) hf.refersInto_unowned trivial (fun _ _ => trivial) ht

/-- A reference between grammars denotes a root or an entry, so a list that no rule owns. -/
theorem InterGrammar.Designates.freeIn (hf : a.Forest) (hroots : ∀ g ∈ gs, a.FreeIn a.region g.root) {base : Option String}
    (h : Designates gs base a id list) : a.FreeIn a.region list := by
  obtain ⟨g, hg, -, reference, -, -, ht⟩ := h
  have hnamed : ∀ scope, (named gs scope).map Grammar.root = some list → a.FreeIn a.region list := by
    intro scope hl
    obtain ⟨k, hk, rfl⟩ := Option.map_eq_some_iff.1 hl
    exact hroots k (mem_of_named hk)
  cases reference with
  | entry name => cases ht
  | self => cases ht
  | base =>
    cases base with
    | none => exact Option.some.inj (Except.ok.inj ht) ▸ hroots g hg
    | some scope => exact hnamed scope (Except.ok.inj ht)
  | foreign scope => exact hnamed scope (Except.ok.inj ht)
  | foreignEntry scope name =>
    cases hn : named gs scope with
    | none => simp [target, hn] at ht
    | some k =>
      simp only [target, hn] at ht
      exact Arena.lists_lookup (ρ := a.unowned) hf.refersInto_unowned trivial ht

namespace Session

variable {s t : Session}

/-! ## What moves keep -/

/-- Containment is a forest, and no rule owns a root. -/
structure Rooted (s : Session) : Prop where
  forest : s.arena.Forest
  roots : ∀ g ∈ s.grammars, s.arena.FreeIn s.arena.region g.root
  keyed : s.arena.KeyedIn s.arena.region

/-- Resolution to lists that no rule owns keeps it. -/
theorem Rooted.of_resolvesBy (h : Rooted s) {P : NodeId → ListId → Prop} {b : Arena} (hb : ResolvesBy P s.arena b)
    (hP : ∀ id target, P id target → s.arena.FreeIn s.arena.region target) : Rooted { s with arena := b } := by
  refine ⟨hb.forest h.forest hP, fun g hg => ?_, hb.keyedIn h.keyed⟩
  show b.FreeIn b.region g.root
  rw [hb.region_eq]
  exact hb.freeIn.2 (h.roots g hg)

/-- So does a build, whether or not a grammar comes out. -/
theorem Rooted.of_build (h : Rooted s) (hs : Sound s) {file : GrammarFile} {answer : Except LinkError Grammar} {b : Arena}
    (hrun : (Grammar.build file).start s.arena = .ok (answer, b)) : Rooted { s with arena := b } := by
  obtain ⟨registry, hd⟩ := Grammar.build_sound hrun
  exact ⟨h.forest.of_since hd.grows hs.closed hd.closed hd.forest,
    fun g hg => hd.grows.freeIn hd.closed (hs.held g hg).root (h.roots g hg), h.keyed.of_since hd.grows hd.keyed⟩

/-- A move keeps it. -/
theorem Move.rooted (hm : Move IsRoot s t) (hs : Sound s) (h : Rooted s) : Rooted t := by
  cases hm with
  | @built file g b hrun =>
    obtain ⟨hx, -, -, hg, -⟩ := LinkM.outcome (Grammar.build_ok file s.arena) hrun
    have hb := h.of_build hs hrun
    refine ⟨hb.forest, List.forall_mem_cons.2 ⟨?_, hb.roots⟩, hb.keyed⟩
    exact hx.freeIn_since hs.closed (hg g rfl).root (hg g rfl).free
  | unbuilt hrun => exact h.of_build hs hrun
  | @entries g repository answer b hg hr hrun =>
    obtain ⟨hb, -⟩ := LinkM.outcome (hs.entries hg hr) hrun
    exact h.of_resolvesBy hb fun _ _ hn => hn.2.freeIn h.forest
  | @self g root answer b hg hroot hrun =>
    obtain ⟨k, hk, rfl⟩ := hroot
    obtain ⟨hb, -⟩ := LinkM.outcome (hs.self hg k.root) hrun
    exact h.of_resolvesBy hb fun _ _ hl => hl.2.2 ▸ h.roots k hk
  | @between gs base answer b hnd hgs hrun =>
    obtain ⟨hb, -⟩ := LinkM.outcome (hs.between hnd hgs base) hrun
    exact h.of_resolvesBy hb fun _ _ he => he.1.freeIn h.forest fun g hg => h.roots g (hgs g hg)
  | @copied g copy b hg hrun =>
    obtain ⟨hf, hroot, hold⟩ := Grammar.copy_forest hs.closed hs.nested h.keyed (hs.held g hg) h.forest (h.roots g hg) hrun
    obtain ⟨-, -, -, -, -, -, hkeyed⟩ := Grammar.copy_sound hs.closed hs.nested (hs.held g hg) hrun
    refine ⟨hf, List.forall_mem_cons.2 ⟨hroot, fun k hk => hold k.root (hs.held k hk).root (h.roots k hk)⟩, hkeyed h.keyed⟩

theorem Called.rooted (h : Called IsRoot s) : Rooted s := by
  refine Called.induction admits_isRoot (fun s t hs hi hm => hm.rooted hs hi) (fun b gs all hsub hi => ?_) ?_ h
  · exact ⟨hi.forest, fun g hg => hi.roots g (hsub hg), hi.keyed⟩
  · exact ⟨forest_empty, nofun, fun id _ _ hid => absurd hid (not_hasRepository_empty id)⟩

/-! ## Containment in a session -/

/-- The nodes, lists and repositories of a session contain each other as in a forest. -/
structure Forested (s : Session) : Prop where
  /-- A list holds a node once. -/
  once : ∀ list items, s.arena.list list = .ok items → items.Nodup
  /-- One list at most holds a node. -/
  apart : ∀ list list' id, s.arena.Holds list id → s.arena.Holds list' id → list = list'
  /-- One rule at most owns a list. -/
  owner : ∀ list p q, s.arena.Owns p list → s.arena.Owns q list → p = q
  /-- What a rule owns is the root of no grammar, no entry of a repository, and not what an include stands for. -/
  roots : ∀ g ∈ s.grammars, ∀ p, ¬s.arena.Owns p g.root
  entries : ∀ id r, s.arena.repository id = .ok r → ∀ entry ∈ r.entries, ∀ p, ¬s.arena.Owns p entry.2
  targets : ∀ id target, s.arena.StandsFor id target → ∀ p, ¬s.arena.Owns p target
  /-- The children of a rule have it as their parent, and are younger. -/
  children : ∀ p list id, s.arena.Owns p list → s.arena.Holds list id → s.arena.parent? id = some p ∧ p.index < id.index
  /-- What stands in a root or in an entry has no parent. -/
  rootItems : ∀ g ∈ s.grammars, ∀ id, s.arena.Holds g.root id → s.arena.parent? id = none
  entryItems : ∀ id r, s.arena.repository id = .ok r → ∀ entry ∈ r.entries, ∀ item, s.arena.Holds entry.2 item →
    s.arena.parent? item = none
  /-- A repository is younger than the one around it. -/
  enclosing : ∀ id r p, s.arena.repository id = .ok r → r.parent = some p → p.index < id.index

/-- After any calls containment is a forest, every name can be looked up in every repository, and every list has a text. -/
theorem Called.forested (h : Called IsRoot s) : Forested s ∧
    (∀ id, s.arena.HasRepository id → ∀ name, ∃ found, s.arena.lookup id name = .ok found) ∧
    ∀ list, s.arena.HasList list → ∃ text, s.arena.render list = .ok text := by
  have hs := h.sound admits_isRoot
  have hr := h.rooted
  have hf := hr.forest
  have hentry : ∀ id r, s.arena.repository id = .ok r → ∀ entry ∈ r.entries, s.arena.FreeIn s.arena.region entry.2 :=
    fun id r hread => hf.entries id r (hasRepository_of_repository hread) hread
  refine ⟨⟨?_, ?_, ?_, fun g hg => (hr.roots g hg).not_owns, fun id r hread entry he => (hentry id r hread entry he).not_owns, ?_, ?_,
    fun g hg id => hf.parent?_eq_none hs.closed (hr.roots g hg),
    fun id r hread entry he item => hf.parent?_eq_none hs.closed (hentry id r hread entry he), hs.nested⟩,
    fun id hid name => lookup_ok (hs.nested.finiteChains hs.closed) hid name, fun list hl => hf.render_ok hs.closed hl⟩
  · exact fun list items hitems => hf.once list items (hasList_of_list hitems) hitems
  · exact fun list list' id hh hh' => hf.apart list list' id hh.hasList hh'.hasList hh hh'
  · exact fun list p q hp hq => hf.owner list p q hp.hasNode hq.hasNode hp hq
  · exact fun id target hstands => (hf.targets id target hstands.hasNode hstands).not_owns
  · exact fun p list id ho hh => ⟨(hf.parent list id p hh.hasList ho.hasNode hh).2 ho, hf.later list id p hh.hasList ho.hasNode hh ho⟩

/-- The ring, which is linked after a build that fails, and a copy of its first grammar lie in a forest. -/
theorem forested_ring : ∃ s, Called IsRoot s ∧ s.grammars.map Grammar.scopeName = ["a", "a", "b"] ∧
    s.arena.nodes.toList.filterMap (fun node => node.inclusion?.map Include.target?) =
      [some ⟨4⟩, some ⟨6⟩, some ⟨4⟩, some ⟨6⟩, some ⟨7⟩, some ⟨10⟩, some ⟨7⟩, some ⟨10⟩] ∧ Forested s ∧
    (∀ id, s.arena.HasRepository id → ∀ name, ∃ found, s.arena.lookup id name = .ok found) ∧
    ∀ list, s.arena.HasList list → ∃ text, s.arena.render list = .ok text := by
  obtain ⟨s, hs, hnames, htargets⟩ := called_ring IsRoot
  exact ⟨s, hs, hnames, htargets, hs.forested⟩

end Session

end GrammarLinker
