import GrammarLinker.Proofs.InterGrammar.Designation
import GrammarLinker.Proofs.Registry.Build

/-!
# Built grammars

Building a grammar file always answers, and changes nothing of what was there (`Grammar.build_ok`). A grammar that comes out has
its lists and nodes to itself: what was added refers to itself alone, and the registry lists exactly the includes among it. Its
root shows the patterns of the file, and its repository has a list of its own for every entry. All of the file is laid out in what was
added (`Grammar.LaysOut`). Whether or not a grammar comes out, containment is left a forest (`Grammar.build_forest`).
-/

namespace GrammarLinker

open Arena Draft

open Enclosure (innermost)

/-- A grammar shows a file: its root shows the patterns of the file, and its repository, which is outermost, has a list of its own for
every entry, which shows what the entry stands for. -/
structure Grammar.Shows (g : Grammar) (file : GrammarFile) (a : Arena) : Prop where
  scopeName : g.scopeName = file.scopeName
  patterns : a.ShowsAll (some g.repository) file.patterns g.root
  entries : ∃ pairs, a.ShowsEntries g.repository file.repository pairs ∧ (g.root :: pairs.map Prod.snd).Nodup ∧
    a.repository g.repository = .ok { entries := Keyed.ofPairs pairs }

/-- A file is laid out in a region: its entries in the repository of the grammar, which is outermost, and its patterns, within this
repository, in the root. -/
def Grammar.LaysOut (g : Grammar) (file : GrammarFile) (a : Arena) (ρ : Region) (leaf : List Enclosure → String → NodeId → Prop) :
    Prop :=
  ∃ lists items, Enclosure.Opens ⟨g.repository, lists⟩ a ρ [] ∧
    Record.LaysEntries a ρ leaf file.repository [⟨g.repository, lists⟩] lists ∧
    a.Lists ρ g.root items ∧ Record.LaysItems a ρ leaf file.patterns [⟨g.repository, lists⟩] items

/-- A grammar was built from a file, in an arena that became another by it. -/
structure Grammar.BuiltFrom (g : Grammar) (file : GrammarFile) (a b : Arena) : Prop where
  showing : g.Shows file b
  layout : g.LaysOut file b (b.since a) b.Waits
  root : (b.since a).lists g.root
  free : b.FreeIn (b.since a) g.root
  repository : (b.since a).repositories g.repository
  owner : g.registry.owner = g.scopeName
  sound : Sound a ⟨b, g.registry⟩

namespace Grammar

variable {g : Grammar} {file : GrammarFile} {a b : Arena}

theorem Shows.extends (h : g.Shows file a) (hx : a.Extends b) : g.Shows file b := by
  obtain ⟨pairs, hshow, hnd, hr⟩ := h.entries
  exact ⟨h.scopeName, h.patterns.mono hx.node (hx.list g.root), pairs, hshow.extends hx, hnd, hx.repository _ _ hr⟩

theorem BuiltFrom.heldBy (h : g.BuiltFrom file a b) : g.HeldBy b :=
  ⟨h.root.2, h.repository.2, fun id hid => (h.sound.registered id hid).1.2⟩

/-- What is built for a grammar is closed, and the grammar lies in it. -/
theorem BuiltFrom.liesIn (h : g.BuiltFrom file a b) : g.LiesIn (b.since a) :=
  ⟨h.root, h.repository, fun id hid => (h.sound.registered id hid).1⟩

/-- What waits in it is registered by the grammar. -/
theorem BuiltFrom.registered_of_pending (h : g.BuiltFrom file a b) {id : NodeId} (hid : (b.since a).nodes id)
    (hp : (b.pending? id).isSome = true) : id ∈ g.registry.includes := by
  by_contra hno
  obtain ⟨node, hn, hrule⟩ := h.sound.complete id hid hno
  obtain ⟨reference, hp⟩ := Option.isSome_iff_exists.1 hp
  rw [pending?_of_node hn] at hp
  exact Bool.false_ne_true ((Node.isRule_of_pending hp).symm.trans hrule)

/-- The registry of a grammar has exactly the includes among what was added that wait. -/
theorem BuiltFrom.mem_includes (h : g.BuiltFrom file a b) {id : NodeId} :
    id ∈ g.registry.includes ↔ (b.since a).nodes id ∧ (b.pending? id).isSome = true := by
  refine ⟨fun hid => ?_, fun hid => h.registered_of_pending hid.1 hid.2⟩
  obtain ⟨hnew, node, hn, text, declared, reference, hb, -⟩ := h.sound.registered id hid
  refine ⟨hnew, Option.isSome_iff_exists.2 ⟨reference, ?_⟩⟩
  rw [pending?_of_node hn, Node.pending?_eq_some]
  exact ⟨text, declared, hb⟩

/-- A file is built into a draft of its own, its repository before its patterns. -/
theorem runs_file (file : GrammarFile) (a : Arena) :
    Runs a a.region (do
      let repository ← Registry.buildRepository file.repository none
      let root ← Registry.build file.patterns (some repository) none
      return (repository, root)) { arena := a, registry := { owner := file.scopeName } } fun value d' =>
        BuiltFrom ⟨file.scopeName, file.name, value.2, value.1, d'.registry⟩ file a d'.arena := by
  have hd := sound_start a file.scopeName
  have hrepository := runs_buildRepository (builds_all.2.1 file.repository) hd fun p hp => nomatch (hp : none = some p)
  refine hrepository.bind fun repository d₁ hs₁ ⟨pairs, ho⟩ => ?_
  have hd₁ := hs₁.sound hd
  have harg : Draft.Within a d₁.arena.region d₁ (some repository) none :=
    ⟨hd₁, .refl _, fun r hr => Option.some.inj hr ▸ ho.added, nofun⟩
  have hbuild := runs_listed hd₁ (builds_all.2.2 file.patterns (some repository) none a _ d₁ harg)
  refine (hbuild.steps.weaken hd₁.grows.within).bind fun root d₂ hs₂ ⟨⟨items, hl⟩, hs⟩ => ?_
  have hx : d₁.arena.Extends d₂.arena := hs.keeps.extends (.refl _)
  have hread := hx.repository _ _ ho.read
  have hroots : (root :: pairs.map Prod.snd).Nodup := by
    refine List.nodup_cons.2 ⟨?_, ho.distinct⟩
    intro hmem
    obtain ⟨p, hp, hroot⟩ := List.mem_map.1 hmem
    exact hl.added.1 (hroot ▸ ho.showing.hasList p hp)
  have hrep : (d₂.added a).repositories repository := ⟨ho.added.1, hx.hasRepository ho.added.2⟩
  have hroot : (d₂.added a).lists root := ⟨fun h => hl.added.1 (hd₁.grows.hasList h), hl.added.2⟩
  have hk := keeps_of_extends (ω := d₁.added a) hx
  refine runs_pure ⟨⟨rfl, ⟨items, hl.read, hl.showing⟩, pairs, ho.showing.extends hx, hroots, hread⟩,
    ⟨pairs, items, ⟨hrep, hread⟩, ?_, ⟨hroot, hl.read⟩, ?_⟩, hroot, hl.free, hrep, hs₂.owner.trans hs₁.owner, hs₂.sound hd₁⟩
  · exact (ho.layout _ rfl).imp (relays_of_keeps hk (hk.within a)) trivial
  · exact (hl.layout _ rfl).imp (relays_of_keeps (.refl _ _) (since_within hd₁.grows.within)) trivial

/-- A grammar has the root and the repository that are built for it, and the registry of the draft that they are built in. -/
theorem start_build (file : GrammarFile) (a : Arena) :
    (build file).start a = ((do
        let repository ← Registry.buildRepository file.repository none
        let root ← Registry.build file.patterns (some repository) none
        return (repository, root)).start { arena := a, registry := { owner := file.scopeName } }).map
      fun (p : Except LinkError (RepositoryId × ListId) × Draft) =>
        (p.1.map fun (value : RepositoryId × ListId) => ⟨file.scopeName, file.name, value.2, value.1, p.2.registry⟩, p.2.arena) := by
  unfold build drafting
  rw [LinkM.start_bind, LinkM.start_ofRun]
  generalize LinkM.start _ _ = outcome
  cases outcome with
  | error fault => rfl
  | ok p =>
    obtain ⟨answer, d⟩ := p
    cases answer <;> rfl

/-- Building a file answers and leaves alone what was there. A grammar that comes out was built from the file, and an error blames
the grammar of the file. -/
theorem build_ok (file : GrammarFile) (a : Arena) : ∃ answer b, (build file).start a = .ok (answer, b) ∧ a.Extends b ∧
    (a.Closed → b.Closed) ∧ (a.Nested → b.Nested) ∧ (∀ g, answer = .ok g → g.BuiltFrom file a b) ∧
    (∀ e, answer = .error e → e.scopes = [file.scopeName]) ∧ (a.KeyedIn a.region → b.KeyedIn b.region) := by
  obtain ⟨answer, d, hrun, hs, hq, he⟩ := runs_file file a
  have hd := hs.sound (sound_start a file.scopeName)
  rw [start_build, hrun]
  refine ⟨_, d.arena, rfl, hd.grows, fun h => h.of_since hd.grows hd.closed, hd.nested, fun g hg => ?_, fun e h => ?_,
    fun h => h.of_since hd.grows hd.keyed⟩
  · cases answer with
    | error e => cases hg
    | ok value => cases hg; exact hq value rfl
  · cases answer with
    | error e =>
      cases h
      obtain ⟨malformed, rfl⟩ := he e rfl
      rfl
    | ok value => cases h

/-- No grammar comes out only for a malformed reference. -/
theorem build_malformed {file : GrammarFile} {e : LinkError} (hrun : (build file).start a = .ok (.error e, b)) :
    ∃ malformed, e = .malformedReference file.scopeName malformed := by
  obtain ⟨answer, d, hrun', -, -, he⟩ := runs_file file a
  rw [start_build, hrun'] at hrun
  cases answer with
  | error e' =>
    cases hrun
    exact he e rfl
  | ok value => cases hrun

/-- What was built is as it should be, whether or not a grammar comes out. -/
theorem build_sound {file : GrammarFile} {answer : Except LinkError Grammar} (hrun : (build file).start a = .ok (answer, b)) :
    ∃ registry, Draft.Sound a ⟨b, registry⟩ := by
  obtain ⟨_, d, hrun', hs, -⟩ := runs_file file a
  rw [start_build, hrun'] at hrun
  obtain ⟨-, rfl⟩ := Prod.mk.inj (Except.ok.inj hrun)
  exact ⟨d.registry, hs.sound (sound_start a file.scopeName)⟩

end Grammar

end GrammarLinker
