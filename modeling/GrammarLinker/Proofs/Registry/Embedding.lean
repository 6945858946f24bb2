import GrammarLinker.Proofs.Arena.Embedding
import GrammarLinker.Proofs.Registry.Local

/-!
# Own references under other ids

An include that stands somewhere else refers to the list there that corresponds to the one it referred to: a name is looked up along
the corresponding chains of repositories, first where the include was declared and then in the repository of the grammar
(`Registry.entryTarget_of_embeds`). So an include is read in the one place as it is in the other
(`Grammar.reads_of_embeds`).
-/

namespace GrammarLinker

open Arena

/-- A list that an include refers to when it is read as one of a grammar: by a name, or as the root. -/
def Grammar.Reads (g : Grammar) (a : Arena) (id : NodeId) (list : ListId) : Prop :=
  Registry.Names a g.repository id list ∨ a.pending? id = some .self ∧ list = g.root

theorem Grammar.Reads.pending? {g : Grammar} {a : Arena} {id : NodeId} {list : ListId} (h : g.Reads a id list) :
    (a.pending? id).isSome = true := by
  rcases h with hnames | ⟨hp, -⟩
  · obtain ⟨name, hp⟩ := hnames.pending?
    rw [hp]
    rfl
  · rw [hp]
    rfl

/-- An include is read by the grammar that registers it. -/
theorem Grammar.own_iff {g : Grammar} {a : Arena} {id : NodeId} {list : ListId} :
    g.Own a id list ↔ id ∈ g.registry.includes ∧ g.Reads a id list := Iff.rfl

variable {φ : Renaming} {ρ : Region} {a b : Arena} (h : Embeds φ ρ a b) (hstays : a.StaysIn ρ) (hf : a.FiniteIn ρ)
include h hstays hf

/-- A name denotes the list with the new id. -/
theorem Registry.entryTarget_of_embeds {repository : RepositoryId} (hr : ρ.repositories repository) {declared : Option RepositoryId}
    (hd : ∀ r, declared = some r → ρ.repositories r) {name : String} {found : Option ListId}
    (ht : entryTarget a repository declared name = .ok found) :
    entryTarget b (φ.repository repository) (declared.map φ.repository) name = .ok (found.map φ.list) := by
  cases declared with
  | none => exact h.lookup hstays hf hr ht
  | some inner =>
    obtain ⟨ids, hc⟩ := hf inner (hd inner rfl)
    have hinner := hc.lookup_eq name
    have hinner' := h.lookup hstays hf (hd inner rfl) hinner
    simp only [entryTarget, bind, Except.bind, Option.map_some, hinner] at ht ⊢
    rw [hinner']
    cases hfound : ids.findSome? (a.entry? name) with
    | some list =>
      rw [hfound] at ht
      cases ht
      rfl
    | none =>
      rw [hfound] at ht
      exact h.lookup hstays hf hr ht

variable {id : NodeId} {list : ListId} (hid : ρ.nodes id) (ha : a.HasNode id)
include hid ha

/-- What an include names under its new id is what it names, with the new id. -/
theorem Registry.names_of_embeds {repository : RepositoryId} (hr : ρ.repositories repository) :
    Names b (φ.repository repository) (φ.node id) list ↔ ∃ t, Names a repository id t ∧ φ.list t = list := by
  have hdeclared : ∀ {text declared state}, a.inclusion id = .ok (some ⟨text, declared, state⟩) →
      ∀ r, declared = some r → ρ.repositories r := fun hi _ hd => hstays.repositories_declared hid hi hd
  constructor
  · rintro ⟨text, declared, name, hi, ht⟩
    obtain ⟨old, hold, rfl⟩ := (h.inclusion_pending_iff hid ha).1 hi
    obtain ⟨found, hfound⟩ := entryTarget_ok hf hr (hdeclared hold) name
    rw [entryTarget_of_embeds h hstays hf hr (hdeclared hold) hfound, Except.ok.injEq, Option.map_eq_some_iff] at ht
    obtain ⟨t, rfl, rfl⟩ := ht
    exact ⟨t, ⟨text, old, name, hold, hfound⟩, rfl⟩
  · rintro ⟨t, ⟨text, declared, name, hi, ht⟩, rfl⟩
    exact ⟨text, _, name, (h.inclusion_pending_iff hid ha).2 ⟨declared, hi, rfl⟩, entryTarget_of_embeds h hstays hf hr (hdeclared hi) ht⟩

/-- A name is not found under the new id of the include exactly when it is not found. -/
theorem Registry.misses_of_embeds {repository : RepositoryId} (hr : ρ.repositories repository) {text : String} :
    Misses b (φ.repository repository) (φ.node id) text ↔ Misses a repository id text := by
  constructor
  · rintro ⟨declared, name, hi, ht⟩
    obtain ⟨old, hold, rfl⟩ := (h.inclusion_pending_iff hid ha).1 hi
    have hdeclared : ∀ r, old = some r → ρ.repositories r := fun r hd => hstays.repositories_declared hid hold hd
    obtain ⟨found, hfound⟩ := entryTarget_ok hf hr hdeclared name
    rw [entryTarget_of_embeds h hstays hf hr hdeclared hfound, Except.ok.injEq, Option.map_eq_none_iff] at ht
    exact ⟨old, name, hold, ht ▸ hfound⟩
  · rintro ⟨declared, name, hi, ht⟩
    have hdeclared : ∀ r, declared = some r → ρ.repositories r := fun r hd => hstays.repositories_declared hid hi hd
    exact ⟨_, name, (h.inclusion_pending_iff hid ha).2 ⟨declared, hi, rfl⟩, entryTarget_of_embeds h hstays hf hr hdeclared ht⟩

/-- What an include is read as under its new id is what it is read as by the grammar that corresponds, with the new id. -/
theorem Grammar.reads_of_embeds {g g' : Grammar} (hr : ρ.repositories g.repository) (hroot : g'.root = φ.list g.root)
    (hrep : g'.repository = φ.repository g.repository) :
    g'.Reads b (φ.node id) list ↔ ∃ t, g.Reads a id t ∧ φ.list t = list := by
  rw [Reads, hrep, Registry.names_of_embeds h hstays hf hid ha hr, h.pending? hid ha, hroot]
  constructor
  · rintro (⟨t, hnames, rfl⟩ | ⟨hp, rfl⟩)
    · exact ⟨t, .inl hnames, rfl⟩
    · exact ⟨g.root, .inr ⟨hp, rfl⟩, rfl⟩
  · rintro ⟨t, hnames | ⟨hp, rfl⟩, rfl⟩
    · exact .inl ⟨t, hnames, rfl⟩
    · exact .inr ⟨hp, rfl⟩

end GrammarLinker
