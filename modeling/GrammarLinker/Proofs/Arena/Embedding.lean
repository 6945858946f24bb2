import GrammarLinker.Proofs.Arena.Reach
import GrammarLinker.Proofs.Keyed
import GrammarLinker.Proofs.Resolution.Change

/-!
# Parts of arenas under other ids

A part of one arena may stand in another one under other ids (`Arena.Embeds`): a copy of it does, and so does what is built again
somewhere else. Whatever is read from the part is read from the other one too, with the ids that are new: a chain of enclosing
repositories is a chain of theirs (`Arena.Embeds.chain`), and so a name that is found stands for the same list (`Arena.Embeds.lookup`).
-/

namespace GrammarLinker

open Arena

/-! ## Renaming -/

/-- New ids for objects. -/
structure Renaming where
  node : NodeId → NodeId
  list : ListId → ListId
  repository : RepositoryId → RepositoryId

/-- What a node is, with other ids. The text and the state of an include stay the same. -/
def NodeBody.rename (φ : Renaming) : NodeBody → NodeBody
  | .rule children => .rule (φ.list children)
  | .inclusion ⟨text, declared, .resolved target⟩ =>
    .inclusion ⟨text, declared.map φ.repository, .resolved (φ.list target)⟩
  | .inclusion ⟨text, declared, .pending reference⟩ => .inclusion ⟨text, declared.map φ.repository, .pending reference⟩

/-- An include with other ids. -/
def Include.rename (φ : Renaming) : Include → Include
  | ⟨text, declared, .resolved target⟩ => ⟨text, declared.map φ.repository, .resolved (φ.list target)⟩
  | ⟨text, declared, .pending reference⟩ => ⟨text, declared.map φ.repository, .pending reference⟩

/-- An include with other ids is an include. -/
theorem NodeBody.rename_inclusion (φ : Renaming) (i : Include) :
    (NodeBody.inclusion i).rename φ = .inclusion (i.rename φ) := by
  obtain ⟨text, declared, state⟩ := i
  cases state <;> rfl

/-- Other ids leave the text of an include. -/
@[simp] theorem Include.reference_rename (φ : Renaming) (i : Include) : (i.rename φ).reference = i.reference := by
  obtain ⟨text, declared, state⟩ := i
  cases state <;> rfl

/-- Other ids leave the kind of an include. -/
@[simp] theorem Include.kind_rename (φ : Renaming) (i : Include) : (i.rename φ).kind = i.kind := by
  obtain ⟨text, declared, state⟩ := i
  cases state <;> rfl

/-- The target of an include gets its other id. -/
@[simp] theorem Include.target?_rename (φ : Renaming) (i : Include) : (i.rename φ).target? = i.target?.map φ.list := by
  obtain ⟨text, declared, state⟩ := i
  cases state <;> rfl

/-- A repository with other ids. -/
def Repository.rename (φ : Renaming) (r : Repository) : Repository where
  entries := r.entries.map fun entry => (entry.1, φ.list entry.2)
  parent := r.parent.map φ.repository

/-- A node that waits goes on waiting for the same reference under another id. -/
theorem NodeBody.pending?_rename (φ : Renaming) (node : Node) (parent : Option NodeId) :
    ({ name := node.name, rule := node.rule, parent, body := node.body.rename φ } : Node).pending? = node.pending? := by
  obtain ⟨name, rule, _, body⟩ := node
  cases body with
  | rule children => rfl
  | inclusion i =>
    obtain ⟨text, declared, state⟩ := i
    cases state <;> rfl

/-- Other ids make no rule and unmake none. -/
theorem NodeBody.isRule_rename (φ : Renaming) (node : Node) (parent : Option NodeId) :
    ({ name := node.name, rule := node.rule, parent, body := node.body.rename φ } : Node).isRule = node.isRule := by
  obtain ⟨name, rule, _, body⟩ := node
  cases body with
  | rule children => rfl
  | inclusion i =>
    obtain ⟨text, declared, state⟩ := i
    cases state <;> rfl

/-! ## Embeddings -/

namespace Arena

/-- The objects of a region stand in another arena under other ids. The parents of nodes may be others. -/
structure Embeds (φ : Renaming) (ρ : Region) (a b : Arena) : Prop where
  node : ∀ id node, a.node id = .ok node → ρ.nodes id → ∃ parent,
    b.node (φ.node id) = .ok { name := node.name, rule := node.rule, parent, body := node.body.rename φ }
  list : ∀ id items, a.list id = .ok items → ρ.lists id → b.list (φ.list id) = .ok (items.map φ.node)
  repository : ∀ id r, a.repository id = .ok r → ρ.repositories id → b.repository (φ.repository id) = .ok (r.rename φ)

variable {φ : Renaming} {ρ : Region} {a b c : Arena}

/-- What stands in an arena stands there when objects are added. -/
theorem Embeds.extends (h : Embeds φ ρ a b) (hx : b.Extends c) : Embeds φ ρ a c := by
  refine ⟨fun id node hn hid => ?_, fun id items hl hid => hx.list _ _ (h.list id items hl hid),
    fun id r hr hid => hx.repository _ _ (h.repository id r hr hid)⟩
  obtain ⟨parent, hb⟩ := h.node id node hn hid
  exact ⟨parent, hx.node _ _ hb⟩

section

variable (h : Embeds φ ρ a b)
include h

/-- What a node waits for it waits for under its new id. -/
theorem Embeds.pending? {id : NodeId} (hid : ρ.nodes id) (ha : a.HasNode id) : b.pending? (φ.node id) = a.pending? id := by
  obtain ⟨node, hn⟩ := ha.node_ok
  obtain ⟨parent, hb⟩ := h.node id node hn hid
  rw [pending?_of_node hb, pending?_of_node hn, NodeBody.pending?_rename]

/-- A node is a rule exactly when it is one under its other id. -/
theorem Embeds.isRule {id : NodeId} (hid : ρ.nodes id) (ha : a.HasNode id) : b.IsRule (φ.node id) ↔ a.IsRule id := by
  obtain ⟨node, hn⟩ := ha.node_ok
  obtain ⟨parent, hb⟩ := h.node id node hn hid
  simp only [IsRule, hb, hn, Except.ok.injEq, exists_eq_left', NodeBody.isRule_rename]

/-- An include stands for the list with the new id. -/
theorem Embeds.standsFor {id : NodeId} (hid : ρ.nodes id) (ha : a.HasNode id) {list : ListId} :
    b.StandsFor (φ.node id) list ↔ ∃ t, a.StandsFor id t ∧ φ.list t = list := by
  obtain ⟨⟨name, rule, parent, body⟩, hn⟩ := ha.node_ok
  obtain ⟨parent', hb⟩ := h.node id _ hn hid
  simp only [StandsFor, inclusion_of_node hb, inclusion_of_node hn, Except.ok.injEq]
  cases body with
  | rule children => simp [Node.inclusion?, NodeBody.rename]
  | inclusion i =>
    obtain ⟨text, declared, state⟩ := i
    cases state <;> simp [Node.inclusion?, NodeBody.rename, Include.target?, IncludeState.target?]

/-- A pending include was declared in the repository with the new id. -/
theorem Embeds.inclusion_pending_iff {id : NodeId} (hid : ρ.nodes id) (ha : a.HasNode id) {text : String}
    {declared : Option RepositoryId} {reference : Reference} :
    b.inclusion (φ.node id) = .ok (some ⟨text, declared, .pending reference⟩) ↔
      ∃ old, a.inclusion id = .ok (some ⟨text, old, .pending reference⟩) ∧ old.map φ.repository = declared := by
  obtain ⟨⟨name, rule, parent, body⟩, hn⟩ := ha.node_ok
  obtain ⟨parent', hb⟩ := h.node id _ hn hid
  rw [inclusion_of_node hb, inclusion_of_node hn]
  cases body with
  | rule children => simp [Node.inclusion?, NodeBody.rename]
  | inclusion i =>
    obtain ⟨text', declared', state⟩ := i
    cases state with
    | resolved target => simp [Node.inclusion?, NodeBody.rename]
    | pending waits => simp [Node.inclusion?, NodeBody.rename, and_assoc, and_comm]

/-! ### Lookup -/

variable (hstays : a.StaysIn ρ)
include hstays

/-- The chain of a repository becomes the chain of the one with the new id. -/
theorem Embeds.chain {start : Option RepositoryId} {ids : List RepositoryId} (hc : a.Chain start ids)
    (hstart : ∀ r, start = some r → ρ.repositories r) :
    b.Chain (start.map φ.repository) (ids.map φ.repository) ∧ ∀ id ∈ ids, ρ.repositories id := by
  induction hc with
  | outermost => exact ⟨.outermost, fun _ hid => absurd hid List.not_mem_nil⟩
  | @enclosed id r outer hr _ ih =>
    have hid := hstart id rfl
    obtain ⟨hchain, hall⟩ := ih (hstays.repository id r hr hid).1
    refine ⟨.enclosed (h.repository id r hr hid) hchain, fun m hm => ?_⟩
    rcases List.mem_cons.1 hm with rfl | hm
    · exact hid
    · exact hall m hm

omit hstays in
/-- An entry is found under the other id of its repository. -/
theorem Embeds.entry? {id : RepositoryId} (hid : ρ.repositories id) (ha : a.HasRepository id) (name : String) :
    b.entry? name (φ.repository id) = (a.entry? name id).map φ.list := by
  obtain ⟨r, hr⟩ := ha.repository_ok
  rw [entry?_of_repository (h.repository id r hr hid), entry?_of_repository hr]
  exact Keyed.find?_map φ.list name r.entries

/-- A lookup finds the list with the new id. -/
theorem Embeds.lookup (hf : a.FiniteIn ρ) {id : RepositoryId} (hid : ρ.repositories id) {name : String} {found : Option ListId}
    (hl : a.lookup id name = .ok found) : b.lookup (φ.repository id) name = .ok (found.map φ.list) := by
  obtain ⟨ids, hc⟩ := hf id hid
  obtain ⟨hchain, hall⟩ := h.chain hstays hc fun r hr => Option.some.inj hr ▸ hid
  rw [hc.lookup_eq, Except.ok.injEq] at hl
  rw [hchain.lookup_eq, ← hl, Except.ok.injEq]
  have hhas := hc.hasRepository
  clear hc hchain hl hid
  induction ids with
  | nil => rfl
  | cons r rest ih =>
    rw [List.map_cons, List.findSome?_cons, List.findSome?_cons,
      h.entry? (hall r List.mem_cons_self) (hhas r List.mem_cons_self)]
    cases a.entry? name r with
    | some list => rfl
    | none =>
      exact ih (fun m hm => hall m (List.mem_cons_of_mem _ hm)) fun m hm => hhas m (List.mem_cons_of_mem _ hm)

/-! ### Lists -/

/-- A list is solid under its new id when it was so. -/
theorem Embeds.solid (hρa : ρ.Within a.region) {list : ListId} (hl : ρ.lists list) : b.Solid (φ.list list) ↔ a.Solid list := by
  obtain ⟨items, hitems⟩ := (hρa.lists list hl).list_ok
  have hall := hstays.list list items hitems hl
  have hrule : (∃ id ∈ items.map φ.node, b.IsRule id) ↔ ∃ id ∈ items, a.IsRule id := by
    simp only [List.mem_map, exists_exists_and_eq_and]
    exact exists_congr fun id => and_congr_right fun hid => h.isRule (hall id hid) (hρa.nodes id (hall id hid))
  simp only [Solid, h.list list items hitems hl, hitems, Except.ok.injEq, exists_eq_left', List.map_eq_nil_iff, hrule]

end

end Arena

end GrammarLinker
