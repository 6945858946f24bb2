import GrammarLinker.Grammar
import GrammarLinker.Proofs.Arena.Closed

/-!
# What a grammar reaches

Objects of an arena refer to others (`Arena.Refers`): a list to its items, a rule to the list of its children, an include to the list
that it stands for and to the repository in which it was declared, a repository to the lists of its entries and to the repository
around it. The parent of a node is for navigation and is not followed.

What a grammar reaches from its root and its repository (`Grammar.Reaches`) is the least region with the two in it that is not left by
following (`Arena.StaysIn`, `Grammar.reach_within`).
-/

namespace GrammarLinker

/-- An object of an arena, by its id. -/
inductive Object where
  | node (id : NodeId)
  | list (id : ListId)
  | repository (id : RepositoryId)

namespace Arena

/-- An object refers to another one. -/
inductive Refers (a : Arena) : Object → Object → Prop where
  | item {list : ListId} {items : List NodeId} {id : NodeId} (hl : a.list list = .ok items) (hid : id ∈ items) :
      Refers a (.list list) (.node id)
  | children {id : NodeId} {node : Node} {children : ListId} (hn : a.node id = .ok node) (hb : node.body = .rule children) :
      Refers a (.node id) (.list children)
  | target {id : NodeId} {node : Node} {i : Include} {target : ListId} (hn : a.node id = .ok node)
      (hb : node.body = .inclusion i) (ht : i.target? = some target) : Refers a (.node id) (.list target)
  | declared {id : NodeId} {node : Node} {i : Include} {repository : RepositoryId} (hn : a.node id = .ok node)
      (hb : node.body = .inclusion i) (hr : i.repository = some repository) : Refers a (.node id) (.repository repository)
  | entry {id : RepositoryId} {r : Repository} {entry : String × ListId} (hr : a.repository id = .ok r)
      (he : entry ∈ r.entries) : Refers a (.repository id) (.list entry.2)
  | enclosing {id outer : RepositoryId} {r : Repository} (hr : a.repository id = .ok r) (hp : r.parent = some outer) :
      Refers a (.repository id) (.repository outer)

end Arena

/-- The objects of a region. -/
def Region.Has (ρ : Region) : Object → Prop
  | .node id => ρ.nodes id
  | .list id => ρ.lists id
  | .repository id => ρ.repositories id

/-- An object that one of the region refers to is in the region. -/
theorem Arena.StaysIn.has {a : Arena} {ρ : Region} (h : a.StaysIn ρ) {o p : Object} (ho : ρ.Has o) (hr : a.Refers o p) :
    ρ.Has p := by
  cases hr with
  | item hl hid => exact h.list _ _ hl ho _ hid
  | children hn hb =>
    have hrefers := h.node _ _ hn ho
    rw [hb] at hrefers
    exact hrefers
  | target hn hb ht =>
    have hrefers := h.node _ _ hn ho
    rw [hb] at hrefers
    exact hrefers.2 _ ht
  | declared hn hb hr =>
    have hrefers := h.node _ _ hn ho
    rw [hb] at hrefers
    exact hrefers.1 _ hr
  | entry hr he => exact (h.repository _ _ hr ho).2 _ he
  | enclosing hr hp => exact (h.repository _ _ hr ho).1 _ hp

namespace Grammar

variable {g : Grammar} {a : Arena} {ρ : Region}

/-- The objects that are reached from the root and the repository of a grammar. -/
inductive Reaches (g : Grammar) (a : Arena) : Object → Prop where
  | root : Reaches g a (.list g.root)
  | repository : Reaches g a (.repository g.repository)
  | step {o p : Object} (h : Reaches g a o) (hr : a.Refers o p) : Reaches g a p

/-- The region of these objects. -/
def reach (g : Grammar) (a : Arena) : Region where
  nodes id := g.Reaches a (.node id)
  lists id := g.Reaches a (.list id)
  repositories id := g.Reaches a (.repository id)

/-- Following does not lead out of what a grammar reaches. -/
theorem reach_staysIn (g : Grammar) (a : Arena) : a.StaysIn (g.reach a) := by
  refine ⟨?_, fun id items hl hid item hi => hid.step (.item hl hi), fun id r hr hid =>
    ⟨fun p hp => hid.step (.enclosing hr hp), fun entry he => hid.step (.entry hr he)⟩⟩
  intro id node hn hid
  cases hb : node.body with
  | rule children => exact hid.step (.children hn hb)
  | inclusion i => exact ⟨fun r hr => hid.step (.declared hn hb hr), fun t ht => hid.step (.target hn hb ht)⟩

/-- A region with the root and the repository that is not left by following has everything that is reached. -/
theorem reach_within (h : a.StaysIn ρ) (hroot : ρ.lists g.root) (hrep : ρ.repositories g.repository) : (g.reach a).Within ρ := by
  have hall : ∀ o, g.Reaches a o → ρ.Has o := by
    intro o ho
    induction ho with
    | root => exact hroot
    | repository => exact hrep
    | step _ hr ih => exact h.has ih hr
  exact ⟨fun id hid => hall _ hid, fun id hid => hall _ hid, fun id hid => hall _ hid⟩

end Grammar

end GrammarLinker
