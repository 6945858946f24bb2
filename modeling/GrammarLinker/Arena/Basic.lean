import GrammarLinker.Arena.Node

/-!
# The arena

The arena owns every node, list and repository of the grammars that are loaded together, so that the includes of one grammar can
stand for lists of another. Nothing is ever removed. An id is the place at which its object was allocated.

An id may be stored without being looked at. Looking at one that the arena does not hold is a fault, and so is a search that
would never end; every reader says which of the two happened instead of answering.
-/

namespace GrammarLinker

/-- Why an operation has no answer at all. -/
inductive Fault where
  /-- An id was looked at that the arena does not hold. -/
  | dangling
  /-- The search follows a loop and never ends. -/
  | endless
  deriving DecidableEq, Inhabited

/-- Where two parts give a value, the first one gives a value to the second. -/
theorem exists_of_bind_eq_ok {α β : Type} {x : Except Fault α} {f : α → Except Fault β} {y : β} (h : x >>= f = .ok y) :
    ∃ value, x = .ok value ∧ f value = .ok y := by
  cases x with
  | error fault => cases h
  | ok value => exact ⟨value, rfl, h⟩

/-- The nodes, lists and repositories of a load set. -/
structure Arena where
  nodes : Array Node := #[]
  lists : Array (List NodeId) := #[]
  repositories : Array Repository := #[]
  deriving DecidableEq, Inhabited

namespace Arena

/-- How many objects of one kind an arena has ids for. -/
def capacity : Nat := 4294967296

/-! ## Allocation -/

/-- Adds a node at the next id. -/
def allocNode (a : Arena) (node : Node) : NodeId × Arena :=
  (⟨a.nodes.size⟩, { a with nodes := a.nodes.push node })

/-- Adds a list at the next id. -/
def allocList (a : Arena) (items : List NodeId) : ListId × Arena :=
  (⟨a.lists.size⟩, { a with lists := a.lists.push items })

/-- Adds a repository without entries at the next id. -/
def allocRepository (a : Arena) (parent : Option RepositoryId) : RepositoryId × Arena :=
  (⟨a.repositories.size⟩, { a with repositories := a.repositories.push { parent } })

/-! ## Access -/

/-- The node of an id. -/
def node (a : Arena) (id : NodeId) : Except Fault Node :=
  match a.nodes[id.index]? with
  | some node => .ok node
  | none => .error .dangling

/-- The items of a list. -/
def list (a : Arena) (id : ListId) : Except Fault (List NodeId) :=
  match a.lists[id.index]? with
  | some items => .ok items
  | none => .error .dangling

/-- The repository of an id. -/
def repository (a : Arena) (id : RepositoryId) : Except Fault Repository :=
  match a.repositories[id.index]? with
  | some repository => .ok repository
  | none => .error .dangling

/-- The include that a node is, if it is one. -/
def inclusion (a : Arena) (id : NodeId) : Except Fault (Option Include) :=
  (a.node id).map Node.inclusion?

/-- The kind of the include that a node is, if it is one. -/
def inclusionKind (a : Arena) (id : NodeId) : Except Fault (Option IncludeKind) :=
  (a.inclusion id).map (·.map Include.kind)

/-- The children of a rule, or the patterns that an include stands for, of which a pending one has none. -/
def subpatterns (a : Arena) (id : NodeId) : Except Fault (List NodeId) := do
  match (← a.node id).body with
  | .rule children => a.list children
  | .inclusion i =>
    match i.target? with
    | some target => a.list target
    | none => return []

/-! ## Writing -/

/-- Replaces a node. -/
def setNode (a : Arena) (id : NodeId) (node : Node) : Except Fault Arena :=
  if h : id.index < a.nodes.size then .ok { a with nodes := a.nodes.set id.index node h } else .error .dangling

/-- Replaces the items of a list. -/
def setList (a : Arena) (id : ListId) (items : List NodeId) : Except Fault Arena :=
  if h : id.index < a.lists.size then .ok { a with lists := a.lists.set id.index items h } else .error .dangling

/-- Replaces the parent of a node. -/
def setParent (a : Arena) (id : NodeId) (parent : Option NodeId) : Except Fault Arena := do
  a.setNode id { (← a.node id) with parent }

/-- Gives a repository an entry, in place of one of the same key. -/
def insertEntry (a : Arena) (id : RepositoryId) (key : String) (list : ListId) : Except Fault Arena :=
  if h : id.index < a.repositories.size then
    let repository := a.repositories[id.index]
    let filled := { repository with entries := Keyed.put key list repository.entries }
    .ok { a with repositories := a.repositories.set id.index filled h }
  else .error .dangling

/-- Resolves the include that a node is; none when the node is a rule or an include that is resolved already. -/
def resolveInclude? (a : Arena) (id : NodeId) (target : ListId) : Except Fault (Option Arena) := do
  let node ← a.node id
  match node.inclusion?.bind (·.resolveTo? target) with
  | some resolved => return some (← a.setNode id { node with body := .inclusion resolved })
  | none => return none

end Arena

end GrammarLinker
