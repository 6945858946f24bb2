import GrammarLinker.Record
import GrammarLinker.Reference

/-!
# Nodes of the pattern graph

Nodes, lists and repositories are addressed by dense ids, and identity is the id: two nodes that look the same are different
nodes. A node is a rule with its list of children, or an include. An include is pending until it is resolved to a list; after
that it stands for the patterns of that list and never moves again (`Include.resolveTo?`).
-/

namespace GrammarLinker

/-- The id of a node. -/
structure NodeId where
  index : Nat
  deriving DecidableEq, Inhabited

/-- The id of an ordered list of nodes. -/
structure ListId where
  index : Nat
  deriving DecidableEq, Inhabited

/-- The id of a repository. -/
structure RepositoryId where
  index : Nat
  deriving DecidableEq, Inhabited

/-- The text of a list's id. -/
def ListId.text (id : ListId) : String := String.join ["L", toString id.index]

/-! ## Includes -/

/-- Whether an include still waits for its group, or which list it stands for. -/
inductive IncludeState where
  | pending (reference : Reference)
  | resolved (target : ListId)
  deriving DecidableEq, Inhabited

/-- The kinds of include states. -/
inductive IncludeKind where
  | toRepository
  | toSelf
  | toBase
  | toForeign
  | toForeignRepository
  | resolved
  deriving DecidableEq, Inhabited

namespace IncludeKind

/-- The kinds in their order. -/
def all : List IncludeKind := [toRepository, toSelf, toBase, toForeign, toForeignRepository, resolved]

/-- The place of a kind in the order. -/
def rank : IncludeKind → Nat
  | toRepository => 0
  | toSelf => 1
  | toBase => 2
  | toForeign => 3
  | toForeignRepository => 4
  | resolved => 5

/-- Kinds are ordered by their rank. -/
instance : Ord IncludeKind := ⟨fun a b => compare a.rank b.rank⟩

/-- The label of a kind. -/
def label : IncludeKind → String
  | toRepository => "to-repository"
  | toSelf => "to-self"
  | toBase => "to-base"
  | toForeign => "to-foreign"
  | toForeignRepository => "to-foreign-repository"
  | resolved => "resolved"

/-- The kind of a label. -/
def ofLabel? (label : String) : Option IncludeKind :=
  all.find? fun kind => kind.label == label

/-- A kind that only the whole set of grammars can satisfy. -/
def isCrossGrammar : IncludeKind → Bool
  | toBase | toForeign | toForeignRepository => true
  | toRepository | toSelf | resolved => false

end IncludeKind

/-- The kind of a pending include. -/
def Reference.kind : Reference → IncludeKind
  | .entry _ => .toRepository
  | .self => .toSelf
  | .base => .toBase
  | .foreign _ => .toForeign
  | .foreignEntry _ _ => .toForeignRepository

namespace IncludeState

/-- The kind of a state. -/
def kind : IncludeState → IncludeKind
  | pending reference => reference.kind
  | resolved _ => .resolved

/-- A state that stands for a list. -/
def isResolved : IncludeState → Bool
  | pending _ => false
  | resolved _ => true

/-- The list a state stands for. -/
def target? : IncludeState → Option ListId
  | pending _ => none
  | resolved target => some target

end IncludeState

/-- A deferred reference to a pattern group: its text as written, the repository in scope where it was declared, and its
state. -/
structure Include where
  reference : String
  repository : Option RepositoryId
  state : IncludeState
  deriving DecidableEq, Inhabited

namespace Include

/-- The pending include of a text. -/
def ofReference (reference : String) (repository : Option RepositoryId) : Except Malformed Include :=
  (Reference.parse reference).map fun parsed => ⟨reference, repository, .pending parsed⟩

/-- An include that stands for a list from the start; its text is not read. -/
def ofTarget (reference : String) (repository : Option RepositoryId) (target : ListId) : Include :=
  ⟨reference, repository, .resolved target⟩

/-- The same include declared in another repository. -/
def declaredIn (i : Include) (repository : Option RepositoryId) : Include :=
  { i with repository }

/-- The kind of an include. -/
def kind (i : Include) : IncludeKind := i.state.kind

/-- An include that stands for a list. -/
def isResolved (i : Include) : Bool := i.state.isResolved

/-- The list an include stands for. -/
def target? (i : Include) : Option ListId := i.state.target?

/-- A pending include, resolved to a list; none when the include is resolved already. -/
def resolveTo? (i : Include) (target : ListId) : Option Include :=
  match i.state with
  | .pending _ => some { i with state := .resolved target }
  | .resolved _ => none

end Include

/-! ## Nodes -/

/-- What a node is: a rule with the list of its children, or an include. -/
inductive NodeBody where
  | rule (children : ListId)
  | inclusion (content : Include)
  deriving DecidableEq, Inhabited

/-- A node. The parent is the rule whose children hold the node; it is for navigation only. -/
structure Node where
  name : Option String := none
  rule : MatchRule := {}
  parent : Option NodeId := none
  body : NodeBody
  deriving DecidableEq, Inhabited

namespace Node

/-- The include that a node is, if it is one. -/
def inclusion? (n : Node) : Option Include :=
  match n.body with
  | .rule _ => none
  | .inclusion i => some i

/-- A node that is a rule. -/
def isRule (n : Node) : Bool :=
  match n.body with
  | .rule _ => true
  | .inclusion _ => false

end Node

/-- Named pattern groups, and the repository that encloses them. -/
structure Repository where
  entries : List (String × ListId) := []
  parent : Option RepositoryId := none
  deriving DecidableEq, Inhabited

end GrammarLinker
