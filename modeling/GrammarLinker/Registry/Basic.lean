import GrammarLinker.Arena.Basic

/-!
# Registries

A registry lists the includes that were created while one grammar was built or copied, in the order of their creation. It
belongs to that grammar alone. An include stays in the list when it is resolved; what is pending is read off the arena.
-/

namespace GrammarLinker

/-- The includes of the grammar named `owner`. -/
structure Registry where
  owner : String
  includes : List NodeId := []
  deriving DecidableEq, Inhabited

namespace Registry

/-- Adds an include at the end. -/
def register (r : Registry) (id : NodeId) : Registry :=
  { r with includes := r.includes ++ [id] }

/-- The nodes of a list that are includes of a kind that satisfies a test. -/
def select (a : Arena) (test : IncludeKind → Bool) : List NodeId → Except Fault (List NodeId)
  | [] => .ok []
  | id :: rest => do
    let kind ← a.inclusionKind id
    let selected ← select a test rest
    return if kind.any test then id :: selected else selected

/-- The registered includes that are not resolved. -/
def pending (r : Registry) (a : Arena) : Except Fault (List NodeId) :=
  select a (· ≠ .resolved) r.includes

/-- The registered includes of a kind. -/
def ofKind (r : Registry) (a : Arena) (kind : IncludeKind) : Except Fault (List NodeId) :=
  select a (· = kind) r.includes

/-- Whether no node of a list is a pending include; the nodes after the first pending one are not looked at. -/
def nonePending (a : Arena) : List NodeId → Except Fault Bool
  | [] => .ok true
  | id :: rest => do
    if (← a.inclusionKind id).any (· ≠ .resolved) then return false else nonePending a rest

/-- Whether no registered include is pending. -/
def isResolved (r : Registry) (a : Arena) : Except Fault Bool :=
  nonePending a r.includes

end Registry

end GrammarLinker
