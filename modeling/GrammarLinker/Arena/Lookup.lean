import GrammarLinker.Arena.Basic

/-!
# Lookup in enclosing repositories

A name is looked up in a repository and then in the repositories that enclose it, innermost first. More steps than the arena has
repositories pass through one of them twice, so that the chain of enclosing repositories is a loop without the name.
-/

namespace GrammarLinker.Arena

/-- Looks a name up along at most `steps` repositories of the chain that starts at `start`. -/
def lookupWithin (a : Arena) (name : String) : (steps : Nat) → (start : Option RepositoryId) →
    Except Fault (Option ListId)
  | _, none => .ok none
  | 0, some id => do
    let _ ← a.repository id
    .error .endless
  | steps + 1, some id => do
    let repository ← a.repository id
    match Keyed.find? name repository.entries with
    | some list => return some list
    | none => lookupWithin a name steps repository.parent

/-- The list of a name in a repository or in the innermost enclosing one that has it. -/
def lookup (a : Arena) (repository : RepositoryId) (name : String) : Except Fault (Option ListId) :=
  a.lookupWithin name a.repositories.size (some repository)

end GrammarLinker.Arena
