import GrammarLinker.Arena.Lookup
import GrammarLinker.Registry.Basic
import GrammarLinker.Resolution

/-!
# Local resolution

`#name` and `$self` concern one grammar alone. A name is looked up in the repository in which the include was declared and the
repositories around it, and after them in the repository that the caller gives. Every include is attempted; the first one whose
name is not found is reported when all others are done.
-/

namespace GrammarLinker.Registry

/-- The list that a name denotes for an include declared in `declared`, with `repository` to fall back on. -/
def entryTarget (a : Arena) (repository : RepositoryId) (declared : Option RepositoryId) (name : String) :
    Except Fault (Option ListId) := do
  let found ←
    match declared with
    | some inner => a.lookup inner name
    | none => pure none
  match found with
  | some list => return some list
  | none => a.lookup repository name

/-- What becomes of a node when `#name` includes are resolved. -/
def entryVerdict (repository : RepositoryId) (a : Arena) (id : NodeId) : Except Fault Verdict := do
  match ← a.inclusion id with
  | some ⟨reference, declared, .pending (.entry name)⟩ =>
    match ← entryTarget a repository declared name with
    | some list => return .attached list
    | none => return .missing reference
  | _ => return .skipped

/-- What becomes of a node when `$self` includes are resolved to a root. -/
def selfVerdict (root : ListId) (a : Arena) (id : NodeId) : Except Fault Verdict := do
  match ← a.inclusion id with
  | some ⟨_, _, .pending .self⟩ => return .attached root
  | _ => return .skipped

/-- Resolves the pending `#name` includes and counts them; the first one without a target is the error. -/
def resolveEntries (r : Registry) (repository : RepositoryId) : LinkM Arena Nat := do
  let tally ← LinkM.ofChange (Resolution.pass id (fun _ => r.owner) (entryVerdict repository) r.includes)
  match tally.missing with
  | [] => return tally.resolved
  | first :: _ => throw first.error

/-- Resolves the pending `$self` includes to a root and counts them. -/
def resolveSelf (r : Registry) (root : ListId) : LinkM Arena Nat := do
  let tally ← LinkM.ofChange (Resolution.pass id (fun _ => r.owner) (selfVerdict root) r.includes)
  return tally.resolved

end GrammarLinker.Registry
