import GrammarLinker.Registry.Build
import GrammarLinker.Registry.Local

/-!
# Grammars

A grammar is a scope name with the ids of its root list and its repository, and the registry of the includes that were built into
it. The patterns themselves live in the arena, which grammars share.
-/

namespace GrammarLinker

/-- A grammar in an arena. -/
structure Grammar where
  scopeName : String
  name : Option String
  root : ListId
  repository : RepositoryId
  registry : Registry
  deriving DecidableEq, Inhabited

namespace Grammar

/-- Runs a build with a registry of its own for the grammar named `owner`, which it gives with the answer. -/
def drafting {α : Type} (owner : String) (build : LinkM Draft α) : LinkM Arena (α × Registry) :=
  .ofRun fun arena => do
    let (answer, draft) ← build.start { arena, registry := { owner } }
    return (answer.map (·, draft.registry), draft.arena)

/-- Builds a grammar file, its repository before its root patterns. All includes are left pending. -/
def build (file : GrammarFile) : LinkM Arena Grammar := do
  let ((repository, root), registry) ← drafting file.scopeName do
    let repository ← Registry.buildRepository file.repository none
    let root ← Registry.build file.patterns (some repository) none
    return (repository, root)
  return { scopeName := file.scopeName, name := file.name, root, repository, registry }

/-- Resolves the `#name` includes of a grammar against its repository. -/
def resolveEntries (g : Grammar) : LinkM Arena Nat := g.registry.resolveEntries g.repository

/-- Resolves the `$self` includes of a grammar to its root. -/
def resolveSelf (g : Grammar) : LinkM Arena Nat := g.registry.resolveSelf g.root

/-- Resolves both. The `$self` includes are resolved also when a name is missing, which is reported after that. -/
def resolveLocal (g : Grammar) : LinkM Arena Unit := do
  let entries ← g.resolveEntries.attempt
  let _ ← g.resolveSelf
  match entries with
  | .ok _ => return ()
  | .error e => throw e

/-- The registered includes that are pending. -/
def pending (g : Grammar) (a : Arena) : Except Fault (List NodeId) := g.registry.pending a

/-- Whether no registered include is pending. -/
def isResolved (g : Grammar) (a : Arena) : Except Fault Bool := g.registry.isResolved a

end Grammar

end GrammarLinker
