import GrammarLinker.Linking
import GrammarLinker.Registry.Basic

/-!
# Building records into the arena

Building resolves nothing. An include record becomes a pending include and is registered, so that a reference may come before
what it refers to; a rule record becomes a rule whose patterns are built with it as their parent. A rule that has a repository
opens it for its own patterns, enclosed by the repository around the rule. A repository entry that is a bare group stands for
its patterns, any other entry for itself alone.

The first record whose reference is malformed ends the build. What was allocated and registered before it stays.
-/

namespace GrammarLinker

/-- What a build changes: the arena, and the registry of the grammar that is built. -/
structure Draft where
  arena : Arena
  registry : Registry
  deriving DecidableEq, Inhabited

namespace Draft

/-- Adds a node. -/
def allocNode (node : Node) : LinkM Draft NodeId :=
  .ofChange fun d =>
    let (id, arena) := d.arena.allocNode node
    .ok (id, { d with arena })

/-- Adds a list. -/
def allocList (items : List NodeId) : LinkM Draft ListId :=
  .ofChange fun d =>
    let (id, arena) := d.arena.allocList items
    .ok (id, { d with arena })

/-- Adds a repository. -/
def allocRepository (parent : Option RepositoryId) : LinkM Draft RepositoryId :=
  .ofChange fun d =>
    let (id, arena) := d.arena.allocRepository parent
    .ok (id, { d with arena })

/-- Fills a list. -/
def setList (id : ListId) (items : List NodeId) : LinkM Draft Unit :=
  .ofChange fun d => do return ((), { d with arena := ← d.arena.setList id items })

/-- Gives a repository an entry. -/
def insertEntry (id : RepositoryId) (key : String) (list : ListId) : LinkM Draft Unit :=
  .ofChange fun d => do return ((), { d with arena := ← d.arena.insertEntry id key list })

/-- Registers an include. -/
def register (id : NodeId) : LinkM Draft Unit :=
  .ofChange fun d => .ok ((), { d with registry := d.registry.register id })

/-- The pending include of a reference; a malformed reference is an error of the grammar that is built. -/
def readInclude (reference : String) (repository : Option RepositoryId) : LinkM Draft Include :=
  .ofRun fun d =>
    .ok ((Include.ofReference reference repository).mapError (.malformedReference d.registry.owner), d)

end Draft

open Draft

mutual

/-- Builds a record. -/
def Record.build : Record → (repository : Option RepositoryId) → (parent : Option NodeId) → LinkM Draft NodeId
  | ⟨some reference, name, _, _, _⟩, repository, parent => do
    let content ← readInclude reference repository
    let id ← allocNode { name, parent, body := .inclusion content }
    register id
    return id
  | ⟨none, name, rule, patterns, nested⟩, repository, parent => do
    let children ← allocList []
    let id ← allocNode { name, rule, parent, body := .rule children }
    let scope ←
      if nested.isEmpty then pure repository
      else do
        let opened ← allocRepository repository
        Record.buildEntries nested opened
        pure (some opened)
    let items ← Record.buildItems patterns scope (some id)
    setList children items
    return id

/-- Builds records in order. -/
def Record.buildItems : List Record → (repository : Option RepositoryId) → (parent : Option NodeId) →
    LinkM Draft (List NodeId)
  | [], _, _ => return []
  | r :: rest, repository, parent => do
    let id ← Record.build r repository parent
    let ids ← Record.buildItems rest repository parent
    return id :: ids

/-- Builds the entries of a repository into it, in order. -/
def Record.buildEntries : List (String × Record) → (repository : RepositoryId) → LinkM Draft Unit
  | [], _ => return ()
  | (key, ⟨reference, name, rule, patterns, nested⟩) :: rest, repository => do
    let items ←
      if Record.isBareGroup ⟨reference, name, rule, patterns, nested⟩ then
        Record.buildItems patterns (some repository) none
      else do
        let id ← Record.build ⟨reference, name, rule, patterns, nested⟩ (some repository) none
        pure [id]
    let list ← allocList items
    insertEntry repository key list
    Record.buildEntries rest repository

end

namespace Registry

/-- Builds records into a list of their own. -/
def build (records : List Record) (repository : Option RepositoryId) (parent : Option NodeId) : LinkM Draft ListId := do
  let items ← Record.buildItems records repository parent
  allocList items

/-- Builds entries into a repository of their own. -/
def buildRepository (entries : List (String × Record)) (parent : Option RepositoryId) : LinkM Draft RepositoryId := do
  let repository ← allocRepository parent
  Record.buildEntries entries repository
  return repository

end Registry

end GrammarLinker
