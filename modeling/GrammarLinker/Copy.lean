import GrammarLinker.Grammar

/-!
# Copies of grammars

A copy has lists, nodes and repositories of its own for everything that the grammar reaches, with the same sharing and the same
circles. The copy of an object is recorded the moment it is allocated, before anything inside it is looked at, so that an object
which is reached again maps to the copy it has. Lists are filled from a queue, first in, first out.

A resolved include is copied with the copy of its list. A pending one becomes a pending include of the copy, registered there
alone, so that the copy can be resolved without touching the grammar it was made from.
-/

namespace GrammarLinker

/-- The state of a copy that is being made: the arena, the copies recorded so far, the pending includes among them, and the lists
whose copies are still empty. -/
structure Copier where
  arena : Arena
  includes : List NodeId := []
  nodes : List (NodeId × NodeId) := []
  lists : List (ListId × ListId) := []
  repositories : List (RepositoryId × RepositoryId) := []
  queue : List ListId := []
  deriving DecidableEq, Inhabited

/-- A step of copying. -/
abbrev CopyM := StateT Copier (Except Fault)

namespace Copier

/-- The copy of a list, which is allocated empty and queued when there is none yet. -/
def mapList (source : ListId) : CopyM ListId := fun c =>
  match c.lists.lookup source with
  | some copy => .ok (copy, c)
  | none =>
    let (copy, arena) := c.arena.allocList []
    .ok (copy, { c with arena, lists := (source, copy) :: c.lists, queue := c.queue ++ [source] })

/-- Gives the copy of a repository the copies of entries. -/
def mapEntries (copy : RepositoryId) : List (String × ListId) → CopyM Unit
  | [] => pure ()
  | (key, list) :: rest => do
    let mapped ← mapList list
    let c ← get
    set { c with arena := ← c.arena.insertEntry copy key mapped }
    mapEntries copy rest

/-- Makes the copy of a repository, enclosed by the copy of the one around it. -/
def copyRepository (source : RepositoryId) (parent : Option RepositoryId) : CopyM RepositoryId := do
  let c ← get
  let (copy, arena) := c.arena.allocRepository parent
  set { c with arena, repositories := (source, copy) :: c.repositories }
  mapEntries copy (← arena.repository source).entries
  return copy

/-- The copy of a repository, made after those of the enclosing ones; through at most `levels` repositories, itself included. -/
def mapRepositoryWithin : (levels : Nat) → RepositoryId → CopyM RepositoryId
  | 0, _ => throw .endless
  | levels + 1, source => do
    match (← get).repositories.lookup source with
    | some copy => return copy
    | none =>
      match (← (← get).arena.repository source).parent with
      | none => copyRepository source none
      | some outer =>
        let parent ← mapRepositoryWithin levels outer
        copyRepository source (some parent)

/-- The copy of a repository. A chain of enclosing repositories that is longer than the arena has repositories is a loop. -/
def mapRepository (source : RepositoryId) : CopyM RepositoryId := do
  mapRepositoryWithin ((← get).arena.repositories.size + 1) source

/-- The copy of a repository that may be missing. -/
def mapRepository? : Option RepositoryId → CopyM (Option RepositoryId)
  | none => return none
  | some source => some <$> mapRepository source

/-- The copy of what a node is. -/
def mapBody : NodeBody → CopyM NodeBody
  | .rule children => NodeBody.rule <$> mapList children
  | .inclusion i => do
    let repository ← mapRepository? i.repository
    match i.state with
    | .resolved target => return .inclusion (.ofTarget i.reference repository (← mapList target))
    | .pending _ => return .inclusion (i.declaredIn repository)

/-- A node that is a pending include. -/
def isPending (node : Node) : Bool :=
  node.inclusion?.any fun i => !i.isResolved

/-- The copy of a node, which is registered when it is a pending include. Its parent is set when all nodes are copied. -/
def mapNode (source : NodeId) : CopyM NodeId := do
  match (← get).nodes.lookup source with
  | some copy => return copy
  | none =>
    let node ← (← get).arena.node source
    let body ← mapBody node.body
    let c ← get
    let (copy, arena) := c.arena.allocNode { node with parent := none, body }
    let includes := if isPending node then c.includes ++ [copy] else c.includes
    set { c with arena, includes, nodes := (source, copy) :: c.nodes }
    return copy

/-- The copies of nodes. -/
def mapNodes : List NodeId → CopyM (List NodeId)
  | [] => return []
  | source :: rest => do
    let copy ← mapNode source
    let copies ← mapNodes rest
    return copy :: copies

/-- Fills the copy of a list. -/
def fillList (source : ListId) : CopyM Unit := do
  let copies ← mapNodes (← (← get).arena.list source)
  let c ← get
  match c.lists.lookup source with
  | some copy => set { c with arena := ← c.arena.setList copy copies }
  | none => throw .dangling

/-- Fills the copies of the queued lists, at most `fuel` of them, until the queue is empty. -/
def drain : (fuel : Nat) → CopyM Unit
  | 0 => throw .endless
  | fuel + 1 => do
    let c ← get
    match c.queue with
    | [] => return ()
    | source :: queue =>
      set { c with queue }
      fillList source
      drain fuel

/-- Gives copies of nodes the copy of their parent, when it was copied at all. -/
def linkParents (nodes : List (NodeId × NodeId)) : List (NodeId × NodeId) → Arena → Except Fault Arena
  | [], a => .ok a
  | (source, copy) :: rest, a => do
    let parent := (← a.node source).parent.bind fun p => nodes.lookup p
    linkParents nodes rest (← a.setParent copy parent)

/-- Copies what is reached from a root and a repository, and gives the copies of the two. A list is filled once, and the arena
has ids for no more lists than `Arena.capacity`. -/
def copyFrom (root : ListId) (repository : RepositoryId) : CopyM (ListId × RepositoryId) := do
  let root ← mapList root
  let repository ← mapRepository repository
  drain Arena.capacity
  let c ← get
  set { c with arena := ← linkParents c.nodes c.nodes c.arena }
  return (root, repository)

end Copier

/-- Copies a grammar as one of its own, under the same scope name. -/
def Grammar.copy (g : Grammar) (a : Arena) : Except Fault (Grammar × Arena) := do
  let ((root, repository), c) ← (Copier.copyFrom g.root g.repository).run { arena := a }
  return ({ g with root, repository, registry := { owner := g.scopeName, includes := c.includes } }, c.arena)

end GrammarLinker
