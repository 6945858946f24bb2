import Mathlib.Data.List.Nodup
import Mathlib.Data.List.Perm.Subperm
import GrammarLinker.Arena.Grounded
import GrammarLinker.Arena.Lookup

/-!
# Reading an arena, and what reading says of a change

An id that the arena holds has an object (`Arena.HasNode.node_ok` and its siblings), and every other id is a fault. What is
read depends on the objects of its kind alone (`Arena.node_congr` and its siblings).

`Arena.Extends` says that nothing of an arena was changed and that objects were added at the end: what was read before the change
is read after it.
-/

namespace GrammarLinker

/-- A node has an include when its body is that include. -/
theorem Node.inclusion?_eq_some {n : Node} {i : Include} : n.inclusion? = some i ↔ n.body = .inclusion i := by
  obtain ⟨name, rule, parent, children | j⟩ := n <;> simp [Node.inclusion?]

namespace Arena

variable {a b c : Arena}

/-- The arena holds the node of an id. -/
def HasNode (a : Arena) (id : NodeId) : Prop := id.index < a.nodes.size

/-- The arena holds the list of an id. -/
def HasList (a : Arena) (id : ListId) : Prop := id.index < a.lists.size

/-- The arena holds the repository of an id. -/
def HasRepository (a : Arena) (id : RepositoryId) : Prop := id.index < a.repositories.size

instance (id : NodeId) : Decidable (a.HasNode id) := inferInstanceAs (Decidable (_ < _))

instance (id : ListId) : Decidable (a.HasList id) := inferInstanceAs (Decidable (_ < _))

instance (id : RepositoryId) : Decidable (a.HasRepository id) := inferInstanceAs (Decidable (_ < _))

/-! ## Reading -/

/-- The node of an id is what stands at its index. -/
theorem node_eq_ok {id : NodeId} {node : Node} : a.node id = .ok node ↔ a.nodes[id.index]? = some node := by
  unfold Arena.node
  cases a.nodes[id.index]? <;> simp

/-- The items of a list are what stands at its index. -/
theorem list_eq_ok {id : ListId} {items : List NodeId} : a.list id = .ok items ↔ a.lists[id.index]? = some items := by
  unfold Arena.list
  cases a.lists[id.index]? <;> simp

/-- The repository of an id is what stands at its index. -/
theorem repository_eq_ok {id : RepositoryId} {repository : Repository} :
    a.repository id = .ok repository ↔ a.repositories[id.index]? = some repository := by
  unfold Arena.repository
  cases a.repositories[id.index]? <;> simp

/-- What is read depends on the objects of its kind alone. -/
theorem node_congr (h : b.nodes = a.nodes) (id : NodeId) : b.node id = a.node id := by
  simp only [Arena.node, h]

/-- The items of a list depend on the lists alone. -/
theorem list_congr (h : b.lists = a.lists) (id : ListId) : b.list id = a.list id := by
  simp only [Arena.list, h]

/-- A repository depends on the repositories alone. -/
theorem repository_congr (h : b.repositories = a.repositories) (id : RepositoryId) : b.repository id = a.repository id := by
  simp only [Arena.repository, h]

/-- Which nodes there are depends on their number. -/
theorem hasNode_congr (h : b.nodes.size = a.nodes.size) {id : NodeId} : b.HasNode id ↔ a.HasNode id := by
  unfold HasNode
  rw [h]

/-- Which lists there are depends on their number. -/
theorem hasList_congr (h : b.lists.size = a.lists.size) {id : ListId} : b.HasList id ↔ a.HasList id := by
  unfold HasList
  rw [h]

/-- Which repositories there are depends on their number. -/
theorem hasRepository_congr (h : b.repositories.size = a.repositories.size) {id : RepositoryId} :
    b.HasRepository id ↔ a.HasRepository id := by
  unfold HasRepository
  rw [h]

/-- A node that is there is read. -/
theorem HasNode.node_ok {id : NodeId} (h : a.HasNode id) : ∃ node, a.node id = .ok node :=
  ⟨a.nodes[id.index], node_eq_ok.2 (Array.getElem?_eq_getElem h)⟩

/-- A list that is there is read. -/
theorem HasList.list_ok {id : ListId} (h : a.HasList id) : ∃ items, a.list id = .ok items :=
  ⟨a.lists[id.index], list_eq_ok.2 (Array.getElem?_eq_getElem h)⟩

/-- A repository that is there is read. -/
theorem HasRepository.repository_ok {id : RepositoryId} (h : a.HasRepository id) :
    ∃ repository, a.repository id = .ok repository :=
  ⟨a.repositories[id.index], repository_eq_ok.2 (Array.getElem?_eq_getElem h)⟩

/-- Ids below a bound, each once, are at most as many as the bound. -/
theorem length_le_of_index_lt {ι : Type} {index : ι → Nat} (hinj : Function.Injective index) {ids : List ι} (hnd : ids.Nodup) {n : Nat}
    (h : ∀ id ∈ ids, index id < n) : ids.length ≤ n := by
  have hsub : ids.map index ⊆ List.range n := by
    intro i hi
    obtain ⟨id, hid, rfl⟩ := List.mem_map.1 hi
    exact List.mem_range.2 (h id hid)
  simpa using (List.subperm_of_subset (hnd.map hinj) hsub).length_le

/-- Distinct lists are at most as many as there are in the arena. -/
theorem length_lists_le {ids : List ListId} (hnd : ids.Nodup) (h : ∀ id ∈ ids, a.HasList id) : ids.length ≤ a.lists.size :=
  length_le_of_index_lt (fun _ _ heq => congrArg ListId.mk heq : Function.Injective ListId.index) hnd h

/-- Distinct repositories are at most as many as there are in the arena. -/
theorem length_repositories_le {ids : List RepositoryId} (hnd : ids.Nodup) (h : ∀ id ∈ ids, a.HasRepository id) :
    ids.length ≤ a.repositories.size :=
  length_le_of_index_lt (fun _ _ heq => congrArg RepositoryId.mk heq : Function.Injective RepositoryId.index) hnd h

/-- A node that is read is there. -/
theorem hasNode_of_node {id : NodeId} {node : Node} (h : a.node id = .ok node) : a.HasNode id :=
  (Array.getElem?_eq_some_iff.1 (node_eq_ok.1 h)).1

/-- A list that is read is there. -/
theorem hasList_of_list {id : ListId} {items : List NodeId} (h : a.list id = .ok items) : a.HasList id :=
  (Array.getElem?_eq_some_iff.1 (list_eq_ok.1 h)).1

/-- A repository that is read is there. -/
theorem hasRepository_of_repository {id : RepositoryId} {repository : Repository} (h : a.repository id = .ok repository) :
    a.HasRepository id :=
  (Array.getElem?_eq_some_iff.1 (repository_eq_ok.1 h)).1

/-- The include of a node is read off the node. -/
theorem inclusion_of_node {id : NodeId} {node : Node} (h : a.node id = .ok node) :
    a.inclusion id = .ok node.inclusion? := by
  simp [inclusion, h, Except.map]

/-- What is read as the include of a node is what the node says. -/
theorem inclusion_eq_ok {id : NodeId} {i? : Option Include} :
    a.inclusion id = .ok i? ↔ ∃ node, a.node id = .ok node ∧ node.inclusion? = i? := by
  constructor
  · intro h
    cases hn : a.node id with
    | error fault => simp [inclusion, hn, Except.map] at h
    | ok node =>
      rw [inclusion_of_node hn, Except.ok.injEq] at h
      exact ⟨node, rfl, h⟩
  · rintro ⟨node, hn, rfl⟩
    exact inclusion_of_node hn

/-- An include is read exactly where a node with that body stands. -/
theorem inclusion_eq_some {id : NodeId} {i : Include} :
    a.inclusion id = .ok (some i) ↔ ∃ node, a.node id = .ok node ∧ node.body = .inclusion i := by
  simp only [inclusion_eq_ok, Node.inclusion?_eq_some]

/-- Two arenas of the same lists and repositories and equally many nodes are one when they agree on every node. -/
theorem ext_of_nodes (hl : a.lists = b.lists) (hr : a.repositories = b.repositories) (hs : a.nodes.size = b.nodes.size)
    (hn : ∀ id node, a.node id = .ok node → b.node id = .ok node) : a = b := by
  obtain ⟨nodes, lists, repositories⟩ := a
  obtain ⟨nodes', lists', repositories'⟩ := b
  simp only at hl hr hs
  subst hl hr
  have hnodes : nodes = nodes' := by
    refine Array.ext hs ?_
    intro i h₁ h₂
    have := hn ⟨i⟩ nodes[i] (node_eq_ok.2 (Array.getElem?_eq_getElem h₁))
    rw [node_eq_ok, Array.getElem?_eq_getElem h₂, Option.some.injEq] at this
    exact this.symm
  rw [hnodes]

/-! ## Allocation -/

/-- Nothing of an arena was changed, and objects may have been added at the end. -/
structure Extends (a b : Arena) : Prop where
  node : ∀ id node, a.node id = .ok node → b.node id = .ok node
  list : ∀ id items, a.list id = .ok items → b.list id = .ok items
  repository : ∀ id repository, a.repository id = .ok repository → b.repository id = .ok repository

/-- An arena extends itself. -/
theorem Extends.refl (a : Arena) : a.Extends a :=
  ⟨fun _ _ h => h, fun _ _ h => h, fun _ _ h => h⟩

/-- Extending goes on. -/
theorem Extends.trans (h : a.Extends b) (h' : b.Extends c) : a.Extends c :=
  ⟨fun id node hn => h'.node id node (h.node id node hn), fun id items hl => h'.list id items (h.list id items hl),
    fun id repository hr => h'.repository id repository (h.repository id repository hr)⟩

/-- A node stays there when the arena is extended. -/
theorem Extends.hasNode (h : a.Extends b) {id : NodeId} (hid : a.HasNode id) : b.HasNode id := by
  obtain ⟨node, hn⟩ := hid.node_ok
  exact hasNode_of_node (h.node id node hn)

/-- A list stays there when the arena is extended. -/
theorem Extends.hasList (h : a.Extends b) {id : ListId} (hid : a.HasList id) : b.HasList id := by
  obtain ⟨items, hl⟩ := hid.list_ok
  exact hasList_of_list (h.list id items hl)

/-- A repository stays there when the arena is extended. -/
theorem Extends.hasRepository (h : a.Extends b) {id : RepositoryId} (hid : a.HasRepository id) : b.HasRepository id := by
  obtain ⟨repository, hr⟩ := hid.repository_ok
  exact hasRepository_of_repository (h.repository id repository hr)

/-- There are as many repositories as there were. -/
theorem Extends.repositories_size_le (h : a.Extends b) : a.repositories.size ≤ b.repositories.size := by
  refine Nat.le_of_not_lt fun hlt => ?_
  have hlost : b.HasRepository ⟨b.repositories.size⟩ := h.hasRepository (show b.repositories.size < a.repositories.size from hlt)
  exact Nat.lt_irrefl _ hlost

/-- After a push there is one more element, at the end. -/
theorem getElem?_push_eq_some {α : Type} {xs : Array α} {x y : α} {i : Nat} :
    (xs.push x)[i]? = some y ↔ xs[i]? = some y ∨ (i = xs.size ∧ y = x) := by
  rw [Array.getElem?_push]
  by_cases h : i = xs.size
  · simp [h, eq_comm]
  · simp [h]

/-- A new node is read at its id, and the others as before. -/
theorem node_allocNode {node m : Node} {id : NodeId} :
    (a.allocNode node).2.node id = .ok m ↔ a.node id = .ok m ∨ (id = (a.allocNode node).1 ∧ m = node) := by
  rw [node_eq_ok, node_eq_ok]
  obtain ⟨i⟩ := id
  simp only [allocNode, getElem?_push_eq_some, NodeId.mk.injEq]

/-- A new list is read at its id, and the others as before. -/
theorem list_allocList {items l : List NodeId} {id : ListId} :
    (a.allocList items).2.list id = .ok l ↔ a.list id = .ok l ∨ (id = (a.allocList items).1 ∧ l = items) := by
  rw [list_eq_ok, list_eq_ok]
  obtain ⟨i⟩ := id
  simp only [allocList, getElem?_push_eq_some, ListId.mk.injEq]

/-- A new repository is read at its id, without entries, and the others as before. -/
theorem repository_allocRepository {parent : Option RepositoryId} {r : Repository} {id : RepositoryId} :
    (a.allocRepository parent).2.repository id = .ok r ↔
      a.repository id = .ok r ∨ (id = (a.allocRepository parent).1 ∧ r = { parent }) := by
  rw [repository_eq_ok, repository_eq_ok]
  obtain ⟨i⟩ := id
  simp only [allocRepository, getElem?_push_eq_some, RepositoryId.mk.injEq]

/-- One node more is there. -/
theorem hasNode_allocNode {node : Node} {id : NodeId} :
    (a.allocNode node).2.HasNode id ↔ a.HasNode id ∨ id = (a.allocNode node).1 := by
  obtain ⟨i⟩ := id
  simp only [HasNode, allocNode, Array.size_push, NodeId.mk.injEq]
  omega

/-- One list more is there. -/
theorem hasList_allocList {items : List NodeId} {id : ListId} :
    (a.allocList items).2.HasList id ↔ a.HasList id ∨ id = (a.allocList items).1 := by
  obtain ⟨i⟩ := id
  simp only [HasList, allocList, Array.size_push, ListId.mk.injEq]
  omega

/-- One repository more is there. -/
theorem hasRepository_allocRepository {parent : Option RepositoryId} {id : RepositoryId} :
    (a.allocRepository parent).2.HasRepository id ↔ a.HasRepository id ∨ id = (a.allocRepository parent).1 := by
  obtain ⟨i⟩ := id
  simp only [HasRepository, allocRepository, Array.size_push, RepositoryId.mk.injEq]
  omega

/-! What is added was not there before, and is read as it was added. -/

/-- The id of a new node was not in use. -/
theorem not_hasNode_allocNode (a : Arena) (node : Node) : ¬a.HasNode (a.allocNode node).1 := Nat.lt_irrefl _

/-- The id of a new list was not in use. -/
theorem not_hasList_allocList (a : Arena) (items : List NodeId) : ¬a.HasList (a.allocList items).1 := Nat.lt_irrefl _

/-- The id of a new repository was not in use. -/
theorem not_hasRepository_allocRepository (a : Arena) (parent : Option RepositoryId) :
    ¬a.HasRepository (a.allocRepository parent).1 := Nat.lt_irrefl _

/-- At its id the new node is read. -/
theorem node_allocNode_self (a : Arena) (node : Node) : (a.allocNode node).2.node (a.allocNode node).1 = .ok node :=
  node_allocNode.2 (.inr ⟨rfl, rfl⟩)

/-- At its id the new list is read. -/
theorem list_allocList_self (a : Arena) (items : List NodeId) : (a.allocList items).2.list (a.allocList items).1 = .ok items :=
  list_allocList.2 (.inr ⟨rfl, rfl⟩)

/-- At its id the new repository is read, and has no entries. -/
theorem repository_allocRepository_self (a : Arena) (parent : Option RepositoryId) :
    (a.allocRepository parent).2.repository (a.allocRepository parent).1 = .ok { parent } :=
  repository_allocRepository.2 (.inr ⟨rfl, rfl⟩)

/-- A new node extends the arena. -/
theorem extends_allocNode (a : Arena) (node : Node) : a.Extends (a.allocNode node).2 :=
  ⟨fun _ _ h => node_allocNode.2 (.inl h), fun _ _ h => h, fun _ _ h => h⟩

/-- A new list extends the arena. -/
theorem extends_allocList (a : Arena) (items : List NodeId) : a.Extends (a.allocList items).2 :=
  ⟨fun _ _ h => h, fun _ _ h => list_allocList.2 (.inl h), fun _ _ h => h⟩

/-- A new repository extends the arena. -/
theorem extends_allocRepository (a : Arena) (parent : Option RepositoryId) : a.Extends (a.allocRepository parent).2 :=
  ⟨fun _ _ h => h, fun _ _ h => h, fun _ _ h => repository_allocRepository.2 (.inl h)⟩

/-! ## Writing -/

/-- A node that is there can be replaced. -/
theorem setNode_ok {id : NodeId} (h : a.HasNode id) (node : Node) : ∃ b, a.setNode id node = .ok b :=
  ⟨_, dif_pos h⟩

/-- The items of a list that is there can be replaced. -/
theorem setList_ok {id : ListId} (h : a.HasList id) (items : List NodeId) : ∃ b, a.setList id items = .ok b :=
  ⟨_, dif_pos h⟩

/-- A repository that is there can be given an entry. -/
theorem insertEntry_ok {id : RepositoryId} (h : a.HasRepository id) (key : String) (list : ListId) :
    ∃ b, a.insertEntry id key list = .ok b :=
  ⟨_, dif_pos h⟩

/-- Replacing a node changes what is read at its id and nothing else. -/
theorem setNode_eq_ok {id : NodeId} {node : Node} (h : a.setNode id node = .ok b) :
    a.HasNode id ∧ b.lists = a.lists ∧ b.repositories = a.repositories ∧ b.nodes.size = a.nodes.size ∧
      ∀ m, b.node m = if m = id then .ok node else a.node m := by
  unfold setNode at h
  split at h
  · rename_i hid
    rw [Except.ok.injEq] at h
    subst h
    refine ⟨hid, rfl, rfl, by simp, ?_⟩
    intro m
    obtain ⟨i⟩ := id
    obtain ⟨j⟩ := m
    by_cases hj : j = i
    · subst hj
      simp [Arena.node, show j < a.nodes.size from hid]
    · simp [Arena.node, hj, Ne.symm hj]
  · cases h

/-- Replacing the items of a list changes what is read at its id and nothing else. -/
theorem setList_eq_ok {id : ListId} {items : List NodeId} (h : a.setList id items = .ok b) :
    a.HasList id ∧ b.nodes = a.nodes ∧ b.repositories = a.repositories ∧ b.lists.size = a.lists.size ∧
      ∀ l, b.list l = if l = id then .ok items else a.list l := by
  unfold setList at h
  split at h
  · rename_i hid
    rw [Except.ok.injEq] at h
    subst h
    refine ⟨hid, rfl, rfl, by simp, ?_⟩
    intro l
    obtain ⟨i⟩ := id
    obtain ⟨j⟩ := l
    by_cases hj : j = i
    · subst hj
      simp [Arena.list, show j < a.lists.size from hid]
    · simp [Arena.list, hj, Ne.symm hj]
  · cases h

/-- Giving a repository an entry changes its entries and nothing else. -/
theorem insertEntry_eq_ok {id : RepositoryId} {key : String} {list : ListId} (h : a.insertEntry id key list = .ok b) :
    b.nodes = a.nodes ∧ b.lists = a.lists ∧ b.repositories.size = a.repositories.size ∧
      ∃ old, a.repository id = .ok old ∧
        ∀ r, b.repository r =
          if r = id then .ok { old with entries := Keyed.put key list old.entries } else a.repository r := by
  unfold insertEntry at h
  split at h
  · rename_i hid
    rw [Except.ok.injEq] at h
    subst h
    refine ⟨rfl, rfl, by simp, a.repositories[id.index], repository_eq_ok.2 (Array.getElem?_eq_getElem hid), fun r => ?_⟩
    obtain ⟨i⟩ := id
    obtain ⟨j⟩ := r
    by_cases hj : j = i
    · subst hj
      simp [Arena.repository, show j < a.repositories.size from hid]
    · simp [Arena.repository, hj, Ne.symm hj]
  · cases h

end Arena

end GrammarLinker
