import GrammarLinker.Proofs.Arena.Access

/-!
# Arenas whose ids are in range

A node, a list or a repository stores ids of others. `Arena.ClosedIn` says of a region of an arena that the ids stored in it lead
nowhere else; an arena is closed when the region of all its objects is (`Arena.Closed`), which is that every stored id is in range.
The region of the objects that were allocated after a certain moment is `Arena.since`. Where parents do not matter, it is enough that
following does not lead out of a region (`Arena.StaysIn`).

Each way to write into an arena keeps a region closed as long as the ids that are written are in the region.
-/

namespace GrammarLinker

/-- A choice of nodes, lists and repositories. -/
structure Region where
  nodes : NodeId → Prop
  lists : ListId → Prop
  repositories : RepositoryId → Prop

namespace Region

variable {ρ σ : Region}

/-- A region that is part of another. -/
structure Within (ρ σ : Region) : Prop where
  nodes : ∀ id, ρ.nodes id → σ.nodes id
  lists : ∀ id, ρ.lists id → σ.lists id
  repositories : ∀ id, ρ.repositories id → σ.repositories id

/-- A region is part of itself. -/
theorem Within.refl (ρ : Region) : ρ.Within ρ :=
  ⟨fun _ h => h, fun _ h => h, fun _ h => h⟩

/-- A part of a part is a part. -/
theorem Within.trans {τ : Region} (h : ρ.Within σ) (h' : σ.Within τ) : ρ.Within τ :=
  ⟨fun id hid => h'.nodes id (h.nodes id hid), fun id hid => h'.lists id (h.lists id hid),
    fun id hid => h'.repositories id (h.repositories id hid)⟩

end Region

variable {ρ σ : Region}

/-- What a node is refers only to lists and repositories of a region. -/
def NodeBody.RefersInto (ρ : Region) : NodeBody → Prop
  | .rule children => ρ.lists children
  | .inclusion i => (∀ r, i.repository = some r → ρ.repositories r) ∧ ∀ t, i.target? = some t → ρ.lists t

/-- A node refers only to objects of a region. -/
def Node.RefersInto (ρ : Region) (n : Node) : Prop :=
  (∀ p, n.parent = some p → ρ.nodes p) ∧ n.body.RefersInto ρ

/-- A repository refers only to objects of a region. -/
def Repository.RefersInto (ρ : Region) (r : Repository) : Prop :=
  (∀ p, r.parent = some p → ρ.repositories p) ∧ ∀ entry ∈ r.entries, ρ.lists entry.2

/-- What refers into a region refers into every larger one. -/
theorem NodeBody.RefersInto.mono {b : NodeBody} (h : b.RefersInto ρ) (hw : ρ.Within σ) : b.RefersInto σ := by
  cases b with
  | rule children => exact hw.lists _ h
  | inclusion i => exact ⟨fun r hr => hw.repositories _ (h.1 r hr), fun t ht => hw.lists _ (h.2 t ht)⟩

/-- A node that refers into a region refers into every larger one. -/
theorem Node.RefersInto.mono {n : Node} (h : n.RefersInto ρ) (hw : ρ.Within σ) : n.RefersInto σ :=
  ⟨fun p hp => hw.nodes _ (h.1 p hp), h.2.mono hw⟩

/-- A repository that refers into a region refers into every larger one. -/
theorem Repository.RefersInto.mono {r : Repository} (h : r.RefersInto ρ) (hw : ρ.Within σ) : r.RefersInto σ :=
  ⟨fun p hp => hw.repositories _ (h.1 p hp), fun entry he => hw.lists _ (h.2 entry he)⟩

namespace Arena

variable {a b lo : Arena}

/-- All objects of an arena. -/
def region (a : Arena) : Region := ⟨a.HasNode, a.HasList, a.HasRepository⟩

/-- The objects of an arena that an earlier one does not hold. -/
def since (a lo : Arena) : Region :=
  ⟨fun id => ¬lo.HasNode id ∧ a.HasNode id, fun id => ¬lo.HasList id ∧ a.HasList id,
    fun id => ¬lo.HasRepository id ∧ a.HasRepository id⟩

/-- The objects of a region refer only to objects of the region. -/
structure ClosedIn (a : Arena) (ρ : Region) : Prop where
  node : ∀ id node, a.node id = .ok node → ρ.nodes id → node.RefersInto ρ
  list : ∀ id items, a.list id = .ok items → ρ.lists id → ∀ item ∈ items, ρ.nodes item
  repository : ∀ id repository, a.repository id = .ok repository → ρ.repositories id → repository.RefersInto ρ

/-- Every id stored in an arena is in range. -/
def Closed (a : Arena) : Prop := a.ClosedIn a.region

/-- Following what the objects of a region refer to does not lead out of it. A parent is not followed. -/
structure StaysIn (a : Arena) (ρ : Region) : Prop where
  node : ∀ id node, a.node id = .ok node → ρ.nodes id → node.body.RefersInto ρ
  list : ∀ id items, a.list id = .ok items → ρ.lists id → ∀ item ∈ items, ρ.nodes item
  repository : ∀ id r, a.repository id = .ok r → ρ.repositories id → r.RefersInto ρ

/-- Following does not lead out of a region that is closed. -/
theorem ClosedIn.staysIn (h : a.ClosedIn ρ) : a.StaysIn ρ :=
  ⟨fun id node hn hid => (h.node id node hn hid).2, h.list, h.repository⟩

/-- The objects of an arena are objects of what extends it. -/
theorem Extends.within (h : a.Extends b) : a.region.Within b.region :=
  ⟨fun _ hid => h.hasNode hid, fun _ hid => h.hasList hid, fun _ hid => h.hasRepository hid⟩

/-- What was added is a matter of how much there is. -/
theorem since_congr (hn : b.nodes.size = a.nodes.size) (hl : b.lists.size = a.lists.size)
    (hr : b.repositories.size = a.repositories.size) (lo : Arena) : b.since lo = a.since lo := by
  simp only [since, HasNode, HasList, HasRepository, hn, hl, hr]

/-- What was added is in the arena. -/
theorem since_within_region (a lo : Arena) : (a.since lo).Within a.region := ⟨fun _ h => h.2, fun _ h => h.2, fun _ h => h.2⟩

/-- What was added after more was there was added after less. -/
theorem since_within {lo' : Arena} (h : lo.region.Within lo'.region) : (a.since lo').Within (a.since lo) :=
  ⟨fun id hid => ⟨fun hlo => hid.1 (h.nodes id hlo), hid.2⟩, fun id hid => ⟨fun hlo => hid.1 (h.lists id hlo), hid.2⟩,
    fun id hid => ⟨fun hlo => hid.1 (h.repositories id hlo), hid.2⟩⟩

/-! ## What the empty arena holds -/

/-- The empty arena has no nodes. -/
theorem not_hasNode_empty (id : NodeId) : ¬HasNode {} id := Nat.not_lt_zero _

/-- The empty arena has no lists. -/
theorem not_hasList_empty (id : ListId) : ¬HasList {} id := Nat.not_lt_zero _

/-- The empty arena has no repositories. -/
theorem not_hasRepository_empty (id : RepositoryId) : ¬HasRepository {} id := Nat.not_lt_zero _

/-- The empty arena is closed. -/
theorem closed_empty : Closed {} :=
  ⟨fun id _ _ h => absurd h (not_hasNode_empty id), fun id _ _ h => absurd h (not_hasList_empty id),
    fun id _ _ h => absurd h (not_hasRepository_empty id)⟩

/-- Whether an arena is closed is read off its nodes, lists and repositories. -/
theorem closed_iff : a.Closed ↔ (∀ node ∈ a.nodes, node.RefersInto a.region) ∧
    (∀ items ∈ a.lists, ∀ item ∈ items, a.HasNode item) ∧ ∀ r ∈ a.repositories, r.RefersInto a.region := by
  constructor
  · intro h
    refine ⟨?_, ?_, ?_⟩
    · intro node hn
      obtain ⟨i, hi, rfl⟩ := Array.mem_iff_getElem.1 hn
      exact h.node ⟨i⟩ _ (node_eq_ok.2 (Array.getElem?_eq_getElem hi)) hi
    · intro items hl
      obtain ⟨i, hi, rfl⟩ := Array.mem_iff_getElem.1 hl
      exact h.list ⟨i⟩ _ (list_eq_ok.2 (Array.getElem?_eq_getElem hi)) hi
    · intro r hr
      obtain ⟨i, hi, rfl⟩ := Array.mem_iff_getElem.1 hr
      exact h.repository ⟨i⟩ _ (repository_eq_ok.2 (Array.getElem?_eq_getElem hi)) hi
  · rintro ⟨hn, hl, hr⟩
    exact ⟨fun id node h _ => hn node (Array.mem_of_getElem? (node_eq_ok.1 h)),
      fun id items h _ => hl items (Array.mem_of_getElem? (list_eq_ok.1 h)),
      fun id r h _ => hr r (Array.mem_of_getElem? (repository_eq_ok.1 h))⟩

/-! ## Reading closed arenas -/

/-- What a node of a closed arena stores is in range. -/
theorem Closed.refersInto (h : a.Closed) {id : NodeId} {node : Node} (hn : a.node id = .ok node) :
    node.RefersInto a.region :=
  h.node id node hn (hasNode_of_node hn)

/-- The items of the lists of a closed arena are there. -/
theorem Closed.hasNode_item (h : a.Closed) {id : ListId} {items : List NodeId} (hl : a.list id = .ok items)
    {item : NodeId} (hi : item ∈ items) : a.HasNode item :=
  h.list id items hl (hasList_of_list hl) item hi

/-- The repository in which an include of a region was declared belongs to the region, if following does not lead out of it. -/
theorem StaysIn.repositories_declared (h : a.StaysIn ρ) {id : NodeId} (hid : ρ.nodes id) {i : Include} {r : RepositoryId}
    (hi : a.inclusion id = .ok (some i)) (hr : i.repository = some r) : ρ.repositories r := by
  obtain ⟨node, hn, hb⟩ := inclusion_eq_some.1 hi
  have hrefers := h.node id node hn hid
  rw [hb] at hrefers
  exact hrefers.1 r hr

/-- The repository that an include of a closed arena was declared in is there. -/
theorem Closed.hasRepository_declared (h : a.Closed) {id : NodeId} {i : Include} {r : RepositoryId}
    (hi : a.inclusion id = .ok (some i)) (hr : i.repository = some r) : a.HasRepository r := by
  obtain ⟨node, hn, -⟩ := inclusion_eq_ok.1 hi
  exact (ClosedIn.staysIn h).repositories_declared (hasNode_of_node hn) hi hr

/-- The target of an include of a closed arena is there. -/
theorem Closed.hasList_target (h : a.Closed) {id : NodeId} {i : Include} {t : ListId}
    (hi : a.inclusion id = .ok (some i)) (ht : i.target? = some t) : a.HasList t := by
  obtain ⟨node, hn, hb⟩ := inclusion_eq_some.1 hi
  have hrefers := (h.refersInto hn).2
  rw [hb] at hrefers
  exact hrefers.2 t ht

/-- The repository around one of a closed arena is there. -/
theorem Closed.hasRepository_parent (h : a.Closed) {id p : RepositoryId} {r : Repository}
    (hr : a.repository id = .ok r) (hp : r.parent = some p) : a.HasRepository p :=
  (h.repository id r hr (hasRepository_of_repository hr)).1 p hp

/-- What was added to a closed arena may refer to itself alone for the whole to be closed. -/
theorem Closed.of_since (h : a.Closed) (hx : a.Extends b) (hs : b.ClosedIn (b.since a)) : b.Closed := by
  have hsince := b.since_within_region a
  refine ⟨?_, ?_, ?_⟩
  · intro id node hn hid
    by_cases ha : a.HasNode id
    · obtain ⟨old, ho⟩ := ha.node_ok
      rw [hx.node id old ho, Except.ok.injEq] at hn
      exact hn ▸ (h.node id old ho ha).mono hx.within
    · exact (hs.node id node hn ⟨ha, hid⟩).mono hsince
  · intro id items hl hid item hi
    by_cases ha : a.HasList id
    · obtain ⟨old, ho⟩ := ha.list_ok
      rw [hx.list id old ho, Except.ok.injEq] at hl
      exact hx.hasNode (h.list id old ho ha item (hl ▸ hi))
    · exact (hs.list id items hl ⟨ha, hid⟩ item hi).2
  · intro id r hr hid
    by_cases ha : a.HasRepository id
    · obtain ⟨old, ho⟩ := ha.repository_ok
      rw [hx.repository id old ho, Except.ok.injEq] at hr
      exact hr ▸ (h.repository id old ho ha).mono hx.within
    · exact (hs.repository id r hr ⟨ha, hid⟩).mono hsince

/-- A closed region stays closed when objects are added outside it. -/
theorem ClosedIn.extends (h : a.ClosedIn ρ) (hx : a.Extends b) (hρ : ρ.Within a.region) : b.ClosedIn ρ := by
  refine ⟨?_, ?_, ?_⟩
  · intro id node hn hid
    obtain ⟨old, ho⟩ := (show a.HasNode id from hρ.nodes id hid).node_ok
    rw [hx.node id old ho, Except.ok.injEq] at hn
    exact h.node id node (hn ▸ ho) hid
  · intro id items hl hid
    obtain ⟨old, ho⟩ := (show a.HasList id from hρ.lists id hid).list_ok
    rw [hx.list id old ho, Except.ok.injEq] at hl
    exact h.list id items (hl ▸ ho) hid
  · intro id r hr hid
    obtain ⟨old, ho⟩ := (show a.HasRepository id from hρ.repositories id hid).repository_ok
    rw [hx.repository id old ho, Except.ok.injEq] at hr
    exact h.repository id r (hr ▸ ho) hid

/-! ## Writing into closed regions -/

/-- Allocation keeps a region closed that grows at most by the new object, whose ids it holds. -/
theorem ClosedIn.allocNode (h : a.ClosedIn ρ) (hw : ρ.Within σ) {node : Node} (hn : node.RefersInto σ)
    (hσ : ∀ id, σ.nodes id → ρ.nodes id ∨ id = (a.allocNode node).1) (hl : ∀ id, σ.lists id → ρ.lists id)
    (hr : ∀ id, σ.repositories id → ρ.repositories id) : (a.allocNode node).2.ClosedIn σ := by
  refine ⟨?_, ?_, ?_⟩
  · intro id m hm hid
    rcases node_allocNode.1 hm with hm | ⟨-, rfl⟩
    · rcases hσ id hid with hid | rfl
      · exact (h.node id m hm hid).mono hw
      · exact absurd (hasNode_of_node hm) (a.not_hasNode_allocNode node)
    · exact hn
  · intro id items hm hid item hi
    exact hw.nodes _ (h.list id items hm (hl id hid) item hi)
  · intro id r hm hid
    exact (h.repository id r hm (hr id hid)).mono hw

/-- A new list of nodes of the region keeps it closed, with the list in it. -/
theorem ClosedIn.allocList (h : a.ClosedIn ρ) (hw : ρ.Within σ) {items : List NodeId} (hi : ∀ item ∈ items, σ.nodes item)
    (hn : ∀ id, σ.nodes id → ρ.nodes id) (hσ : ∀ id, σ.lists id → ρ.lists id ∨ id = (a.allocList items).1)
    (hr : ∀ id, σ.repositories id → ρ.repositories id) : (a.allocList items).2.ClosedIn σ := by
  refine ⟨?_, ?_, ?_⟩
  · intro id m hm hid
    exact (h.node id m hm (hn id hid)).mono hw
  · intro id l hm hid item hil
    rcases list_allocList.1 hm with hm | ⟨-, rfl⟩
    · rcases hσ id hid with hid | rfl
      · exact hw.nodes _ (h.list id l hm hid item hil)
      · exact absurd (hasList_of_list hm) (a.not_hasList_allocList items)
    · exact hi item hil
  · intro id r hm hid
    exact (h.repository id r hm (hr id hid)).mono hw

/-- A new repository inside one of the region keeps it closed, with the repository in it. -/
theorem ClosedIn.allocRepository (h : a.ClosedIn ρ) (hw : ρ.Within σ) {parent : Option RepositoryId}
    (hp : ∀ p, parent = some p → σ.repositories p) (hn : ∀ id, σ.nodes id → ρ.nodes id)
    (hl : ∀ id, σ.lists id → ρ.lists id)
    (hσ : ∀ id, σ.repositories id → ρ.repositories id ∨ id = (a.allocRepository parent).1) :
    (a.allocRepository parent).2.ClosedIn σ := by
  refine ⟨?_, ?_, ?_⟩
  · intro id m hm hid
    exact (h.node id m hm (hn id hid)).mono hw
  · intro id items hm hid item hi
    exact hw.nodes _ (h.list id items hm (hl id hid) item hi)
  · intro id r hm hid
    rcases repository_allocRepository.1 hm with hm | ⟨-, rfl⟩
    · rcases hσ id hid with hid | rfl
      · exact (h.repository id r hm hid).mono hw
      · exact absurd (hasRepository_of_repository hm) (a.not_hasRepository_allocRepository parent)
    · exact ⟨hp, fun entry he => absurd he List.not_mem_nil⟩

/-- A node may be replaced by one that refers into the region. -/
theorem ClosedIn.setNode (h : a.ClosedIn ρ) {id : NodeId} {node : Node} (hn : node.RefersInto ρ)
    (hb : a.setNode id node = .ok b) : b.ClosedIn ρ := by
  obtain ⟨-, hl, hr, -, hnode⟩ := setNode_eq_ok hb
  refine ⟨?_, ?_, ?_⟩
  · intro m n hm hid
    rw [hnode] at hm
    split at hm
    · cases hm
      exact hn
    · exact h.node m n hm hid
  · intro l items hm
    rw [list_congr hl] at hm
    exact h.list l items hm
  · intro r q hm
    rw [repository_congr hr] at hm
    exact h.repository r q hm

/-- A list may be given other nodes of the region. -/
theorem ClosedIn.setList (h : a.ClosedIn ρ) {id : ListId} {items : List NodeId} (hi : ∀ item ∈ items, ρ.nodes item)
    (hb : a.setList id items = .ok b) : b.ClosedIn ρ := by
  obtain ⟨-, hn, hr, -, hlist⟩ := setList_eq_ok hb
  refine ⟨?_, ?_, ?_⟩
  · intro m n hm
    rw [node_congr hn] at hm
    exact h.node m n hm
  · intro l xs hm hid
    rw [hlist] at hm
    split at hm
    · cases hm
      exact hi
    · exact h.list l xs hm hid
  · intro r q hm
    rw [repository_congr hr] at hm
    exact h.repository r q hm

/-- A repository may be given an entry whose list is in the region. -/
theorem ClosedIn.insertEntry (h : a.ClosedIn ρ) {id : RepositoryId} {key : String} {list : ListId} (hl : ρ.lists list)
    (hb : a.insertEntry id key list = .ok b) : b.ClosedIn ρ := by
  obtain ⟨hn, hlists, -, old, hold, hrepo⟩ := insertEntry_eq_ok hb
  refine ⟨?_, ?_, ?_⟩
  · intro m n hm
    rw [node_congr hn] at hm
    exact h.node m n hm
  · intro l xs hm
    rw [list_congr hlists] at hm
    exact h.list l xs hm
  · intro r q hm hid
    rw [hrepo] at hm
    split at hm
    · rename_i hrid
      cases hm
      have ho := h.repository id old hold (hrid ▸ hid)
      refine ⟨ho.1, ?_⟩
      intro entry he
      rcases Keyed.mem_put he with he | rfl
      · exact ho.2 entry he
      · exact hl
    · exact h.repository r q hm hid

/-! ## Writing into closed arenas -/

/-- Which objects there are depends on their numbers. -/
theorem region_congr (hn : b.nodes.size = a.nodes.size) (hl : b.lists.size = a.lists.size)
    (hr : b.repositories.size = a.repositories.size) : b.region = a.region := by
  simp only [region, Region.mk.injEq, funext_iff, HasNode, HasList, HasRepository, hn, hl, hr, implies_true, and_self]

section

variable (h : a.Closed)
include h

/-- A new node that refers to what is there keeps the arena closed. -/
theorem Closed.allocNode {node : Node} (hn : node.RefersInto a.region) : (a.allocNode node).2.Closed :=
  have hw := (extends_allocNode a node).within
  ClosedIn.allocNode h hw (hn.mono hw) (fun _ => hasNode_allocNode.1) (fun _ h => h) (fun _ h => h)

/-- A new list of nodes that are there keeps the arena closed. -/
theorem Closed.allocList {items : List NodeId} (hi : ∀ item ∈ items, a.HasNode item) : (a.allocList items).2.Closed :=
  have hw := (extends_allocList a items).within
  ClosedIn.allocList h hw (fun item hm => hw.nodes item (hi item hm)) (fun _ h => h) (fun _ => hasList_allocList.1)
    (fun _ h => h)

/-- A new repository inside one that is there keeps the arena closed. -/
theorem Closed.allocRepository {parent : Option RepositoryId} (hp : ∀ p, parent = some p → a.HasRepository p) :
    (a.allocRepository parent).2.Closed :=
  have hw := (extends_allocRepository a parent).within
  ClosedIn.allocRepository h hw (fun p hm => hw.repositories p (hp p hm)) (fun _ h => h) (fun _ h => h)
    fun _ => hasRepository_allocRepository.1

/-- Replacing a node by one that refers to what is there keeps the arena closed. -/
theorem Closed.setNode {id : NodeId} {node : Node} (hn : node.RefersInto a.region) (hb : a.setNode id node = .ok b) :
    b.Closed := by
  obtain ⟨-, hl, hr, hs, -⟩ := setNode_eq_ok hb
  unfold Closed
  rw [region_congr hs (congrArg Array.size hl) (congrArg Array.size hr)]
  exact ClosedIn.setNode h hn hb

/-- Giving a list other nodes that are there keeps the arena closed. -/
theorem Closed.setList {id : ListId} {items : List NodeId} (hi : ∀ item ∈ items, a.HasNode item)
    (hb : a.setList id items = .ok b) : b.Closed := by
  obtain ⟨-, hn, hr, hs, -⟩ := setList_eq_ok hb
  unfold Closed
  rw [region_congr (congrArg Array.size hn) hs (congrArg Array.size hr)]
  exact ClosedIn.setList h hi hb

/-- An entry whose list is there keeps the arena closed. -/
theorem Closed.insertEntry {id : RepositoryId} {key : String} {list : ListId} (hl : a.HasList list)
    (hb : a.insertEntry id key list = .ok b) : b.Closed := by
  obtain ⟨hn, hlists, hs, -⟩ := insertEntry_eq_ok hb
  unfold Closed
  rw [region_congr (congrArg Array.size hn) (congrArg Array.size hlists) hs]
  exact ClosedIn.insertEntry h hl hb

end

end Arena

end GrammarLinker
