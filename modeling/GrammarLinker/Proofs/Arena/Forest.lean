import GrammarLinker.Proofs.Resolution.Change

/-!
# Containment

A list holds its items, and a rule owns the list of its children. Containment is a forest (`Arena.Forest`) when a node is held once at
most, a list is owned once at most and never stands for a name or for an include if it is owned, and when the parent of a node that is
held is the rule that owns the list which holds it, and is older than the node.

Like closedness it is said of a region (`Arena.ForestIn`), so that what is added to an arena can be looked at alone
(`Arena.Forest.of_since`). A write keeps it when the nodes that are put into a list are loose (`Arena.Loose`) and the list that a new
rule owns is blank (`Arena.Blank`).
-/

namespace GrammarLinker

/-- The rule that a node has as its parent. -/
def Arena.parent? (a : Arena) (id : NodeId) : Option NodeId := a.nodes[id.index]?.bind Node.parent

namespace Arena

variable {a b lo : Arena} {ρ : Region}

/-- A list holds a node. -/
def Holds (a : Arena) (list : ListId) (id : NodeId) : Prop := ∃ items, a.list list = .ok items ∧ id ∈ items

/-- A rule owns the list of its children. -/
def Owns (a : Arena) (id : NodeId) (list : ListId) : Prop := ∃ node, a.node id = .ok node ∧ node.body = .rule list

/-- No rule of a region owns a list. -/
def FreeIn (a : Arena) (ρ : Region) (list : ListId) : Prop := ∀ id, ρ.nodes id → ¬a.Owns id list

/-- The lists and nodes of a region contain each other as in a forest. -/
structure ForestIn (a : Arena) (ρ : Region) : Prop where
  once : ∀ list items, ρ.lists list → a.list list = .ok items → items.Nodup
  apart : ∀ list list' id, ρ.lists list → ρ.lists list' → a.Holds list id → a.Holds list' id → list = list'
  owner : ∀ list p q, ρ.nodes p → ρ.nodes q → a.Owns p list → a.Owns q list → p = q
  parent : ∀ list id p, ρ.lists list → ρ.nodes p → a.Holds list id → (a.parent? id = some p ↔ a.Owns p list)
  later : ∀ list id p, ρ.lists list → ρ.nodes p → a.Holds list id → a.Owns p list → p.index < id.index
  entries : ∀ id r, ρ.repositories id → a.repository id = .ok r → ∀ entry ∈ r.entries, a.FreeIn ρ entry.2
  targets : ∀ id target, ρ.nodes id → a.StandsFor id target → a.FreeIn ρ target

/-- The lists and nodes of an arena contain each other as in a forest. -/
def Forest (a : Arena) : Prop := a.ForestIn a.region

/-- The lists of a region hold a node once at most, all together. -/
structure HoldsOnceIn (a : Arena) (ρ : Region) : Prop where
  once : ∀ list items, ρ.lists list → a.list list = .ok items → items.Nodup
  apart : ∀ list list' id, ρ.lists list → ρ.lists list' → a.Holds list id → a.Holds list' id → list = list'

/-- A node stands in one list at most, and once. -/
def HoldsOnce (a : Arena) : Prop := a.HoldsOnceIn a.region

/-- In a forest a node stands in one list at most, and once. -/
theorem ForestIn.holdsOnceIn (h : a.ForestIn ρ) : a.HoldsOnceIn ρ := ⟨h.once, h.apart⟩

/-- What is a forest in a region is one in a part of it. -/
theorem ForestIn.mono {ρ ω : Region} (h : a.ForestIn ρ) (hw : ω.Within ρ) : a.ForestIn ω where
  once list items hl hitems := h.once list items (hw.lists list hl) hitems
  apart list other id hl hl' hh hh' := h.apart list other id (hw.lists list hl) (hw.lists other hl') hh hh'
  owner list p q hp hq ho ho' := h.owner list p q (hw.nodes p hp) (hw.nodes q hq) ho ho'
  parent list id p hl hp hh := h.parent list id p (hw.lists list hl) (hw.nodes p hp) hh
  later list id p hl hp hh ho := h.later list id p (hw.lists list hl) (hw.nodes p hp) hh ho
  entries id r hid hr entry he p hp := h.entries id r (hw.repositories id hid) hr entry he p (hw.nodes p hp)
  targets id target hid hs p hp := h.targets id target (hw.nodes id hid) hs p (hw.nodes p hp)

/-! ## Reading -/

/-- The parent is read off the node. -/
theorem parent?_of_node {id : NodeId} {node : Node} (h : a.node id = .ok node) : a.parent? id = node.parent := by
  unfold parent?
  rw [node_eq_ok.1 h, Option.bind_some]

/-- Parents depend on the nodes alone. -/
theorem parent?_congr (h : b.nodes = a.nodes) (id : NodeId) : b.parent? id = a.parent? id := by
  unfold parent?
  rw [h]

/-- A list that holds a node is there. -/
theorem Holds.hasList {list : ListId} {id : NodeId} (h : a.Holds list id) : a.HasList list := by
  obtain ⟨items, hl, -⟩ := h
  exact hasList_of_list hl

/-- A rule that owns a list is there. -/
theorem Owns.hasNode {id : NodeId} {list : ListId} (h : a.Owns id list) : a.HasNode id := by
  obtain ⟨node, hn, -⟩ := h
  exact hasNode_of_node hn

/-- An include that stands for a list is there. -/
theorem StandsFor.hasNode {id : NodeId} {target : ListId} (h : a.StandsFor id target) : a.HasNode id := by
  obtain ⟨i, hi, -⟩ := h
  obtain ⟨node, hn, -⟩ := inclusion_eq_ok.1 hi
  exact hasNode_of_node hn

/-- What lists hold depends on the lists alone. -/
theorem holds_congr (h : b.lists = a.lists) {list : ListId} {id : NodeId} : b.Holds list id ↔ a.Holds list id := by
  unfold Holds
  rw [list_congr h]

/-- Who owns a list depends on the nodes alone. -/
theorem owns_congr (h : b.nodes = a.nodes) {id : NodeId} {list : ListId} : b.Owns id list ↔ a.Owns id list := by
  unfold Owns
  rw [node_congr h]

/-- What includes stand for depends on the nodes alone. -/
theorem standsFor_congr (h : b.nodes = a.nodes) {id : NodeId} {target : ListId} : b.StandsFor id target ↔ a.StandsFor id target := by
  unfold StandsFor inclusion
  rw [node_congr h]

section

variable (h : a.StaysIn ρ)
include h

/-- What a list holds belongs to a region that is not left by following, if the list does, and so do the other things that are
referred to. -/
theorem StaysIn.nodes_holds {list : ListId} {id : NodeId} (hl : ρ.lists list) (hh : a.Holds list id) : ρ.nodes id := by
  obtain ⟨items, hitems, hid⟩ := hh
  exact h.list list items hitems hl id hid

/-- A rule of the region owns a list of the region. -/
theorem StaysIn.lists_owns {id : NodeId} {list : ListId} (hid : ρ.nodes id) (ho : a.Owns id list) : ρ.lists list := by
  obtain ⟨node, hn, hb⟩ := ho
  have hrefers := h.node id node hn hid
  rw [hb] at hrefers
  exact hrefers

/-- An include of the region stands for a list of the region. -/
theorem StaysIn.lists_standsFor {id : NodeId} {target : ListId} (hid : ρ.nodes id) (hs : a.StandsFor id target) : ρ.lists target := by
  obtain ⟨i, hi, ht⟩ := hs
  obtain ⟨node, hn, hb⟩ := inclusion_eq_some.1 hi
  have hrefers := h.node id node hn hid
  rw [hb] at hrefers
  exact hrefers.2 target ht

end

section

variable (h : a.ClosedIn ρ)
include h

/-- A list of a closed region holds nodes of the region. -/
theorem ClosedIn.nodes_holds {list : ListId} {id : NodeId} (hl : ρ.lists list) (hh : a.Holds list id) : ρ.nodes id :=
  h.staysIn.nodes_holds hl hh

/-- A rule of a closed region owns a list of the region. -/
theorem ClosedIn.lists_owns {id : NodeId} {list : ListId} (hid : ρ.nodes id) (ho : a.Owns id list) : ρ.lists list :=
  h.staysIn.lists_owns hid ho

/-- An include of a closed region stands for a list of the region. -/
theorem ClosedIn.lists_standsFor {id : NodeId} {target : ListId} (hid : ρ.nodes id) (hs : a.StandsFor id target) : ρ.lists target :=
  h.staysIn.lists_standsFor hid hs

/-- The parent of a node of a closed region is in the region. -/
theorem ClosedIn.nodes_parent? {id p : NodeId} (hid : ρ.nodes id) (hp : a.parent? id = some p) : ρ.nodes p := by
  obtain ⟨node, hn, hparent⟩ := Option.bind_eq_some_iff.1 hp
  exact (h.node id node (node_eq_ok.2 hn) hid).1 p hparent

/-- A list outside a closed region is owned by no rule of it. -/
theorem ClosedIn.freeIn {list : ListId} (hl : ¬ρ.lists list) : a.FreeIn ρ list :=
  fun _ hid ho => hl (h.lists_owns hid ho)

end

/-! ## What is written -/

/-- Nodes of a region that no list holds may be put into a list whose owner is their parent. -/
structure Loose (a : Arena) (ρ : Region) (parent : Option NodeId) (items : List NodeId) : Prop where
  nodes : ∀ item ∈ items, ρ.nodes item
  nodup : items.Nodup
  parent : ∀ item ∈ items, a.parent? item = parent
  unheld : ∀ item ∈ items, ∀ list, ρ.lists list → ¬a.Holds list item

/-- No nodes at all are loose. -/
theorem loose_nil (a : Arena) (ρ : Region) (parent : Option NodeId) : a.Loose ρ parent [] :=
  ⟨nofun, List.nodup_nil, nofun, nofun⟩

/-- An empty list that nothing in a region refers to. -/
structure Blank (a : Arena) (ρ : Region) (list : ListId) : Prop where
  empty : ∀ id, ¬a.Holds list id
  free : a.FreeIn ρ list
  entries : ∀ id r, ρ.repositories id → a.repository id = .ok r → ∀ entry ∈ r.entries, entry.2 ≠ list
  targets : ∀ id target, ρ.nodes id → a.StandsFor id target → target ≠ list

/-- A new rule owns the list that it was made with, and the others own what they did. -/
theorem owns_allocNode {node : Node} {id : NodeId} {list : ListId} :
    (a.allocNode node).2.Owns id list ↔ a.Owns id list ∨ id = (a.allocNode node).1 ∧ node.body = .rule list := by
  constructor
  · rintro ⟨m, hm, hb⟩
    rcases node_allocNode.1 hm with hm | ⟨rfl, rfl⟩
    · exact .inl ⟨m, hm, hb⟩
    · exact .inr ⟨rfl, hb⟩
  · rintro (⟨m, hm, hb⟩ | ⟨rfl, hb⟩)
    · exact ⟨m, node_allocNode.2 (.inl hm), hb⟩
    · exact ⟨node, node_allocNode_self _ _, hb⟩

/-- A new node changes the parent of no other one. -/
theorem parent?_allocNode {node : Node} {id : NodeId} (h : a.HasNode id) : (a.allocNode node).2.parent? id = a.parent? id := by
  obtain ⟨m, hm⟩ := h.node_ok
  rw [parent?_of_node hm, parent?_of_node (node_allocNode.2 (.inl hm))]

/-- An include that stands for a list did so before, or it is the new node. -/
theorem standsFor_allocNode {node : Node} {id : NodeId} {target : ListId} (h : (a.allocNode node).2.StandsFor id target) :
    a.StandsFor id target ∨ ∃ i, node.inclusion? = some i ∧ i.target? = some target := by
  obtain ⟨i, hi, ht⟩ := h
  obtain ⟨m, hm, hmi⟩ := inclusion_eq_ok.1 hi
  rcases node_allocNode.1 hm with hm | ⟨-, rfl⟩
  · exact .inl ⟨i, inclusion_eq_ok.2 ⟨m, hm, hmi⟩, ht⟩
  · exact .inr ⟨i, hmi, ht⟩

/-- A new list holds its items, and the others hold what they did. -/
theorem holds_allocList {items : List NodeId} {list : ListId} {id : NodeId} :
    (a.allocList items).2.Holds list id ↔ a.Holds list id ∨ list = (a.allocList items).1 ∧ id ∈ items := by
  constructor
  · rintro ⟨l, hl, hid⟩
    rcases list_allocList.1 hl with hl | ⟨rfl, rfl⟩
    · exact .inl ⟨l, hl, hid⟩
    · exact .inr ⟨rfl, hid⟩
  · rintro (⟨l, hl, hid⟩ | ⟨rfl, hid⟩)
    · exact ⟨l, list_allocList.2 (.inl hl), hid⟩
    · exact ⟨items, list_allocList_self _ _, hid⟩

/-- A list that is written holds the items written, and the others hold what they did. -/
theorem holds_setList {list : ListId} {items : List NodeId} (hb : a.setList list items = .ok b) {l : ListId} {id : NodeId} :
    b.Holds l id ↔ if l = list then id ∈ items else a.Holds l id := by
  obtain ⟨-, -, -, -, hput⟩ := setList_eq_ok hb
  unfold Holds
  rw [hput]
  split
  · simp
  · rfl

section

variable (h : a.ForestIn (a.since lo)) (hc : a.ClosedIn (a.since lo))
include h

/-- A node may be added that is pending, or a rule whose list is blank. -/
theorem ForestIn.allocNode (hc : a.ClosedIn (a.since lo)) {node : Node}
    (hrule : ∀ list, node.body = .rule list → a.Blank (a.since lo) list)
    (hpending : ∀ i, node.inclusion? = some i → i.target? = none) :
    (a.allocNode node).2.ForestIn ((a.allocNode node).2.since lo) := by
  have hold : ∀ {id list}, ((a.allocNode node).2.since lo).nodes id → (a.allocNode node).2.Owns id list →
      (a.since lo).nodes id ∧ a.Owns id list ∨ node.body = .rule list := by
    rintro id list hid ho
    rcases owns_allocNode.1 ho with ho | ⟨-, hb⟩
    · exact .inl ⟨⟨hid.1, ho.hasNode⟩, ho⟩
    · exact .inr hb
  have hnew : ∀ {id target}, ((a.allocNode node).2.since lo).nodes id → (a.allocNode node).2.StandsFor id target →
      (a.since lo).nodes id ∧ a.StandsFor id target := by
    intro id target hid hs
    rcases standsFor_allocNode hs with hs | ⟨i, hi, ht⟩
    · exact ⟨⟨hid.1, hs.hasNode⟩, hs⟩
    · rw [hpending i hi] at ht
      cases ht
  refine ⟨h.once, h.apart, ?_, ?_, ?_, ?_, ?_⟩
  · intro list p q hp hq hop hoq
    rcases owns_allocNode.1 hop with hop' | ⟨rfl, hb⟩
    · rcases hold hq hoq with ⟨hq', hoq'⟩ | hb
      · exact h.owner list p q ⟨hp.1, hop'.hasNode⟩ hq' hop' hoq'
      · exact absurd hop' ((hrule list hb).free p ⟨hp.1, hop'.hasNode⟩)
    · rcases owns_allocNode.1 hoq with hoq' | ⟨rfl, -⟩
      · exact absurd hoq' ((hrule list hb).free q ⟨hq.1, hoq'.hasNode⟩)
      · rfl
  · intro list id p hl hp hh
    have hid := hc.nodes_holds hl hh
    rw [parent?_allocNode hid.2, owns_allocNode]
    constructor
    · intro hpar
      have hp' := hc.nodes_parent? hid hpar
      exact .inl ((h.parent list id p hl hp' hh).1 hpar)
    · rintro (ho | ⟨-, hb⟩)
      · exact (h.parent list id p hl ⟨hp.1, ho.hasNode⟩ hh).2 ho
      · exact absurd hh ((hrule list hb).empty id)
  · intro list id p hl hp hh ho
    rcases hold hp ho with ⟨hp', ho'⟩ | hb
    · exact h.later list id p hl hp' hh ho'
    · exact absurd hh ((hrule list hb).empty id)
  · intro id r hid hr entry he p hp ho
    rcases hold hp ho with ⟨hp', ho'⟩ | hb
    · exact h.entries id r hid hr entry he p hp' ho'
    · exact (hrule _ hb).entries id r hid hr entry he rfl
  · intro id target hid hs p hp ho
    obtain ⟨hid', hs'⟩ := hnew hid hs
    rcases hold hp ho with ⟨hp', ho'⟩ | hb
    · exact h.targets id target hid' hs' p hp' ho'
    · exact (hrule _ hb).targets id target hid' hs' rfl

/-- A list of loose nodes without a parent may be added. -/
theorem ForestIn.allocList (hc : a.ClosedIn (a.since lo)) {items : List NodeId} (hi : a.Loose (a.since lo) none items) :
    (a.allocList items).2.ForestIn ((a.allocList items).2.since lo) := by
  have hfree : a.FreeIn (a.since lo) (a.allocList items).1 := hc.freeIn fun hl => a.not_hasList_allocList items hl.2
  refine ⟨?_, ?_, h.owner, ?_, ?_, h.entries, h.targets⟩
  · intro list l hlist hl
    rcases list_allocList.1 hl with hl | ⟨-, rfl⟩
    · exact h.once list l ⟨hlist.1, hasList_of_list hl⟩ hl
    · exact hi.nodup
  · intro list list' id hl hl' hh hh'
    rcases holds_allocList.1 hh with hh | ⟨rfl, hid⟩ <;> rcases holds_allocList.1 hh' with hh' | ⟨rfl, hid'⟩
    · exact h.apart list list' id ⟨hl.1, hh.hasList⟩ ⟨hl'.1, hh'.hasList⟩ hh hh'
    · exact absurd hh (hi.unheld id hid' list ⟨hl.1, hh.hasList⟩)
    · exact absurd hh' (hi.unheld id hid list' ⟨hl'.1, hh'.hasList⟩)
    · rfl
  · intro list id p hl hp hh
    rcases holds_allocList.1 hh with hh | ⟨rfl, hid⟩
    · exact h.parent list id p ⟨hl.1, hh.hasList⟩ hp hh
    · refine iff_of_false ?_ (hfree p hp)
      show ¬a.parent? id = some p
      rw [hi.parent id hid]
      nofun
  · intro list id p hl hp hh ho
    rcases holds_allocList.1 hh with hh | ⟨rfl, hid⟩
    · exact h.later list id p ⟨hl.1, hh.hasList⟩ hp hh ho
    · exact absurd ho (hfree p hp)

/-- A repository may be added. -/
theorem ForestIn.allocRepository (parent : Option RepositoryId) :
    (a.allocRepository parent).2.ForestIn ((a.allocRepository parent).2.since lo) := by
  refine ⟨h.once, h.apart, h.owner, h.parent, h.later, ?_, h.targets⟩
  intro id r hid hr entry he
  rcases repository_allocRepository.1 hr with hr | ⟨-, rfl⟩
  · exact h.entries id r ⟨hid.1, hasRepository_of_repository hr⟩ hr entry he
  · exact absurd he List.not_mem_nil

/-- The list of a rule may be filled with loose nodes that have the rule as their parent and are younger. -/
theorem ForestIn.setList {list : ListId} {items : List NodeId} {owner : NodeId} (ho : a.Owns owner list)
    (howner : (a.since lo).nodes owner) (hi : a.Loose (a.since lo) (some owner) items)
    (hlater : ∀ item ∈ items, owner.index < item.index) (hb : a.setList list items = .ok b) : b.ForestIn (b.since lo) := by
  obtain ⟨-, hn, hr, hs, hput⟩ := setList_eq_ok hb
  rw [since_congr (congrArg Array.size hn) hs (congrArg Array.size hr)]
  have hfree : ∀ l, b.FreeIn (a.since lo) l ↔ a.FreeIn (a.since lo) l := fun l => by
    simp only [FreeIn, owns_congr hn]
  refine ⟨?_, ?_, ?_, ?_, ?_, ?_, ?_⟩
  · intro l xs hl hxs
    rw [hput] at hxs
    split at hxs
    · cases hxs
      exact hi.nodup
    · exact h.once l xs hl hxs
  · intro l l' id hl hl' hh hh'
    rw [holds_setList hb] at hh hh'
    split at hh <;> split at hh'
    · rename_i heq heq'
      exact heq.trans heq'.symm
    · exact absurd hh' (hi.unheld id hh l' hl')
    · exact absurd hh (hi.unheld id hh' l hl)
    · exact h.apart l l' id hl hl' hh hh'
  · intro l p q hp hq hop hoq
    exact h.owner l p q hp hq ((owns_congr hn).1 hop) ((owns_congr hn).1 hoq)
  · intro l id p hl hp hh
    rw [holds_setList hb] at hh
    rw [parent?_congr hn, owns_congr hn]
    split at hh
    · rename_i heq
      rw [hi.parent id hh, heq, Option.some.injEq]
      exact ⟨fun hop => hop ▸ ho, fun hop => h.owner list owner p howner hp ho hop⟩
    · exact h.parent l id p hl hp hh
  · intro l id p hl hp hh hop
    rw [holds_setList hb] at hh
    rw [owns_congr hn] at hop
    split at hh
    · rename_i heq
      exact h.owner list owner p howner hp ho (heq ▸ hop) ▸ hlater id hh
    · exact h.later l id p hl hp hh hop
  · intro id r hid hread entry he
    rw [repository_congr hr] at hread
    exact (hfree _).2 (h.entries id r hid hread entry he)
  · intro id target hid hs
    exact (hfree _).2 (h.targets id target hid ((standsFor_congr hn).1 hs))

/-- A repository may be given a list that no rule owns. -/
theorem ForestIn.insertEntry {id : RepositoryId} {key : String} {list : ListId} (hl : a.FreeIn (a.since lo) list)
    (hb : a.insertEntry id key list = .ok b) : b.ForestIn (b.since lo) := by
  obtain ⟨hn, hlists, hs, old, hold, hput⟩ := insertEntry_eq_ok hb
  rw [since_congr (congrArg Array.size hn) (congrArg Array.size hlists) hs]
  have hfree : ∀ l, b.FreeIn (a.since lo) l ↔ a.FreeIn (a.since lo) l := fun l => by
    simp only [FreeIn, owns_congr hn]
  refine ⟨?_, ?_, ?_, ?_, ?_, ?_, ?_⟩
  · intro l xs hl hxs
    rw [list_congr hlists] at hxs
    exact h.once l xs hl hxs
  · intro l l' m hl hl' hh hh'
    exact h.apart l l' m hl hl' ((holds_congr hlists).1 hh) ((holds_congr hlists).1 hh')
  · intro l p q hp hq hop hoq
    exact h.owner l p q hp hq ((owns_congr hn).1 hop) ((owns_congr hn).1 hoq)
  · intro l m p hl hp hh
    rw [parent?_congr hn, owns_congr hn]
    exact h.parent l m p hl hp ((holds_congr hlists).1 hh)
  · intro l m p hl hp hh hop
    exact h.later l m p hl hp ((holds_congr hlists).1 hh) ((owns_congr hn).1 hop)
  · intro m r hm hread entry he
    rw [hfree]
    rw [hput] at hread
    split at hread
    · rename_i heq
      cases hread
      rcases Keyed.mem_put he with he | rfl
      · exact h.entries m old hm (heq ▸ hold) entry he
      · exact hl
    · exact h.entries m r hm hread entry he
  · intro m target hm hs
    exact (hfree _).2 (h.targets m target hm ((standsFor_congr hn).1 hs))

end

/-- A list that is added is blank, as long as it is empty. -/
theorem blank_allocList (hc : a.ClosedIn (a.since lo)) : (a.allocList []).2.Blank ((a.allocList []).2.since lo) (a.allocList []).1 := by
  have hno : ∀ {list}, (a.since lo).lists list → list ≠ (a.allocList []).1 := by
    rintro list hl rfl
    exact a.not_hasList_allocList [] hl.2
  refine ⟨?_, fun id hid ho => hno (hc.lists_owns hid ho) rfl, ?_, fun id target hid hs => hno (hc.lists_standsFor hid hs)⟩
  · rintro id hh
    rcases holds_allocList.1 hh with hh | ⟨-, hid⟩
    · exact a.not_hasList_allocList [] hh.hasList
    · exact List.not_mem_nil hid
  · exact fun id r hid hr entry he => hno ((hc.repository id r hr hid).2 entry he)

/-! ## Resolution -/

section

variable {P : NodeId → ListId → Prop} (h : ResolvesBy P a b)
include h

/-- Resolution leaves what a list holds. -/
theorem ResolvesBy.holds {list : ListId} {id : NodeId} : b.Holds list id ↔ a.Holds list id := holds_congr h.lists

/-- Resolution leaves the parent of a node. -/
theorem ResolvesBy.parent? (id : NodeId) : b.parent? id = a.parent? id := by
  by_cases hid : a.HasNode id
  · obtain ⟨node, hn⟩ := hid.node_ok
    rw [parent?_of_node hn]
    rcases h.node id node hn with hb | ⟨target, -, -, hb⟩
    · exact parent?_of_node hb
    · rw [parent?_of_node hb, Node.parent_resolvedTo]
  · have hb : ¬b.HasNode id := fun hb => hid (h.hasNode.1 hb)
    simp only [Arena.parent?, Array.getElem?_eq_none (Nat.le_of_not_lt hid), Array.getElem?_eq_none (Nat.le_of_not_lt hb)]

/-- A rule stays what it is. -/
theorem ResolvesBy.owns {id : NodeId} {list : ListId} : b.Owns id list ↔ a.Owns id list := by
  constructor
  · rintro ⟨node, hn, hb⟩
    obtain ⟨old, ho, rfl | ⟨target, -, ⟨reference, hr⟩, rfl⟩⟩ := h.node_before hn
    · exact ⟨node, ho, hb⟩
    · obtain ⟨i, -, hi, -⟩ := Node.resolveTo?_of_pending hr target
      rw [hi] at hb
      cases hb
  · rintro ⟨node, hn, hb⟩
    rcases h.node id node hn with hn' | ⟨target, -, ⟨reference, hr⟩, -⟩
    · exact ⟨node, hn', hb⟩
    · obtain ⟨text, declared, hbody⟩ := Node.pending?_eq_some.1 hr
      rw [hbody] at hb
      cases hb

/-- Resolution makes no rule own a list. -/
theorem ResolvesBy.freeIn {list : ListId} : b.FreeIn ρ list ↔ a.FreeIn ρ list := by
  simp only [FreeIn, h.owns]

/-- Resolution leaves what lists hold. -/
theorem ResolvesBy.holdsOnceIn (ho : a.HoldsOnceIn ρ) : b.HoldsOnceIn ρ :=
  ⟨fun list items hl hitems => ho.once list items hl ((h.list list) ▸ hitems),
    fun list list' id hl hl' hh hh' => ho.apart list list' id hl hl' (h.holds.1 hh) (h.holds.1 hh')⟩

/-- Resolution puts no node into a second list. -/
theorem ResolvesBy.holdsOnce (ho : a.HoldsOnce) : b.HoldsOnce := by
  unfold HoldsOnce
  rw [h.region_eq]
  exact h.holdsOnceIn ho

/-- Resolution to lists that no rule owns leaves containment a forest. -/
theorem ResolvesBy.forestIn (hf : a.ForestIn ρ) (hP : ∀ id target, ρ.nodes id → P id target → a.FreeIn ρ target) : b.ForestIn ρ := by
  have hheld := h.holdsOnceIn hf.holdsOnceIn
  refine ⟨hheld.once, hheld.apart, ?_, ?_, ?_, ?_, ?_⟩
  · exact fun list p q hp hq hop hoq => hf.owner list p q hp hq (h.owns.1 hop) (h.owns.1 hoq)
  · intro list id p hl hp hh
    rw [h.parent?, h.owns]
    exact hf.parent list id p hl hp (h.holds.1 hh)
  · exact fun list id p hl hp hh ho => hf.later list id p hl hp (h.holds.1 hh) (h.owns.1 ho)
  · intro id r hid hr entry he
    exact h.freeIn.2 (hf.entries id r hid ((h.repository id) ▸ hr) entry he)
  · intro id target hid hs
    rcases h.standsFor_before hs with hs | ⟨hp, -⟩
    · exact h.freeIn.2 (hf.targets id target hid hs)
    · exact h.freeIn.2 (hP id target hid hp)

/-- Resolution to lists that no rule owns leaves the arena a forest. -/
theorem ResolvesBy.forest (hf : a.Forest) (hP : ∀ id target, P id target → a.FreeIn a.region target) : b.Forest := by
  unfold Forest
  rw [h.region_eq]
  exact h.forestIn hf fun id target _ => hP id target

end

/-! ## What is added -/

section

variable (hx : a.Extends b)
include hx

/-- A list that was there holds what it held. -/
theorem Extends.holds {list : ListId} {id : NodeId} (hl : a.HasList list) : b.Holds list id ↔ a.Holds list id := by
  obtain ⟨items, hitems⟩ := hl.list_ok
  unfold Holds
  rw [hx.list list items hitems, hitems]

/-- A rule that was there owns the list that it owned. -/
theorem Extends.owns {id : NodeId} {list : ListId} (hid : a.HasNode id) : b.Owns id list ↔ a.Owns id list := by
  obtain ⟨node, hn⟩ := hid.node_ok
  unfold Owns
  rw [hx.node id node hn, hn]

/-- A node that was there has the parent that it had. -/
theorem Extends.parent? {id : NodeId} (hid : a.HasNode id) : b.parent? id = a.parent? id := by
  obtain ⟨node, hn⟩ := hid.node_ok
  rw [parent?_of_node hn, parent?_of_node (hx.node id node hn)]

/-- An include that was there stands for what it stood for. -/
theorem Extends.standsFor {id : NodeId} {target : ListId} (hid : a.HasNode id) : b.StandsFor id target ↔ a.StandsFor id target := by
  obtain ⟨node, hn⟩ := hid.node_ok
  unfold StandsFor
  rw [inclusion_of_node hn, inclusion_of_node (hx.node id node hn)]

/-- A list of a closed arena is owned by nothing that is added and refers to itself alone. -/
theorem Extends.freeIn (hs : b.ClosedIn (b.since a)) {list : ListId} (hl : a.HasList list) (hf : a.FreeIn a.region list) :
    b.FreeIn b.region list := by
  intro p hp ho
  by_cases ha : a.HasNode p
  · exact hf p ha ((hx.owns ha).1 ho)
  · exact (hs.lists_owns ⟨ha, hp⟩ ho).1 hl

/-- A list that is added is owned by nothing that was there in a closed arena. -/
theorem Extends.freeIn_since (hc : a.Closed) {list : ListId} (hl : (b.since a).lists list) (hf : b.FreeIn (b.since a) list) :
    b.FreeIn b.region list := by
  intro p hp ho
  by_cases ha : a.HasNode p
  · exact hl.1 (hc.lists_owns ha ((hx.owns ha).1 ho))
  · exact hf p ⟨ha, hp⟩ ho

/-- What an old list holds was there, and it held it before. -/
theorem Extends.holds_old (hc : a.Closed) {list : ListId} {id : NodeId} (hl : a.HasList list) (hh : b.Holds list id) :
    a.Holds list id ∧ a.HasNode id :=
  have hold := (hx.holds hl).1 hh
  ⟨hold, hc.nodes_holds hl hold⟩

omit hx in
/-- What a new list holds is new, when what was added refers to itself alone. -/
theorem ClosedIn.holds_new (hs : b.ClosedIn (b.since a)) {list : ListId} {id : NodeId} (hl : ¬a.HasList list) (hh : b.Holds list id) :
    (b.since a).lists list ∧ ¬a.HasNode id :=
  have hnew := ⟨hl, hh.hasList⟩
  ⟨hnew, (hs.nodes_holds hnew hh).1⟩

/-- What the lists that were added hold may be looked at alone. -/
theorem HoldsOnce.of_since (ho : a.HoldsOnce) (hc : a.Closed) (hs : b.ClosedIn (b.since a)) (hadd : b.HoldsOnceIn (b.since a)) :
    b.HoldsOnce := by
  constructor
  · intro list items hl hitems
    by_cases ha : a.HasList list
    · obtain ⟨old, hold⟩ := ha.list_ok
      rw [hx.list list old hold, Except.ok.injEq] at hitems
      exact ho.once list items ha (hitems ▸ hold)
    · exact hadd.once list items ⟨ha, hl⟩ hitems
  · intro list list' id hl hl' hh hh'
    by_cases ha : a.HasList list <;> by_cases ha' : a.HasList list'
    · exact ho.apart list list' id ha ha' (hx.holds_old hc ha hh).1 (hx.holds_old hc ha' hh').1
    · exact absurd (hx.holds_old hc ha hh).2 (hs.holds_new ha' hh').2
    · exact absurd (hx.holds_old hc ha' hh').2 (hs.holds_new ha hh).2
    · exact hadd.apart list list' id ⟨ha, hl⟩ ⟨ha', hl'⟩ hh hh'

/-- What was added may be looked at alone, when it refers to itself alone. -/
theorem Forest.of_since (hf : a.Forest) (hc : a.Closed) (hs : b.ClosedIn (b.since a)) (hadd : b.ForestIn (b.since a)) : b.Forest := by
  have hheld := HoldsOnce.of_since hx hf.holdsOnceIn hc hs hadd.holdsOnceIn
  refine ⟨hheld.once, hheld.apart, ?_, ?_, ?_, ?_, ?_⟩
  · intro list p q hp hq hop hoq
    by_cases ha : a.HasNode p <;> by_cases ha' : a.HasNode q
    · exact hf.owner list p q ha ha' ((hx.owns ha).1 hop) ((hx.owns ha').1 hoq)
    · exact absurd (hc.lists_owns ha ((hx.owns ha).1 hop)) (hs.lists_owns ⟨ha', hq⟩ hoq).1
    · exact absurd (hc.lists_owns ha' ((hx.owns ha').1 hoq)) (hs.lists_owns ⟨ha, hp⟩ hop).1
    · exact hadd.owner list p q ⟨ha, hp⟩ ⟨ha', hq⟩ hop hoq
  · intro list id p hl hp hh
    by_cases ha : a.HasList list
    · obtain ⟨hh', hid⟩ := hx.holds_old hc ha hh
      rw [hx.parent? hid]
      by_cases hp' : a.HasNode p
      · rw [hx.owns hp']
        exact hf.parent list id p ha hp' hh'
      · exact iff_of_false (fun hpar => hp' (hc.nodes_parent? hid hpar)) fun ho => (hs.lists_owns ⟨hp', hp⟩ ho).1 ha
    · obtain ⟨hl', hid⟩ := hs.holds_new ha hh
      by_cases hp' : a.HasNode p
      · refine iff_of_false (fun hpar => ?_) fun ho => ha (hc.lists_owns hp' ((hx.owns hp').1 ho))
        exact (hs.nodes_parent? (hs.nodes_holds hl' hh) hpar).1 hp'
      · exact hadd.parent list id p hl' ⟨hp', hp⟩ hh
  · intro list id p hl hp hh ho
    by_cases ha : a.HasList list
    · by_cases hp' : a.HasNode p
      · exact hf.later list id p ha hp' (hx.holds_old hc ha hh).1 ((hx.owns hp').1 ho)
      · exact absurd ha (hs.lists_owns ⟨hp', hp⟩ ho).1
    · by_cases hp' : a.HasNode p
      · exact absurd (hc.lists_owns hp' ((hx.owns hp').1 ho)) ha
      · exact hadd.later list id p ⟨ha, hl⟩ ⟨hp', hp⟩ hh ho
  · intro id r hid hr entry he
    by_cases ha : a.HasRepository id
    · obtain ⟨old, ho⟩ := ha.repository_ok
      rw [hx.repository id old ho, Except.ok.injEq] at hr
      subst hr
      exact hx.freeIn hs ((hc.repository id old ho ha).2 entry he) (hf.entries id old ha ho entry he)
    · exact hx.freeIn_since hc ((hs.repository id r hr ⟨ha, hid⟩).2 entry he) (hadd.entries id r ⟨ha, hid⟩ hr entry he)
  · intro id target hid hstands
    by_cases ha : a.HasNode id
    · have hs' := (hx.standsFor ha).1 hstands
      exact hx.freeIn hs (hc.lists_standsFor ha hs') (hf.targets id target ha hs')
    · exact hx.freeIn_since hc (hs.lists_standsFor ⟨ha, hid⟩ hstands) (hadd.targets id target ⟨ha, hid⟩ hstands)

end

/-- The empty arena is a forest. -/
theorem forest_empty : Forest {} := by
  refine ⟨?_, ?_, ?_, ?_, ?_, ?_, ?_⟩
  · exact fun list _ hl => absurd hl (not_hasList_empty list)
  · exact fun list _ _ hl => absurd hl (not_hasList_empty list)
  · exact fun _ p _ hp => absurd hp (not_hasNode_empty p)
  · exact fun list _ _ hl => absurd hl (not_hasList_empty list)
  · exact fun list _ _ hl => absurd hl (not_hasList_empty list)
  · exact fun id _ hid => absurd hid (not_hasRepository_empty id)
  · exact fun id _ hid => absurd hid (not_hasNode_empty id)

end Arena

end GrammarLinker
