import Mathlib.Logic.Relation
import GrammarLinker.Proofs.Arena.Chain
import GrammarLinker.Proofs.Arena.Forest
import GrammarLinker.Registry.Build

/-!
# What a build does to a draft

A build adds nodes, lists and repositories, fills lists, and gives repositories entries. `Draft.Step lo ω` says what it may do in one
go: whatever it writes refers to objects that were added after the arena `lo`, it overwrites nothing of the region `ω`, and it puts no
node of `ω` into a list. An include is registered as it is added. Nodes are put into one list alone, and a list of children is given
to no second rule and no name.

What every step preserves holds at the end of a build, also of one that fails: the objects that were added refer to each other alone
and contain each other as in a forest, exactly the includes among them are registered, each once, and all of these are as they were
built (`Draft.Sound`).
-/

namespace GrammarLinker

/-- An include as it is built: it is pending, and what it waits for is what its text says. -/
def Node.Unread (n : Node) : Prop :=
  ∃ text declared reference, n.body = .inclusion ⟨text, declared, .pending reference⟩ ∧ Reference.parse text = .ok reference

/-- The node of an id is an include as it is built. -/
def Arena.Unread (a : Arena) (id : NodeId) : Prop := ∃ node, a.node id = .ok node ∧ node.Unread

namespace Draft

open Arena

variable {lo : Arena} {ω ω' : Region} {d d' : Draft}

/-- The objects that a draft has added to an arena. -/
abbrev added (d : Draft) (lo : Arena) : Region := d.arena.since lo

/-- One step of a build that starts in `lo` and leaves `ω` alone. -/
inductive Step (lo : Arena) (ω : Region) (d : Draft) : Draft → Prop where
  | inclusion {node : Node} (hp : node.Unread) (hn : node.RefersInto (d.added lo)) :
      Step lo ω d ⟨(d.arena.allocNode node).2, d.registry.register (d.arena.allocNode node).1⟩
  | rule {node : Node} {children : ListId} (hb : node.body = .rule children) (hn : node.RefersInto (d.added lo))
      (hc : d.arena.Blank (d.added lo) children) : Step lo ω d { d with arena := (d.arena.allocNode node).2 }
  | list {items : List NodeId} (hi : d.arena.Loose (d.added lo) none items) (hω : ∀ item ∈ items, ¬ω.nodes item) :
      Step lo ω d { d with arena := (d.arena.allocList items).2 }
  | repository {parent : Option RepositoryId} (hp : ∀ p, parent = some p → (d.added lo).repositories p) :
      Step lo ω d { d with arena := (d.arena.allocRepository parent).2 }
  | fill {owner : NodeId} {list : ListId} {items : List NodeId} {b : Arena} (hl : (d.added lo).lists list) (hω : ¬ω.lists list)
      (ho : (d.added lo).nodes owner) (howns : d.arena.Owns owner list) (hi : d.arena.Loose (d.added lo) (some owner) items)
      (hlater : ∀ item ∈ items, owner.index < item.index) (hωi : ∀ item ∈ items, ¬ω.nodes item)
      (hb : d.arena.setList list items = .ok b) : Step lo ω d { d with arena := b }
  | entry {id : RepositoryId} {key : String} {list : ListId} {b : Arena} (hr : (d.added lo).repositories id)
      (hω : ¬ω.repositories id) (hl : (d.added lo).lists list) (hf : d.arena.FreeIn (d.added lo) list)
      (hb : d.arena.insertEntry id key list = .ok b) : Step lo ω d { d with arena := b }

/-- The steps of a build. -/
abbrev Steps (lo : Arena) (ω : Region) : Draft → Draft → Prop := Relation.ReflTransGen (Step lo ω)

/-! ## What steps leave alone -/

/-- Nodes are never changed, and neither are the lists and repositories of a region. -/
structure Keeps (ω : Region) (a b : Arena) : Prop where
  node : ∀ id node, a.node id = .ok node → b.node id = .ok node
  list : ∀ id items, ω.lists id → a.list id = .ok items → b.list id = .ok items
  repository : ∀ id r, ω.repositories id → a.repository id = .ok r → b.repository id = .ok r
  hasList : ∀ id, a.HasList id → b.HasList id
  hasRepository : ∀ id, a.HasRepository id → b.HasRepository id

/-- An arena keeps itself. -/
theorem Keeps.refl (ω : Region) (a : Arena) : Keeps ω a a :=
  ⟨fun _ _ h => h, fun _ _ _ h => h, fun _ _ _ h => h, fun _ h => h, fun _ h => h⟩

/-- Keeping goes on. -/
theorem Keeps.trans {a b c : Arena} (h : Keeps ω a b) (h' : Keeps ω b c) : Keeps ω a c :=
  ⟨fun id node hn => h'.node id node (h.node id node hn), fun id items hω hl => h'.list id items hω (h.list id items hω hl),
    fun id r hω hr => h'.repository id r hω (h.repository id r hω hr), fun id hl => h'.hasList id (h.hasList id hl),
    fun id hr => h'.hasRepository id (h.hasRepository id hr)⟩

/-- An extension keeps everything. -/
theorem keeps_of_extends {a b : Arena} (h : a.Extends b) : Keeps ω a b :=
  ⟨h.node, fun id items _ => h.list id items, fun id r _ => h.repository id r, fun _ => h.hasList,
    fun _ => h.hasRepository⟩

/-- What keeps a region keeps every part of it. -/
theorem Keeps.weaken {a b : Arena} (h : Keeps ω a b) (hw : ω'.Within ω) : Keeps ω' a b :=
  ⟨h.node, fun id items hid => h.list id items (hw.lists id hid), fun id r hid => h.repository id r (hw.repositories id hid),
    h.hasList, h.hasRepository⟩

/-- A node stays there. -/
theorem Keeps.hasNode {a b : Arena} (h : Keeps ω a b) {id : NodeId} (hid : a.HasNode id) : b.HasNode id := by
  obtain ⟨node, hn⟩ := hid.node_ok
  exact hasNode_of_node (h.node id node hn)

/-- All that was there stays there. -/
theorem Keeps.region {a b : Arena} (h : Keeps ω a b) : a.region.Within b.region :=
  ⟨fun _ hid => h.hasNode hid, h.hasList, h.hasRepository⟩

/-- An arena is extended when all that it has is kept. -/
theorem Keeps.extends {a b : Arena} (h : Keeps ω a b) (hω : a.region.Within ω) : a.Extends b :=
  ⟨h.node, fun id items hl => h.list id items (hω.lists id (hasList_of_list hl)) hl,
    fun id r hr => h.repository id r (hω.repositories id (hasRepository_of_repository hr)) hr⟩

/-- What was added stays added. -/
theorem Keeps.within {a b : Arena} (h : Keeps ω a b) (lo : Arena) : (a.since lo).Within (b.since lo) :=
  ⟨fun _ hid => ⟨hid.1, h.hasNode hid.2⟩, fun id hid => ⟨hid.1, h.hasList id hid.2⟩,
    fun id hid => ⟨hid.1, h.hasRepository id hid.2⟩⟩

/-- Filling a list keeps every region that the list is not in. -/
theorem keeps_setList {a b : Arena} {list : ListId} {items : List NodeId} (hb : a.setList list items = .ok b)
    (hω : ¬ω.lists list) : Keeps ω a b := by
  obtain ⟨-, hn, hr, hs, hlist⟩ := setList_eq_ok hb
  refine ⟨?_, ?_, ?_, fun _ => (hasList_congr hs).2, fun _ => (hasRepository_congr (congrArg Array.size hr)).2⟩
  · intro id node h
    rw [node_congr hn]
    exact h
  · intro id xs hid h
    rw [hlist, if_neg fun heq : id = list => hω (heq ▸ hid)]
    exact h
  · intro id r _ h
    rw [repository_congr hr]
    exact h

/-- Giving a repository an entry keeps every region that the repository is not in. -/
theorem keeps_insertEntry {a b : Arena} {repository : RepositoryId} {key : String} {list : ListId}
    (hb : a.insertEntry repository key list = .ok b) (hω : ¬ω.repositories repository) : Keeps ω a b := by
  obtain ⟨hn, hlists, hs, old, hold, hrepo⟩ := insertEntry_eq_ok hb
  refine ⟨?_, ?_, ?_, fun _ => (hasList_congr (congrArg Array.size hlists)).2, fun _ => (hasRepository_congr hs).2⟩
  · intro id node h
    rw [node_congr hn]
    exact h
  · intro id xs _ h
    rw [list_congr hlists]
    exact h
  · intro id r hid h
    rw [hrepo, if_neg fun heq : id = repository => hω (heq ▸ hid)]
    exact h

/-- A step keeps the region that it leaves alone. -/
theorem Step.keeps (h : Step lo ω d d') : Keeps ω d.arena d'.arena := by
  cases h with
  | inclusion => exact keeps_of_extends (extends_allocNode _ _)
  | rule => exact keeps_of_extends (extends_allocNode _ _)
  | list => exact keeps_of_extends (extends_allocList _ _)
  | repository => exact keeps_of_extends (extends_allocRepository _ _)
  | fill _ hω _ _ _ _ _ hb => exact keeps_setList hb hω
  | entry _ hω _ _ hb => exact keeps_insertEntry hb hω

/-- The grammar that is built stays the owner of the registry. -/
theorem Steps.owner (h : Steps lo ω d d') : d'.registry.owner = d.registry.owner := by
  induction h with
  | refl => rfl
  | tail _ hs ih =>
    refine Eq.trans ?_ ih
    cases hs <;> rfl

/-- So do steps one after the other. -/
theorem Steps.keeps (h : Steps lo ω d d') : Keeps ω d.arena d'.arena := by
  induction h with
  | refl => exact .refl ω _
  | tail _ hs ih => exact ih.trans hs.keeps

/-- What leaves a region alone leaves a part of it alone. -/
theorem Step.weaken (h : Step lo ω d d') (hw : ω'.Within ω) : Step lo ω' d d' := by
  cases h with
  | inclusion hp hn => exact .inclusion hp hn
  | rule hb hn hc => exact .rule hb hn hc
  | list hi hω => exact .list hi fun item hm h => hω item hm (hw.nodes _ h)
  | repository hp => exact .repository hp
  | fill hl hω ho howns hi hlater hωi hb =>
    exact .fill hl (fun h => hω (hw.lists _ h)) ho howns hi hlater (fun item hm h => hωi item hm (hw.nodes _ h)) hb
  | entry hr hω hl hf hb => exact .entry hr (fun h => hω (hw.repositories _ h)) hl hf hb

/-- Steps that leave a region alone leave every part of it alone. -/
theorem Steps.weaken (h : Steps lo ω d d') (hw : ω'.Within ω) : Steps lo ω' d d' := by
  induction h with
  | refl => exact .refl
  | tail _ hs ih => exact ih.tail (hs.weaken hw)

/-- A node of the region is put into no list. -/
theorem Step.holds (h : Step lo ω d d') {list : ListId} {id : NodeId} (hid : ω.nodes id) (hh : d'.arena.Holds list id) :
    d.arena.Holds list id := by
  cases h with
  | inclusion => exact hh
  | rule => exact hh
  | list _ hω => exact (holds_allocList.1 hh).resolve_right fun hnew => hω id hnew.2 hid
  | repository => exact hh
  | fill _ _ _ _ _ _ hωi hb =>
    rw [holds_setList hb] at hh
    split at hh
    · exact absurd hid (hωi id hh)
    · exact hh
  | entry _ _ _ _ hb =>
    obtain ⟨-, hlists, -⟩ := insertEntry_eq_ok hb
    exact (holds_congr hlists).1 hh

/-- No node of the region that is left alone gets into a list. -/
theorem Steps.holds (h : Steps lo ω d d') {list : ListId} {id : NodeId} (hid : ω.nodes id) (hh : d'.arena.Holds list id) :
    d.arena.Holds list id := by
  induction h with
  | refl => exact hh
  | tail _ hs ih => exact ih (hs.holds hid hh)

/-- A node keeps its parent. -/
theorem Keeps.parent? {a b : Arena} (h : Keeps ω a b) {id : NodeId} (hid : a.HasNode id) : b.parent? id = a.parent? id := by
  obtain ⟨node, hn⟩ := hid.node_ok
  rw [parent?_of_node hn, parent?_of_node (h.node id node hn)]

/-- Nodes of the region stay loose. -/
theorem Steps.loose (h : Steps lo ω d d') {parent : Option NodeId} {items : List NodeId}
    (hi : d.arena.Loose (d.added lo) parent items) (hω : ∀ item ∈ items, ω.nodes item) :
    d'.arena.Loose (d'.added lo) parent items := by
  refine ⟨fun item hm => (h.keeps.within lo).nodes item (hi.nodes item hm), hi.nodup, fun item hm => ?_, fun item hm list hl hh => ?_⟩
  · rw [h.keeps.parent? (hi.nodes item hm).2]
    exact hi.parent item hm
  · have hold := h.holds (hω item hm) hh
    exact hi.unheld item hm list ⟨hl.1, hold.hasList⟩ hold

/-- A build leaves alone what was there when it started. -/
theorem Step.keeps_start (h : Step lo ω d d') : Keeps lo.region d.arena d'.arena := by
  have hstep : Step lo lo.region d d' := by
    cases h with
    | inclusion hp hn => exact .inclusion hp hn
    | rule hb hn hc => exact .rule hb hn hc
    | list hi _ => exact .list hi fun item hm => (hi.nodes item hm).1
    | repository hp => exact .repository hp
    | fill hl _ ho howns hi hlater _ hb => exact .fill hl hl.1 ho howns hi hlater (fun item hm => (hi.nodes item hm).1) hb
    | entry hr _ hl hf hb => exact .entry hr hr.1 hl hf hb
  exact hstep.keeps

/-! ## What steps preserve -/

/-- What holds of a draft that was begun in `lo`. -/
structure Sound (lo : Arena) (d : Draft) : Prop where
  grows : lo.Extends d.arena
  closed : d.arena.ClosedIn (d.added lo)
  nested : lo.Nested → d.arena.Nested
  registered : ∀ id ∈ d.registry.includes, (d.added lo).nodes id ∧ d.arena.Unread id
  complete : ∀ id, (d.added lo).nodes id → id ∉ d.registry.includes → d.arena.IsRule id
  nodup : d.registry.includes.Nodup
  keyed : d.arena.KeyedIn (d.added lo)
  forest : d.arena.ForestIn (d.added lo)

/-- A draft that was just begun is sound. -/
theorem sound_start (lo : Arena) (owner : String) : Sound lo { arena := lo, registry := { owner } } :=
  ⟨.refl lo, ⟨fun _ _ _ h => absurd h.2 h.1, fun _ _ _ h => absurd h.2 h.1, fun _ _ _ h => absurd h.2 h.1⟩, fun h => h,
    nofun, fun _ h => absurd h.2 h.1, List.nodup_nil, fun _ _ _ h => absurd h.2 h.1,
    ⟨fun _ _ h => absurd h.2 h.1, fun _ _ _ h => absurd h.2 h.1, fun _ _ _ h => absurd h.2 h.1, fun _ _ _ h => absurd h.2 h.1,
      fun _ _ _ h => absurd h.2 h.1, fun _ _ h => absurd h.2 h.1, fun _ _ h => absurd h.2 h.1⟩⟩

/-- A rule stays a rule. -/
theorem Keeps.isRule {a b : Arena} (h : Keeps ω a b) {id : NodeId} (hr : a.IsRule id) : b.IsRule id := by
  obtain ⟨node, hn, hrule⟩ := hr
  exact ⟨node, h.node id node hn, hrule⟩

/-- An include that is as it was built stays so. -/
theorem Keeps.unread {a b : Arena} (h : Keeps ω a b) {id : NodeId} (hu : a.Unread id) : b.Unread id := by
  obtain ⟨node, hn, hr⟩ := hu
  exact ⟨node, h.node id node hn, hr⟩

/-- What was added is what had been added before, or the new node. -/
theorem since_allocNode {a : Arena} {node : Node} {id : NodeId} (h : ((a.allocNode node).2.since lo).nodes id) :
    (a.since lo).nodes id ∨ id = (a.allocNode node).1 :=
  (hasNode_allocNode.1 h.2).imp_left fun hid => ⟨h.1, hid⟩

/-- What was added is what had been added before, or the new list. -/
theorem since_allocList {a : Arena} {items : List NodeId} {id : ListId} (h : ((a.allocList items).2.since lo).lists id) :
    (a.since lo).lists id ∨ id = (a.allocList items).1 :=
  (hasList_allocList.1 h.2).imp_left fun hid => ⟨h.1, hid⟩

/-- What was added is what had been added before, or the new repository. -/
theorem since_allocRepository {a : Arena} {parent : Option RepositoryId} {id : RepositoryId}
    (h : ((a.allocRepository parent).2.since lo).repositories id) :
    (a.since lo).repositories id ∨ id = (a.allocRepository parent).1 :=
  (hasRepository_allocRepository.1 h.2).imp_left fun hid => ⟨h.1, hid⟩

/-- What is written refers to what was added. -/
theorem Step.closed (h : Step lo ω d d') (hd : d.arena.ClosedIn (d.added lo)) : d'.arena.ClosedIn (d'.added lo) := by
  have hw : (d.added lo).Within (d'.added lo) := h.keeps.within lo
  cases h with
  | inclusion hp hn => exact hd.allocNode hw (hn.mono hw) (fun _ => since_allocNode) (fun _ h => h) (fun _ h => h)
  | rule hb hn hc => exact hd.allocNode hw (hn.mono hw) (fun _ => since_allocNode) (fun _ h => h) (fun _ h => h)
  | list hi hω =>
    exact hd.allocList hw (fun item h => hw.nodes item (hi.nodes item h)) (fun _ h => h) (fun _ => since_allocList) (fun _ h => h)
  | repository hp =>
    exact hd.allocRepository hw (fun p h => hw.repositories p (hp p h)) (fun _ h => h) (fun _ h => h)
      fun _ => since_allocRepository
  | fill hl hω ho howns hi hlater hωi hb =>
    obtain ⟨-, hn, hr, hs, -⟩ := setList_eq_ok hb
    unfold added
    rw [since_congr (congrArg Array.size hn) hs (congrArg Array.size hr)]
    exact hd.setList hi.nodes hb
  | entry hr hω hl hf hb =>
    obtain ⟨hn, hlists, hs, -⟩ := insertEntry_eq_ok hb
    unfold added
    rw [since_congr (congrArg Array.size hn) (congrArg Array.size hlists) hs]
    exact hd.insertEntry hl hb

/-- What is added contains each other as in a forest. -/
theorem Step.forest (h : Step lo ω d d') (hc : d.arena.ClosedIn (d.added lo)) (hd : d.arena.ForestIn (d.added lo)) :
    d'.arena.ForestIn (d'.added lo) := by
  cases h with
  | @inclusion node hp hn =>
    obtain ⟨text, declared, reference, hb, -⟩ := hp
    refine hd.allocNode hc (fun list hrule => ?_) fun i hi => ?_
    · rw [hb] at hrule
      cases hrule
    · rw [Node.inclusion?, hb] at hi
      cases hi
      rfl
  | @rule node children hb hn hblank =>
    refine hd.allocNode hc (fun list hrule => ?_) fun i hi => ?_
    · rw [hb] at hrule
      cases hrule
      exact hblank
    · rw [Node.inclusion?, hb] at hi
      cases hi
  | list hi hω => exact hd.allocList hc hi
  | repository hp => exact hd.allocRepository _
  | fill hl hω ho howns hi hlater hωi hb => exact hd.setList howns ho hi hlater hb
  | entry hr hω hl hf hb => exact hd.insertEntry hf hb

/-- A repository that is added is enclosed by one that is there. -/
theorem Step.nested (h : Step lo ω d d') (hd : d.arena.Nested) : d'.arena.Nested := by
  cases h with
  | inclusion => exact hd
  | rule => exact hd
  | list => exact hd
  | repository hp => exact hd.allocRepository fun p h => (hp p h).2
  | fill _ _ _ _ _ _ _ hb =>
    obtain ⟨-, -, hr, -, -⟩ := setList_eq_ok hb
    exact hd.congr hr
  | entry _ _ _ _ hb => exact hd.insertEntry hb

/-- A step gives no repository a key twice. -/
theorem Step.keyed (h : Step lo ω d d') (hd : d.arena.KeyedIn (d.added lo)) : d'.arena.KeyedIn (d'.added lo) := by
  have hold : ∀ id, d.arena.HasRepository id → (d'.added lo).repositories id → (d.added lo).repositories id :=
    fun _ hid hnew => ⟨hnew.1, hid⟩
  cases h with
  | inclusion => exact hd.congr hold rfl
  | rule => exact hd.congr hold rfl
  | list => exact hd.congr hold rfl
  | repository => exact hd.allocRepository hold _
  | fill _ _ _ _ _ _ _ hb =>
    obtain ⟨-, -, hr, -, -⟩ := setList_eq_ok hb
    exact hd.congr hold hr
  | entry _ _ _ _ hb => exact hd.insertEntry hold hb

/-- A step goes on extending the arena at the start. -/
theorem Step.grows (h : Step lo ω d d') (hd : lo.Extends d.arena) : lo.Extends d'.arena :=
  ((keeps_of_extends hd).trans h.keeps_start).extends (.refl _)

/-- What is registered is left as it was built. -/
theorem Sound.registered_after (hd : Sound lo d) (h : Step lo ω d d') {id : NodeId} (hid : id ∈ d.registry.includes) :
    (d'.added lo).nodes id ∧ d'.arena.Unread id :=
  ⟨(h.keeps.within lo).nodes id (hd.registered id hid).1, h.keeps.unread (hd.registered id hid).2⟩

/-- A step that registers nothing may add rules. -/
theorem Sound.of_registry (hd : Sound lo d) (h : Step lo ω d d') (hreg : d'.registry = d.registry)
    (hnew : ∀ id, (d'.added lo).nodes id → (d.added lo).nodes id ∨ d'.arena.IsRule id) : Sound lo d' where
  grows := h.grows hd.grows
  closed := h.closed hd.closed
  nested := fun hlo => h.nested (hd.nested hlo)
  registered := fun id hid => hd.registered_after h (hreg ▸ hid)
  complete := by
    intro id hid hnot
    rw [hreg] at hnot
    rcases hnew id hid with hold | hrule
    · exact h.keeps.isRule (hd.complete id hold hnot)
    · exact hrule
  nodup := hreg ▸ hd.nodup
  keyed := h.keyed hd.keyed
  forest := h.forest hd.closed hd.forest

/-- A step preserves what holds of a draft. -/
theorem Step.sound (h : Step lo ω d d') (hd : Sound lo d) : Sound lo d' := by
  have hstep := h
  cases h with
  | @inclusion node hp hn =>
    have hnew := d.arena.node_allocNode_self node
    have hfresh : (d.arena.allocNode node).1 ∉ d.registry.includes := fun hid =>
      d.arena.not_hasNode_allocNode node (hd.registered _ hid).1.2
    have hlo : ¬lo.HasNode (d.arena.allocNode node).1 := fun hid => d.arena.not_hasNode_allocNode node (hd.grows.hasNode hid)
    refine ⟨hstep.grows hd.grows, hstep.closed hd.closed, fun h => hstep.nested (hd.nested h), ?_,
      ?_, ?_, hstep.keyed hd.keyed, hstep.forest hd.closed hd.forest⟩
    · intro id hid
      rcases List.mem_append.1 hid with hid | hid
      · exact hd.registered_after hstep hid
      · rw [List.mem_singleton.1 hid]
        exact ⟨⟨hlo, hasNode_of_node hnew⟩, node, hnew, hp⟩
    · intro id hid hnot
      rcases since_allocNode hid with hold | rfl
      · exact hstep.keeps.isRule (hd.complete id hold fun h => hnot (List.mem_append_left _ h))
      · exact absurd (List.mem_append_right _ (List.mem_singleton.2 rfl)) hnot
    · exact List.nodup_append.2 ⟨hd.nodup, by simp, fun x hx y hy heq =>
        hfresh (List.mem_singleton.1 hy ▸ heq ▸ hx)⟩
  | rule hb hn hc =>
    refine hd.of_registry hstep rfl fun id hid => (since_allocNode hid).imp_right ?_
    rintro rfl
    exact ⟨_, node_allocNode_self _ _, by simp only [Node.isRule, hb]⟩
  | list => exact hd.of_registry hstep rfl fun id hid => .inl hid
  | repository => exact hd.of_registry hstep rfl fun id hid => .inl hid
  | fill _ _ _ _ _ _ _ hb =>
    obtain ⟨-, hn, -, -, -⟩ := setList_eq_ok hb
    exact hd.of_registry hstep rfl fun id hid => .inl ⟨hid.1, (hasNode_congr (congrArg Array.size hn)).1 hid.2⟩
  | entry _ _ _ _ hb =>
    obtain ⟨hn, -, -, -⟩ := insertEntry_eq_ok hb
    exact hd.of_registry hstep rfl fun id hid => .inl ⟨hid.1, (hasNode_congr (congrArg Array.size hn)).1 hid.2⟩

/-- Steps lead from a sound draft to a sound one. -/
theorem Steps.sound (h : Steps lo ω d d') (hd : Sound lo d) : Sound lo d' := by
  induction h with
  | refl => exact hd
  | tail _ hs ih => exact hs.sound ih

end Draft

end GrammarLinker
