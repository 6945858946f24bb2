import GrammarLinker.Proofs.Expansion
import GrammarLinker.Proofs.Registry.Steps

/-!
# Layouts

How a file lies in an arena, down to its last record: a node for every record, in the list of the rule or the entry that the record
stands in, and a repository for every record that opens one (`Record.Lays`). Records are laid out within the repositories that enclose
them, of which each is known with the lists of its entries (`Enclosure`). What is asked of an include, besides its text and the
repository in which it is declared, is left open (`leaf`), because it changes when the include is resolved.

A layout stays when the part of the arena in which it lies is kept (`Record.Lays.imp`).
-/

namespace GrammarLinker

/-- A repository around records, with the lists of its entries under their keys. -/
structure Enclosure where
  id : RepositoryId
  lists : List (String × ListId)

namespace Enclosure

/-- The list of a key; of a key that is repeated the last one. -/
def list? (e : Enclosure) (key : String) : Option ListId := Keyed.find? key (Keyed.ofPairs e.lists)

/-- The repository of a record that is declared within enclosing repositories, innermost first. -/
def innermost (Γ : List Enclosure) : Option RepositoryId := Γ.head?.map Enclosure.id

/-- A repository of a region has its entries, and is enclosed by others. -/
def Opens (e : Enclosure) (a : Arena) (ρ : Region) (Γ : List Enclosure) : Prop :=
  ρ.repositories e.id ∧ a.repository e.id = .ok { entries := Keyed.ofPairs e.lists, parent := innermost Γ }

end Enclosure

open Enclosure (innermost)

namespace Arena

/-- A list of a region has these items. -/
def Lists (a : Arena) (ρ : Region) (list : ListId) (items : List NodeId) : Prop := ρ.lists list ∧ a.list list = .ok items

/-- A node of a region is an include of a text, declared within enclosing repositories. -/
def LaysInclude (a : Arena) (ρ : Region) (name : Option String) (text : String) (Γ : List Enclosure) (id : NodeId) : Prop :=
  ρ.nodes id ∧ ∃ node state, a.node id = .ok node ∧ node.name = name ∧ node.body = .inclusion ⟨text, innermost Γ, state⟩

/-- A node of a region is a rule with these children. -/
def LaysRule (a : Arena) (ρ : Region) (name : Option String) (rule : MatchRule) (id : NodeId) (items : List NodeId) : Prop :=
  ρ.nodes id ∧ ∃ node children, a.node id = .ok node ∧ node.name = name ∧ node.rule = rule ∧ node.body = .rule children ∧
    a.Lists ρ children items

end Arena

section

variable (a : Arena) (ρ : Region) (leaf : List Enclosure → String → NodeId → Prop)

mutual

/-- A node is laid out for a record within enclosing repositories. The patterns of a rule are laid out within the repository that the
rule opens, if it opens one. -/
def Record.Lays : Record → List Enclosure → NodeId → Prop
  | ⟨some text, name, _, _, _⟩, Γ, id => a.LaysInclude ρ name text Γ id ∧ leaf Γ text id
  | ⟨none, name, rule, patterns, nested⟩, Γ, id => ∃ items, a.LaysRule ρ name rule id items ∧
    if nested.isEmpty then Record.LaysItems patterns Γ items
    else ∃ e : Enclosure, e.Opens a ρ Γ ∧ Record.LaysEntries nested (e :: Γ) e.lists ∧ Record.LaysItems patterns (e :: Γ) items

/-- Nodes are laid out for records in order. -/
def Record.LaysItems : List Record → List Enclosure → List NodeId → Prop
  | [], _, items => items = []
  | r :: rest, Γ, items => ∃ id ids, items = id :: ids ∧ Record.Lays r Γ id ∧ Record.LaysItems rest Γ ids

/-- Lists are laid out for the entries of a repository, under their keys. A bare group stands for its patterns. -/
def Record.LaysEntries : List (String × Record) → List Enclosure → List (String × ListId) → Prop
  | [], _, lists => lists = []
  | (key, ⟨reference, name, rule, patterns, nested⟩) :: rest, Γ, lists =>
    ∃ list items lists', lists = (key, list) :: lists' ∧ a.Lists ρ list items ∧
      (if Record.isBareGroup ⟨reference, name, rule, patterns, nested⟩ then Record.LaysItems patterns Γ items
        else ∃ id, items = [id] ∧ Record.Lays ⟨reference, name, rule, patterns, nested⟩ Γ id) ∧
      Record.LaysEntries rest Γ lists'

end

end

section

variable {a : Arena} {ρ : Region} {leaf : List Enclosure → String → NodeId → Prop} {Γ : List Enclosure}

/-- What is asked of the children of a rule that opens a repository, if it has entries for one. -/
def Record.LaysBody (a : Arena) (ρ : Region) (leaf : List Enclosure → String → NodeId → Prop) (patterns : List Record)
    (nested : List (String × Record)) (Γ : List Enclosure) (items : List NodeId) : Prop :=
  if nested.isEmpty then Record.LaysItems a ρ leaf patterns Γ items
  else ∃ e : Enclosure, e.Opens a ρ Γ ∧ Record.LaysEntries a ρ leaf nested (e :: Γ) e.lists ∧
    Record.LaysItems a ρ leaf patterns (e :: Γ) items

theorem Record.lays_rule {name : Option String} {rule : MatchRule} {patterns : List Record} {nested : List (String × Record)}
    {id : NodeId} : Record.Lays a ρ leaf ⟨none, name, rule, patterns, nested⟩ Γ id ↔
      ∃ items, a.LaysRule ρ name rule id items ∧ Record.LaysBody a ρ leaf patterns nested Γ items := by
  rw [Record.Lays]
  rfl

/-- A single record is laid out as one node. -/
theorem Record.laysItems_singleton {r : Record} {items : List NodeId} :
    Record.LaysItems a ρ leaf [r] Γ items ↔ ∃ id, items = [id] ∧ r.Lays a ρ leaf Γ id := by
  simp only [Record.LaysItems]
  constructor
  · rintro ⟨id, ids, rfl, hr, rfl⟩
    exact ⟨id, rfl, hr⟩
  · rintro ⟨id, rfl, hr⟩
    exact ⟨id, [], rfl, hr, rfl⟩

/-- Lists are laid out for what entries stand for. -/
theorem Record.laysEntries_cons {key : String} {r : Record} {rest : List (String × Record)} {lists : List (String × ListId)} :
    Record.LaysEntries a ρ leaf ((key, r) :: rest) Γ lists ↔ ∃ list items lists', lists = (key, list) :: lists' ∧
      a.Lists ρ list items ∧ Record.LaysItems a ρ leaf r.members Γ items ∧ Record.LaysEntries a ρ leaf rest Γ lists' := by
  obtain ⟨reference, name, rule, patterns, nested⟩ := r
  rw [Record.LaysEntries, Record.members]
  split
  · rfl
  · simp only [Record.laysItems_singleton]

end

/-! ## What keeps a layout -/

variable {a b : Arena} {ρ σ : Region} {leaf leaf' : List Enclosure → String → NodeId → Prop} {C : List Enclosure → Prop}

/-- What lies in a region of one arena lies in a region of the other. Of includes, what was asked of them gives what is asked now, as
long as the repositories around them are as `C` says. -/
structure Relays (a b : Arena) (ρ σ : Region) (leaf leaf' : List Enclosure → String → NodeId → Prop) (C : List Enclosure → Prop) :
    Prop where
  list : ∀ list items, a.Lists ρ list items → b.Lists σ list items
  rule : ∀ name rule id items, a.LaysRule ρ name rule id items → b.LaysRule σ name rule id items
  inclusion : ∀ name text Γ id, a.LaysInclude ρ name text Γ id → b.LaysInclude σ name text Γ id
  opens : ∀ (e : Enclosure) Γ, C Γ → e.Opens a ρ Γ → e.Opens b σ Γ ∧ C (e :: Γ)
  leaf : ∀ name Γ text id, C Γ → a.LaysInclude ρ name text Γ id → leaf Γ text id → leaf' Γ text id

mutual

/-- A layout stays when what it lies in is kept. -/
theorem Record.Lays.imp (h : Relays a b ρ σ leaf leaf' C) : ∀ {r : Record} {Γ : List Enclosure} {id : NodeId}, C Γ →
    r.Lays a ρ leaf Γ id → r.Lays b σ leaf' Γ id
  | ⟨some text, name, rule, patterns, nested⟩, Γ, id, hC, hl => by
    unfold Record.Lays at hl ⊢
    exact ⟨h.inclusion name text Γ id hl.1, h.leaf name Γ text id hC hl.1 hl.2⟩
  | ⟨none, name, rule, patterns, nested⟩, Γ, id, hC, hl => by
    unfold Record.Lays at hl ⊢
    obtain ⟨items, hrule, hrest⟩ := hl
    refine ⟨items, h.rule name rule id items hrule, ?_⟩
    by_cases hnested : nested.isEmpty = true
    · rw [if_pos hnested] at hrest ⊢
      exact Record.LaysItems.imp h hC hrest
    · rw [if_neg hnested] at hrest ⊢
      obtain ⟨e, hopen, hentries, hitems⟩ := hrest
      obtain ⟨hopen', hC'⟩ := h.opens e Γ hC hopen
      exact ⟨e, hopen', Record.LaysEntries.imp h hC' hentries, Record.LaysItems.imp h hC' hitems⟩

/-- So it is with records. -/
theorem Record.LaysItems.imp (h : Relays a b ρ σ leaf leaf' C) : ∀ {records : List Record} {Γ : List Enclosure}
    {items : List NodeId}, C Γ → Record.LaysItems a ρ leaf records Γ items → Record.LaysItems b σ leaf' records Γ items
  | [], Γ, items, hC, hl => hl
  | r :: rest, Γ, items, hC, hl => by
    unfold Record.LaysItems at hl ⊢
    obtain ⟨id, ids, heq, hr, hrest⟩ := hl
    exact ⟨id, ids, heq, Record.Lays.imp h hC hr, Record.LaysItems.imp h hC hrest⟩

/-- So it is with entries. -/
theorem Record.LaysEntries.imp (h : Relays a b ρ σ leaf leaf' C) : ∀ {entries : List (String × Record)} {Γ : List Enclosure}
    {lists : List (String × ListId)}, C Γ → Record.LaysEntries a ρ leaf entries Γ lists → Record.LaysEntries b σ leaf' entries Γ lists
  | [], Γ, lists, hC, hl => hl
  | (key, ⟨reference, name, rule, patterns, nested⟩) :: rest, Γ, lists, hC, hl => by
    unfold Record.LaysEntries at hl ⊢
    obtain ⟨list, items, lists', heq, hlist, hr, hrest⟩ := hl
    refine ⟨list, items, lists', heq, h.list list items hlist, ?_, Record.LaysEntries.imp h hC hrest⟩
    by_cases hbare : Record.isBareGroup ⟨reference, name, rule, patterns, nested⟩ = true
    · rw [if_pos hbare] at hr ⊢
      exact Record.LaysItems.imp h hC hr
    · rw [if_neg hbare] at hr ⊢
      obtain ⟨id, hid, hr⟩ := hr
      exact ⟨id, hid, Record.Lays.imp h hC hr⟩

end

/-! ## Layouts of what waits -/

/-- An include waits for what its text says. -/
def Arena.Waits (a : Arena) (_ : List Enclosure) (text : String) (id : NodeId) : Prop :=
  ∃ reference, Reference.parse text = .ok reference ∧ a.pending? id = some reference

/-- What lies in a region that is kept lies there, and in every larger region, and waits as before. -/
theorem relays_of_keeps (hk : Draft.Keeps ρ a b) (hw : ρ.Within σ) : Relays a b ρ σ a.Waits b.Waits fun _ => True where
  list := fun list items h => ⟨hw.lists list h.1, hk.list list items h.1 h.2⟩
  rule := by
    rintro name rule id items ⟨hid, node, children, hn, hname, hrule, hb, hc⟩
    exact ⟨hw.nodes id hid, node, children, hk.node id node hn, hname, hrule, hb, hw.lists _ hc.1, hk.list _ _ hc.1 hc.2⟩
  inclusion := by
    rintro name text Γ id ⟨hid, node, state, hn, hname, hb⟩
    exact ⟨hw.nodes id hid, node, state, hk.node id node hn, hname, hb⟩
  opens := fun e Γ _ h => ⟨⟨hw.repositories e.id h.1, hk.repository _ _ h.1 h.2⟩, trivial⟩
  leaf := by
    rintro name Γ text id - - ⟨reference, hp, hpending⟩
    obtain ⟨node, hn, hnode⟩ := Arena.pending?_eq_some.1 hpending
    exact ⟨reference, hp, Arena.pending?_eq_some.2 ⟨node, hk.node id node hn, hnode⟩⟩

end GrammarLinker
