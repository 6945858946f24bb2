import GrammarLinker.Proofs.Arena.Chain
import GrammarLinker.Proofs.Arena.Grounding
import GrammarLinker.Resolution

/-!
# What resolution changes

Resolution does one thing to an arena: it lets pending includes stand for lists. `Arena.ResolvesBy P a b` says that `b` is `a` after
some of that, where `P` says which node may have been resolved to which list. Lists and repositories stay, a rule stays, an include
that was resolved keeps its list, and nothing that is grounded ceases to be (`Arena.ResolvesBy.grounded`).
-/

namespace GrammarLinker

namespace Node

/-- The reference that a node waits for, when it is a pending include. -/
def pending? (n : Node) : Option Reference :=
  match n.inclusion? with
  | some ⟨_, _, .pending reference⟩ => some reference
  | _ => none

/-- The node, resolved to a list if it is a pending include. -/
def resolvedTo (n : Node) (target : ListId) : Node :=
  match n.inclusion?.bind (·.resolveTo? target) with
  | some i => { n with body := .inclusion i }
  | none => n

/-- A node that waits is an include, which the node says. -/
theorem pending?_eq_some {n : Node} {reference : Reference} :
    n.pending? = some reference ↔ ∃ text declared, n.body = .inclusion ⟨text, declared, .pending reference⟩ := by
  obtain ⟨name, rule, parent, body⟩ := n
  cases body with
  | rule children => simp [pending?, inclusion?]
  | inclusion i =>
    obtain ⟨text, declared, state⟩ := i
    cases state <;> simp [pending?, inclusion?]

section

variable {n : Node} {reference : Reference} (h : n.pending? = some reference) (target : ListId)
include h

/-- A pending include is resolved to whatever list it is given. -/
theorem resolveTo?_of_pending :
    ∃ i, n.inclusion?.bind (·.resolveTo? target) = some i ∧ n.resolvedTo target = { n with body := .inclusion i } ∧
      i.target? = some target := by
  obtain ⟨text, declared, hb⟩ := pending?_eq_some.1 h
  refine ⟨⟨text, declared, .resolved target⟩, ?_, ?_, rfl⟩ <;> simp [resolvedTo, inclusion?, hb, Include.resolveTo?]

/-- What was resolved waits no more. -/
theorem pending?_resolvedTo : (n.resolvedTo target).pending? = none := by
  obtain ⟨text, declared, hb⟩ := pending?_eq_some.1 h
  simp [resolvedTo, inclusion?, hb, Include.resolveTo?, pending?]

/-- A rule does not wait. -/
theorem isRule_of_pending : n.isRule = false := by
  obtain ⟨text, declared, hb⟩ := pending?_eq_some.1 h
  simp [isRule, hb]

end

/-- A node that does not wait is no include to resolve. -/
theorem resolvedTo_of_not_pending {n : Node} (h : n.pending? = none) (target : ListId) : n.resolvedTo target = n := by
  obtain ⟨name, rule, parent, body⟩ := n
  cases body with
  | rule children => rfl
  | inclusion i =>
    obtain ⟨text, declared, state⟩ := i
    cases state with
    | pending reference => simp [pending?, inclusion?] at h
    | resolved t => rfl

/-- Resolution leaves the name. -/
@[simp] theorem name_resolvedTo (n : Node) (target : ListId) : (n.resolvedTo target).name = n.name := by
  unfold resolvedTo; split <;> rfl

/-- Resolution leaves what is matched. -/
@[simp] theorem rule_resolvedTo (n : Node) (target : ListId) : (n.resolvedTo target).rule = n.rule := by
  unfold resolvedTo; split <;> rfl

/-- Resolution leaves the parent. -/
@[simp] theorem parent_resolvedTo (n : Node) (target : ListId) : (n.resolvedTo target).parent = n.parent := by
  unfold resolvedTo; split <;> rfl

/-- Resolution makes no rule and unmakes none. -/
@[simp] theorem isRule_resolvedTo (n : Node) (target : ListId) : (n.resolvedTo target).isRule = n.isRule := by
  obtain ⟨name, rule, parent, body⟩ := n
  cases body with
  | rule children => rfl
  | inclusion i =>
    obtain ⟨text, declared, state⟩ := i
    cases state <;> rfl

end Node

namespace Arena

variable {a b c : Arena} {P Q : NodeId → ListId → Prop}

/-- The reference that the node of an id waits for, when it is a pending include. -/
def pending? (a : Arena) (id : NodeId) : Option Reference := a.nodes[id.index]?.bind Node.pending?

/-- What a node waits for is read off the node. -/
theorem pending?_of_node {id : NodeId} {node : Node} (h : a.node id = .ok node) : a.pending? id = node.pending? := by
  unfold pending?
  rw [node_eq_ok.1 h, Option.bind_some]

/-- An id waits for a reference exactly when its node does. -/
theorem pending?_eq_some {id : NodeId} {reference : Reference} :
    a.pending? id = some reference ↔ ∃ node, a.node id = .ok node ∧ node.pending? = some reference := by
  simp only [pending?, Option.bind_eq_some_iff, node_eq_ok]

/-- What is read of the include of a node, if it has one, says what the node waits for. -/
theorem HasNode.inclusion_cases {id : NodeId} (h : a.HasNode id) :
    (a.inclusion id = .ok none ∧ a.pending? id = none) ∨
      (∃ text declared target, a.inclusion id = .ok (some ⟨text, declared, .resolved target⟩) ∧ a.pending? id = none) ∨
      ∃ text declared reference, a.inclusion id = .ok (some ⟨text, declared, .pending reference⟩) ∧
        a.pending? id = some reference := by
  obtain ⟨node, hn⟩ := h.node_ok
  rw [inclusion_of_node hn, pending?_of_node hn, Node.pending?]
  cases node.inclusion? with
  | none => exact .inl ⟨rfl, rfl⟩
  | some i =>
    obtain ⟨text, declared, state⟩ := i
    cases state with
    | resolved target => exact .inr (.inl ⟨text, declared, target, rfl, rfl⟩)
    | pending reference => exact .inr (.inr ⟨text, declared, reference, rfl, rfl⟩)

/-- An include that is read as pending waits. -/
theorem pending?_of_inclusion {id : NodeId} {text : String} {declared : Option RepositoryId} {reference : Reference}
    (h : a.inclusion id = .ok (some ⟨text, declared, .pending reference⟩)) : a.pending? id = some reference := by
  obtain ⟨node, hn, hi⟩ := inclusion_eq_ok.1 h
  rw [pending?_of_node hn, Node.pending?, hi]

/-- Some pending includes were resolved, each to a list that it may be resolved to, and nothing else was changed. -/
structure ResolvesBy (P : NodeId → ListId → Prop) (a b : Arena) : Prop where
  lists : b.lists = a.lists
  repositories : b.repositories = a.repositories
  size : b.nodes.size = a.nodes.size
  node : ∀ id node, a.node id = .ok node → b.node id = .ok node ∨
    ∃ target, P id target ∧ (∃ reference, node.pending? = some reference) ∧ b.node id = .ok (node.resolvedTo target)

/-- To leave everything is to resolve nothing. -/
theorem ResolvesBy.refl (P : NodeId → ListId → Prop) (a : Arena) : ResolvesBy P a a :=
  ⟨rfl, rfl, rfl, fun _ _ h => Or.inl h⟩

/-- What was resolved by a rule was resolved by every laxer one. -/
theorem ResolvesBy.mono (h : ResolvesBy P a b) (hPQ : ∀ id target, P id target → Q id target) : ResolvesBy Q a b :=
  ⟨h.lists, h.repositories, h.size, fun id node hn => (h.node id node hn).imp_right fun ⟨target, hp, hb⟩ =>
    ⟨target, hPQ id target hp, hb⟩⟩

/-- Resolving goes on. -/
theorem ResolvesBy.trans (h : ResolvesBy P a b) (h' : ResolvesBy P b c) : ResolvesBy P a c := by
  refine ⟨h'.lists.trans h.lists, h'.repositories.trans h.repositories, h'.size.trans h.size, ?_⟩
  intro id node hn
  rcases h.node id node hn with hb | ⟨target, hp, ⟨reference, hr⟩, hb⟩
  · exact h'.node id node hb
  · rcases h'.node id _ hb with hc | ⟨_, _, ⟨_, hr'⟩, _⟩
    · exact Or.inr ⟨target, hp, ⟨reference, hr⟩, hc⟩
    · rw [Node.pending?_resolvedTo hr] at hr'
      cases hr'

section

variable (h : ResolvesBy P a b)
include h

/-- Resolution adds no node and loses none. -/
theorem ResolvesBy.hasNode {id : NodeId} : b.HasNode id ↔ a.HasNode id := hasNode_congr h.size

/-- Resolution leaves the items of a list. -/
theorem ResolvesBy.list (id : ListId) : b.list id = a.list id := list_congr h.lists id

/-- Resolution leaves a repository. -/
theorem ResolvesBy.repository (id : RepositoryId) : b.repository id = a.repository id := repository_congr h.repositories id

/-- Resolution adds no list and loses none. -/
theorem ResolvesBy.hasList {id : ListId} : b.HasList id ↔ a.HasList id := hasList_congr (congrArg Array.size h.lists)

/-- Resolution adds no repository and loses none. -/
theorem ResolvesBy.hasRepository {id : RepositoryId} : b.HasRepository id ↔ a.HasRepository id :=
  hasRepository_congr (congrArg Array.size h.repositories)

/-- What is read after resolution was there before, or is a pending include that was resolved. -/
theorem ResolvesBy.node_before {id : NodeId} {node : Node} (hb : b.node id = .ok node) :
    ∃ old, a.node id = .ok old ∧ (node = old ∨
      ∃ target, P id target ∧ (∃ reference, old.pending? = some reference) ∧ node = old.resolvedTo target) := by
  obtain ⟨old, ho⟩ := (h.hasNode.1 (hasNode_of_node hb)).node_ok
  refine ⟨old, ho, ?_⟩
  rcases h.node id old ho with hn | ⟨target, hp, hr, hn⟩
  · exact Or.inl (Except.ok.inj (hb.symm.trans hn))
  · exact Or.inr ⟨target, hp, hr, Except.ok.inj (hb.symm.trans hn)⟩

/-- A node that still waits was not changed. -/
theorem ResolvesBy.node_of_pending {id : NodeId} {reference : Reference} (hb : b.pending? id = some reference) :
    b.node id = a.node id ∧ a.pending? id = some reference := by
  obtain ⟨node, hn, hp⟩ := pending?_eq_some.1 hb
  obtain ⟨old, ho, rfl | ⟨target, -, ⟨_, hr⟩, rfl⟩⟩ := h.node_before hn
  · exact ⟨hn.trans ho.symm, (pending?_of_node ho).trans hp⟩
  · rw [Node.pending?_resolvedTo hr] at hp
    cases hp

/-- An include that waits goes on waiting, unless it is resolved. -/
theorem ResolvesBy.pending_or {id : NodeId} {reference : Reference} (ha : a.pending? id = some reference) :
    b.pending? id = some reference ∨ ∃ target, P id target := by
  obtain ⟨node, hn, hp⟩ := pending?_eq_some.1 ha
  rcases h.node id node hn with hb | ⟨target, ht, -⟩
  · exact .inl ((pending?_of_node hb).trans hp)
  · exact .inr ⟨target, ht⟩

/-- An include that still waits is the include that it was. -/
theorem ResolvesBy.inclusion_of_pending {id : NodeId} {reference : Reference} (hb : b.pending? id = some reference) :
    b.inclusion id = a.inclusion id := by
  unfold Arena.inclusion
  rw [(h.node_of_pending hb).1]

/-- The rules stay the rules. -/
theorem ResolvesBy.isRule {id : NodeId} : b.IsRule id ↔ a.IsRule id := by
  constructor
  · rintro ⟨node, hn, hr⟩
    obtain ⟨old, ho, rfl | ⟨target, -, -, rfl⟩⟩ := h.node_before hn
    · exact ⟨_, ho, hr⟩
    · exact ⟨old, ho, by simpa using hr⟩
  · rintro ⟨node, hn, hr⟩
    rcases h.node id node hn with hb | ⟨target, -, -, hb⟩
    · exact ⟨node, hb, hr⟩
    · exact ⟨_, hb, by simpa using hr⟩

/-- Whether a list holds a rule does not change. -/
theorem ResolvesBy.solid {list : ListId} : b.Solid list ↔ a.Solid list := by
  simp only [Solid, h.list, h.isRule]

/-- An include that stands for a list goes on standing for it. -/
theorem ResolvesBy.standsFor {id : NodeId} {target : ListId} (hs : a.StandsFor id target) : b.StandsFor id target := by
  obtain ⟨i, hi, ht⟩ := hs
  obtain ⟨node, hn, hb⟩ := inclusion_eq_ok.1 hi
  rcases h.node id node hn with hb' | ⟨_, -, ⟨reference, hr⟩, -⟩
  · exact ⟨i, inclusion_eq_ok.2 ⟨node, hb', hb⟩, ht⟩
  · obtain ⟨text, declared, hbody⟩ := Node.pending?_eq_some.1 hr
    simp only [Node.inclusion?, hbody, Option.some.injEq] at hb
    subst hb
    cases ht

/-- Where one list leads to another it goes on doing so. -/
theorem ResolvesBy.leads {list target : ListId} (hl : a.Leads list target) : b.Leads list target := by
  obtain ⟨items, hitems, id, hid, hs⟩ := hl
  exact ⟨items, (h.list list).trans hitems, id, hid, h.standsFor hs⟩

/-- What is grounded stays grounded. -/
theorem ResolvesBy.grounded {list : ListId} (hg : a.Grounded list) : b.Grounded list := by
  induction hg with
  | solid hs => exact .solid (h.solid.2 hs)
  | through hl _ ih => exact .through (h.leads hl) ih

/-- What an include stands for after resolution it stood for before, or it was resolved to it. -/
theorem ResolvesBy.standsFor_before {id : NodeId} {target : ListId} (hs : b.StandsFor id target) :
    a.StandsFor id target ∨ P id target ∧ ∃ reference, a.pending? id = some reference := by
  obtain ⟨i, hi, ht⟩ := hs
  obtain ⟨node, hn, hb⟩ := inclusion_eq_ok.1 hi
  obtain ⟨old, ho, rfl | ⟨t, hp, ⟨reference, hr⟩, rfl⟩⟩ := h.node_before hn
  · exact Or.inl ⟨i, inclusion_eq_ok.2 ⟨_, ho, hb⟩, ht⟩
  · obtain ⟨j, -, hj, hjt⟩ := Node.resolveTo?_of_pending hr t
    rw [hj] at hb
    simp only [Node.inclusion?, Option.some.injEq] at hb
    subst hb
    rw [hjt, Option.some.injEq] at ht
    subst ht
    exact Or.inr ⟨hp, reference, (pending?_of_node ho).trans hr⟩

/-- Resolving includes of a closed region to lists of the region keeps it closed. -/
theorem ResolvesBy.closedIn {ρ : Region} (hc : a.ClosedIn ρ) (hP : ∀ id target, ρ.nodes id → P id target → ρ.lists target) :
    b.ClosedIn ρ := by
  refine ⟨?_, fun id items hl => hc.list id items ((h.list id) ▸ hl),
    fun id r hr => hc.repository id r ((h.repository id) ▸ hr)⟩
  intro id node hn hid
  obtain ⟨old, ho, rfl | ⟨target, hp, ⟨reference, hr⟩, rfl⟩⟩ := h.node_before hn
  · exact hc.node id _ ho hid
  · obtain ⟨hparent, hbody⟩ := hc.node id _ ho hid
    obtain ⟨text, declared, hb⟩ := Node.pending?_eq_some.1 hr
    obtain ⟨name, rule, parent, body⟩ := old
    simp only at hb
    subst hb
    refine ⟨hparent, hbody.1, ?_⟩
    intro t ht
    cases ht
    exact hP id target hid hp

/-- There are the objects that there were. -/
theorem ResolvesBy.region_eq : b.region = a.region := by
  simp only [region, Region.mk.injEq]
  exact ⟨funext fun _ => propext h.hasNode, funext fun _ => propext h.hasList, funext fun _ => propext h.hasRepository⟩

/-- Resolving includes to lists that are there keeps an arena closed. -/
theorem ResolvesBy.closed (hc : a.Closed) (hP : ∀ id target, P id target → a.HasList target) : b.Closed := by
  unfold Closed
  rw [h.region_eq]
  exact h.closedIn hc fun id target _ => hP id target

/-- A chain is as it was. -/
theorem ResolvesBy.chain {start : Option RepositoryId} {ids : List RepositoryId} (hc : a.Chain start ids) : b.Chain start ids :=
  hc.congr h.repositories

/-- Chains of repositories that end go on ending. -/
theorem ResolvesBy.finiteIn {ρ : Region} (hf : a.FiniteIn ρ) : b.FiniteIn ρ := by
  intro id hid
  obtain ⟨ids, hids⟩ := hf id hid
  exact ⟨ids, h.chain hids⟩

/-- If all chains of repositories end, they do so after resolution. -/
theorem ResolvesBy.finiteChains (hf : a.FiniteChains) : b.FiniteChains := by
  intro id hid
  obtain ⟨ids, hids⟩ := hf id (h.hasRepository.1 hid)
  exact ⟨ids, h.chain hids⟩

/-- No repository gets a key twice. -/
theorem ResolvesBy.keyedIn (hk : a.KeyedIn a.region) : b.KeyedIn b.region := by
  rw [h.region_eq]
  exact hk.congr (fun _ _ hid => hid) h.repositories

/-- Repositories stay nested as they were. -/
theorem ResolvesBy.nested (hn : a.Nested) : b.Nested :=
  fun id r p hr => hn id r p ((h.repository id) ▸ hr)

end

/-! ## Resolving many includes at once -/

/-- The arena in which every pending include that a function has a list for is resolved to it. -/
def resolveAll (a : Arena) (f : NodeId → Option ListId) : Arena :=
  { a with
    nodes := a.nodes.mapIdx fun i node =>
      match f ⟨i⟩ with
      | some target => node.resolvedTo target
      | none => node }

section

variable {f : NodeId → Option ListId} {id : NodeId} {node : Node}

/-- A node that a list is given for is resolved to it. -/
theorem node_resolveAll_some (hn : a.node id = .ok node) {target : ListId} (hf : f id = some target) :
    (a.resolveAll f).node id = .ok (node.resolvedTo target) := by
  rw [node_eq_ok] at hn ⊢
  simp [resolveAll, hn, hf]

/-- A node that no list is given for is left. -/
theorem node_resolveAll_none (hn : a.node id = .ok node) (hf : f id = none) : (a.resolveAll f).node id = .ok node := by
  rw [node_eq_ok] at hn ⊢
  simp [resolveAll, hn, hf]

/-- Resolving many includes at once is a change of resolution. -/
theorem resolvesBy_resolveAll (a : Arena) (f : NodeId → Option ListId) :
    ResolvesBy (fun id target => f id = some target) a (a.resolveAll f) := by
  refine ⟨rfl, rfl, by simp [resolveAll], ?_⟩
  intro id node hn
  cases hf : f id with
  | none => exact Or.inl (node_resolveAll_none hn hf)
  | some target =>
    cases hp : node.pending? with
    | none => exact Or.inl ((node_resolveAll_some hn hf).trans (by rw [Node.resolvedTo_of_not_pending hp]))
    | some reference => exact Or.inr ⟨target, rfl, ⟨reference, rfl⟩, node_resolveAll_some hn hf⟩

end

/-- Resolution that has not gone further than a function says has the rest still to do. -/
theorem ResolvesBy.resolvesBy_resolveAll {f : NodeId → Option ListId} (h : ResolvesBy P a b)
    (hP : ∀ id target, P id target → f id = some target) :
    ResolvesBy (fun id target => f id = some target) b (a.resolveAll f) := by
  refine ⟨h.lists.symm, h.repositories.symm, by simp [resolveAll, h.size], ?_⟩
  intro id node hn
  obtain ⟨old, ho, rfl | ⟨target, hp, ⟨reference, hr⟩, rfl⟩⟩ := h.node_before hn
  · exact (Arena.resolvesBy_resolveAll a f).node id node ho
  · exact Or.inl (node_resolveAll_some ho (hP id target hp))

/-- An include that may be resolved to one list alone, and does not wait any more, was resolved to that list. -/
theorem ResolvesBy.node_resolved (h : ResolvesBy P a b) {id : NodeId} {target : ListId}
    (hone : ∀ list, P id list → list = target) (hb : b.pending? id = none) {node : Node} (hn : a.node id = .ok node) :
    b.node id = .ok (node.resolvedTo target) := by
  rcases h.node id node hn with hsame | ⟨list, hp, -, hres⟩
  · rw [hsame, Node.resolvedTo_of_not_pending ((pending?_of_node hsame).symm.trans hb)]
  · rw [hres, hone list hp]

/-- When it waited before, it stands for that list. -/
theorem ResolvesBy.standsFor_resolved (h : ResolvesBy P a b) {id : NodeId} {target : ListId}
    (hone : ∀ list, P id list → list = target) (hb : b.pending? id = none) {reference : Reference}
    (hp : a.pending? id = some reference) : b.StandsFor id target := by
  obtain ⟨node, hn, hp⟩ := Arena.pending?_eq_some.1 hp
  obtain ⟨i, -, hres, ht⟩ := Node.resolveTo?_of_pending hp target
  refine ⟨i, ?_, ht⟩
  rw [inclusion_of_node (h.node_resolved hone hb hn), hres]
  rfl

/-- A node that may not be resolved stays as it was. -/
theorem ResolvesBy.node_kept (h : ResolvesBy P a b) {id : NodeId} (hno : ∀ target, ¬P id target) {node : Node}
    (hn : a.node id = .ok node) : b.node id = .ok node :=
  (h.node id node hn).resolve_right fun ⟨target, hp, _⟩ => hno target hp

/-- An include that may not be resolved is left. -/
theorem ResolvesBy.inclusion_kept (h : ResolvesBy P a b) {id : NodeId} (hno : ∀ target, ¬P id target) (hid : a.HasNode id) :
    b.inclusion id = a.inclusion id := by
  obtain ⟨node, hn⟩ := hid.node_ok
  rw [inclusion_of_node hn, inclusion_of_node (h.node_kept hno hn)]

/-- Two ways to resolve includes end in one state when each include may be resolved to one list at most, and is resolved if it
may be. -/
theorem ResolvesBy.eq_of_exhausted (h : ResolvesBy P a b) (h' : ResolvesBy P a c)
    (hone : ∀ id list target, P id list → P id target → list = target)
    (hb : ∀ id target, P id target → b.pending? id = none) (hc : ∀ id target, P id target → c.pending? id = none) :
    b = c := by
  refine ext_of_nodes (h.lists.trans h'.lists.symm) (h.repositories.trans h'.repositories.symm) (h.size.trans h'.size.symm)
    ?_
  intro id node hn
  obtain ⟨old, ho, rfl | ⟨target, hp, ⟨reference, hr⟩, rfl⟩⟩ := h.node_before hn
  · rcases h'.node id node ho with hcn | ⟨target, hp, ⟨reference, hr⟩, hcn⟩
    · exact hcn
    · have hnone := hb id target hp
      rw [pending?_of_node hn, hr] at hnone
      cases hnone
  · rcases h'.node id old ho with hcn | ⟨list, hp', -, hcn⟩
    · have hnone := hc id target hp
      rw [pending?_of_node hcn, hr] at hnone
      cases hnone
    · rw [hone id target list hp hp']
      exact hcn

/-- Resolution that leaves no include waiting that it may resolve. -/
structure Exhausts (P : NodeId → ListId → Prop) (a b : Arena) : Prop where
  resolvesBy : ResolvesBy P a b
  done : ∀ id target, P id target → b.pending? id = none

/-- An include that does not wait does not wait after resolution. -/
theorem ResolvesBy.pending?_eq_none (h : ResolvesBy P a b) {id : NodeId} (ha : a.pending? id = none) : b.pending? id = none := by
  refine Option.eq_none_iff_forall_ne_some.2 fun reference hb => ?_
  cases ha.symm.trans (h.node_of_pending hb).2

/-- Two resolutions one after the other leave nothing waiting that is for the first one, or for the second one if it waits then. -/
theorem Exhausts.trans {R : NodeId → ListId → Prop} (h : Exhausts P a b) (h' : Exhausts Q b c)
    (hP : ∀ id target, P id target → R id target) (hQ : ∀ id target, Q id target → R id target)
    (hR : ∀ id target, R id target → P id target ∨ (b.pending? id ≠ none → Q id target)) : Exhausts R a c := by
  refine ⟨(h.resolvesBy.mono hP).trans (h'.resolvesBy.mono hQ), fun id target hr => ?_⟩
  by_cases hb : b.pending? id = none
  · exact h'.resolvesBy.pending?_eq_none hb
  · rcases hR id target hr with hp | hq
    · exact absurd (h.done id target hp) hb
    · exact h'.done id target (hq hb)

/-- Where an include may be resolved to one list at most, there is one state that leaves nothing waiting. -/
theorem Exhausts.unique (h : Exhausts P a b) (h' : Exhausts P a c)
    (hone : ∀ id list target, P id list → P id target → list = target) : b = c :=
  h.resolvesBy.eq_of_exhausted h'.resolvesBy hone h.done h'.done

/-! ## Resolving one include -/

/-- Resolving a pending include changes what is read at its id and nothing else. -/
theorem resolveInclude?_ok {id : NodeId} {node : Node} {reference : Reference} (hn : a.node id = .ok node)
    (hp : node.pending? = some reference) (target : ListId) :
    ∃ b, a.resolveInclude? id target = .ok (some b) ∧ b.lists = a.lists ∧ b.repositories = a.repositories ∧
      b.nodes.size = a.nodes.size ∧ ∀ m, b.node m = if m = id then .ok (node.resolvedTo target) else a.node m := by
  obtain ⟨i, hi, hres, -⟩ := Node.resolveTo?_of_pending hp target
  obtain ⟨b, hb⟩ := setNode_ok (hasNode_of_node hn) { node with body := .inclusion i }
  obtain ⟨-, hl, hr, hs, hnode⟩ := setNode_eq_ok hb
  refine ⟨b, ?_, hl, hr, hs, fun m => by rw [hres]; exact hnode m⟩
  simp only [resolveInclude?, hn, bind, Except.bind, hi, hb]
  rfl

/-- Resolving a pending include that may be resolved is a change of resolution, after which it does not wait. -/
theorem resolveInclude?_resolvesBy {id : NodeId} {reference : Reference} (hp : a.pending? id = some reference) {target : ListId}
    (hP : P id target) :
    ∃ b, a.resolveInclude? id target = .ok (some b) ∧ ResolvesBy P a b ∧ b.pending? id = none ∧
      ∀ m, m ≠ id → b.pending? m = a.pending? m := by
  obtain ⟨node, hn, hr⟩ := Arena.pending?_eq_some.1 hp
  obtain ⟨b, hb, hl, hrep, hs, hnode⟩ := resolveInclude?_ok hn hr target
  refine ⟨b, hb, ⟨hl, hrep, hs, ?_⟩, ?_, ?_⟩
  · intro m old ho
    rw [hnode]
    by_cases hm : m = id
    · subst hm
      rw [hn, Except.ok.injEq] at ho
      subst ho
      exact Or.inr ⟨target, hP, ⟨reference, hr⟩, if_pos rfl⟩
    · exact Or.inl ((if_neg hm).trans ho)
  · rw [pending?_of_node ((hnode id).trans (if_pos rfl)), Node.pending?_resolvedTo hr]
  · intro m hm
    have hread := (hnode m).trans (if_neg hm)
    by_cases hhas : a.HasNode m
    · obtain ⟨old, ho⟩ := hhas.node_ok
      rw [pending?_of_node ho, pending?_of_node (hread.trans ho)]
    · have hhas' : ¬b.HasNode m := by rwa [HasNode, hs]
      rw [Arena.pending?, Arena.pending?, Array.getElem?_eq_none (Nat.le_of_not_lt hhas),
        Array.getElem?_eq_none (Nat.le_of_not_lt hhas')]

end Arena

namespace Resolution

open Arena

/-- A pass attaches a pending include by resolving it. -/
theorem attach_resolvesBy {a : Arena} {P : NodeId → ListId → Prop} {id : NodeId} {reference : Reference}
    (hp : a.pending? id = some reference) {target : ListId} (hP : P id target) :
    ∃ b, attach a id target = .ok b ∧ ResolvesBy P a b ∧ b.pending? id = none ∧
      ∀ m, m ≠ id → b.pending? m = a.pending? m := by
  obtain ⟨b, hb, hres⟩ := resolveInclude?_resolvesBy hp hP
  exact ⟨b, by rw [attach, hb]; rfl, hres⟩

end Resolution

end GrammarLinker
