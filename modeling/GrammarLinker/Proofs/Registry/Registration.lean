import GrammarLinker.Proofs.Record
import GrammarLinker.Proofs.Registry.Build

/-!
# What a build registers

From whatever draft a build starts, and whether or not it comes to an end, it appends to the registry exactly the includes that it adds
to the arena, in the order of their ids (`Draft.AppendsAdded`). Nothing need be known of the arena for this, and the repository and the parent
that are passed need not be there.

A build that comes to an end loses no node either (`Draft.Accounts`): what it added is given back, to be put into a list by the caller,
or is in a list that belongs to a rule or to a repository. Here no key may be repeated, since a list that is put for a key takes the
place of one that was there.
-/

namespace GrammarLinker

open Arena

/-! ## What is kept when nothing is lost -/

namespace Arena

variable {a b c lo : Arena}

/-- A list has the children of a rule that an earlier arena does not hold, or is an entry of a repository that it does not hold. -/
def BelongsSince (a lo : Arena) (list : ListId) : Prop :=
  (∃ id, ¬lo.HasNode id ∧ a.Owns id list) ∨ ∃ id r key, ¬lo.HasRepository id ∧ a.repository id = .ok r ∧ (key, list) ∈ r.entries

/-- A node is in such a list. -/
def SettledSince (a lo : Arena) (id : NodeId) : Prop := ∃ list, a.BelongsSince lo list ∧ a.Holds list id

/-- Nodes stay, lists keep what they hold, and repositories keep their entries. -/
structure Retains (a b : Arena) : Prop where
  node : ∀ id node, a.node id = .ok node → b.node id = .ok node
  holds : ∀ list id, a.Holds list id → b.Holds list id
  entries : ∀ id r, a.repository id = .ok r → ∃ r', b.repository id = .ok r' ∧ ∀ entry ∈ r.entries, entry ∈ r'.entries

/-- An arena retains what it has. -/
theorem Retains.refl (a : Arena) : a.Retains a :=
  ⟨fun _ _ h => h, fun _ _ h => h, fun _ r h => ⟨r, h, fun _ he => he⟩⟩

/-- Retaining goes on. -/
theorem Retains.trans (h : a.Retains b) (h' : b.Retains c) : a.Retains c := by
  refine ⟨fun id node hn => h'.node id node (h.node id node hn), fun list id hh => h'.holds list id (h.holds list id hh), ?_⟩
  intro id r hr
  obtain ⟨r', hr', he⟩ := h.entries id r hr
  obtain ⟨r'', hr'', he'⟩ := h'.entries id r' hr'
  exact ⟨r'', hr'', fun entry hm => he' entry (he entry hm)⟩

/-- An arena that is extended retains everything. -/
theorem Extends.retains (h : a.Extends b) : a.Retains b :=
  ⟨h.node, fun list _ ⟨items, hl, hm⟩ => ⟨items, h.list list items hl, hm⟩, fun id r hr => ⟨r, h.repository id r hr, fun _ he => he⟩⟩

/-- An empty list may be filled. -/
theorem retains_setList {list : ListId} {items : List NodeId} (hb : a.setList list items = .ok b) (he : ∀ id, ¬a.Holds list id) :
    a.Retains b := by
  obtain ⟨-, hn, hr, -, -⟩ := setList_eq_ok hb
  refine ⟨fun id node h => (node_congr hn id).trans h, fun l id hh => ?_, fun id r h => ⟨r, (repository_congr hr id).trans h, fun _ h => h⟩⟩
  rw [holds_setList hb, if_neg fun heq : l = list => he id (heq ▸ hh)]
  exact hh

/-- A list may be put for a key that is not there. -/
theorem retains_insertEntry {repository : RepositoryId} {key : String} {list : ListId} {r : Repository}
    (hb : a.insertEntry repository key list = .ok b) (hr : a.repository repository = .ok r) (hkey : key ∉ Keyed.keys r.entries) :
    b.repository repository = .ok { r with entries := r.entries ++ [(key, list)] } ∧ a.Retains b := by
  obtain ⟨hn, hl, -, old, hold, hput⟩ := insertEntry_eq_ok hb
  obtain rfl : old = r := Except.ok.inj (hold.symm.trans hr)
  have hnew := (hput repository).trans (if_pos rfl)
  rw [Keyed.put_of_not_mem list hkey] at hnew
  refine ⟨hnew, fun id node h => (node_congr hn id).trans h, fun l id hh => (holds_congr hl).2 hh, fun id r h => ?_⟩
  by_cases heq : id = repository
  · subst heq
    obtain rfl : r = old := Except.ok.inj (h.symm.trans hr)
    exact ⟨_, hnew, fun entry he => List.mem_append_left _ he⟩
  · exact ⟨r, (hput id).trans ((if_neg heq).trans h), fun _ he => he⟩

/-- What is settled stays settled. -/
theorem Retains.settledSince (h : a.Retains b) {id : NodeId} (hs : a.SettledSince lo id) : b.SettledSince lo id := by
  obtain ⟨list, hbelongs, hh⟩ := hs
  refine ⟨list, ?_, h.holds list id hh⟩
  rcases hbelongs with ⟨p, hp, node, hn, hb⟩ | ⟨repository, r, key, hid, hr, he⟩
  · exact .inl ⟨p, hp, node, h.node p node hn, hb⟩
  · obtain ⟨r', hr', hsub⟩ := h.entries repository r hr
    exact .inr ⟨repository, r', key, hid, hr', hsub _ he⟩

end Arena

namespace Draft

variable {α β : Type} {lo : Arena} {ω ω' : Region} {d d' d'' : Draft} {x : LinkM Draft α} {Q : α → Draft → Prop}

/-- A node that is kept stays an include or a rule. -/
theorem Keeps.isInclude {a b : Arena} (h : Keeps ω a b) {id : NodeId} (hid : a.HasNode id) : b.IsInclude id ↔ a.IsInclude id := by
  obtain ⟨node, hn⟩ := hid.node_ok
  simp only [isInclude_iff, hn, h.node id node hn]

/-! ## Registering -/

/-- Exactly the includes that were added are appended to the registry, in the order of their ids. -/
def AppendsAdded (d d' : Draft) : Prop :=
  ∃ ids, d'.registry.includes = d.registry.includes ++ ids ∧ ids.Pairwise (fun p q => p.index < q.index) ∧
    ∀ id, id ∈ ids ↔ (d'.added d.arena).nodes id ∧ d'.arena.IsInclude id

/-- So it is, and a region is left alone. -/
structure Logs (ω : Region) (d d' : Draft) : Prop where
  keeps : Keeps ω d.arena d'.arena
  appends : d.AppendsAdded d'

/-- A change that adds no include registers none. -/
theorem logs_of_registry (hk : Keeps ω d.arena d'.arena) (hreg : d'.registry = d.registry)
    (hn : ∀ id, (d'.added d.arena).nodes id → ¬d'.arena.IsInclude id) : Logs ω d d' := by
  refine ⟨hk, [], by rw [hreg, List.append_nil], .nil, fun id => iff_of_false List.not_mem_nil ?_⟩
  exact fun h => hn id h.1 h.2

/-- A change of lists and repositories registers nothing. -/
theorem logs_of_nodes (hk : Keeps ω d.arena d'.arena) (hreg : d'.registry = d.registry) (hn : d'.arena.nodes = d.arena.nodes) :
    Logs ω d d' := by
  exact logs_of_registry hk hreg fun id hid => absurd ((hasNode_congr (congrArg Array.size hn)).1 hid.2) hid.1

/-- Nothing is registered where nothing is added. -/
theorem Logs.refl (ω : Region) (d : Draft) : Logs ω d d :=
  logs_of_nodes (.refl ω _) rfl rfl

/-- What leaves a region alone leaves every part of it alone. -/
theorem Logs.weaken (h : Logs ω d d') (hw : ω'.Within ω) : Logs ω' d d' :=
  ⟨h.keeps.weaken hw, h.appends⟩

/-- What is registered later was added later, so it has greater ids. -/
theorem Logs.trans (h : Logs ω d d') (h' : Logs ω d' d'') : Logs ω d d'' := by
  obtain ⟨hk, ids, happ, hord, hmem⟩ := h
  obtain ⟨hk', ids', happ', hord', hmem'⟩ := h'
  refine ⟨hk.trans hk', ids ++ ids', by rw [happ', happ, List.append_assoc], ?_, fun id => ?_⟩
  · refine List.pairwise_append.2 ⟨hord, hord', fun p hp q hq => ?_⟩
    have hold : d'.arena.HasNode p := ((hmem p).1 hp).1.2
    have hnew : ¬d'.arena.HasNode q := ((hmem' q).1 hq).1.1
    exact Nat.lt_of_lt_of_le hold (Nat.le_of_not_lt hnew)
  · rw [List.mem_append, hmem, hmem']
    by_cases hid : d'.arena.HasNode id
    · rw [hk'.isInclude hid]
      exact ⟨fun h => h.elim (fun h => ⟨⟨h.1.1, hk'.hasNode hid⟩, h.2⟩) fun h => absurd hid h.1.1, fun h => .inl ⟨⟨h.1.1, hid⟩, h.2⟩⟩
    · exact ⟨fun h => h.elim (fun h => absurd h.1.2 hid) fun h => ⟨⟨fun hlo => hid (hk.hasNode hlo), h.1.2⟩, h.2⟩,
        fun h => .inr ⟨⟨hid, h.1.2⟩, h.2⟩⟩

/-- A part of a build answers, with or without an error, and registers what it adds; what is said of its value holds if it has one. -/
def Registers (ω : Region) (x : LinkM Draft α) (d : Draft) (Q : α → Draft → Prop) : Prop :=
  ∃ answer d', x.start d = .ok (answer, d') ∧ Logs ω d d' ∧ ∀ value, answer = .ok value → Q value d'

/-- A value is given back, and nothing is registered. -/
theorem registers_pure {value : α} (h : Q value d) : Registers ω (pure value) d Q :=
  ⟨.ok value, d, rfl, .refl ω d, fun _ hv => Except.ok.inj hv ▸ h⟩

/-- A part that answers at once registers what it adds. -/
theorem registers_step {value : α} (hx : x.start d = .ok (.ok value, d')) (hl : Logs ω d d') (h : Q value d') : Registers ω x d Q :=
  ⟨.ok value, d', hx, hl, fun _ hv => Except.ok.inj hv ▸ h⟩

/-- Parts of a build may follow each other, and what they register adds up. -/
theorem Registers.bind {f : α → LinkM Draft β} {R : β → Draft → Prop} (hx : Registers ω x d Q)
    (hf : ∀ value d', Logs ω d d' → Q value d' → Registers ω (f value) d' R) : Registers ω (x >>= f) d R := by
  obtain ⟨answer, d₁, hrun, hl, hq⟩ := hx
  cases answer with
  | error e => exact ⟨.error e, d₁, by rw [LinkM.start_bind, hrun], hl, nofun⟩
  | ok value =>
    obtain ⟨answer', d₂, hrun', hl', hr⟩ := hf value d₁ hl (hq value rfl)
    exact ⟨answer', d₂, by rw [LinkM.start_bind, hrun]; exact hrun', hl.trans hl', hr⟩

/-- What leaves a region alone leaves every part of it alone. -/
theorem Registers.weaken (h : Registers ω x d Q) (hw : ω'.Within ω) : Registers ω' x d Q := by
  obtain ⟨answer, d', hrun, hl, hq⟩ := h
  exact ⟨answer, d', hrun, hl.weaken hw, hq⟩

/-- Less may be said of the value. -/
theorem Registers.imp {R : α → Draft → Prop} (h : Registers ω x d Q) (hq : ∀ value d', Logs ω d d' → Q value d' → R value d') :
    Registers ω x d R := by
  obtain ⟨answer, d', hrun, hl, hv⟩ := h
  exact ⟨answer, d', hrun, hl, fun value ha => hq value d' hl (hv value ha)⟩

/-- What is left alone can be relied on afterwards, also when less is asked to be left alone. -/
theorem Registers.logs (h : Registers ω x d Q) : Registers ω x d fun value d' => Q value d' ∧ Keeps ω d.arena d'.arena :=
  h.imp fun _ _ hl hq => ⟨hq, hl.keeps⟩

/-! ### The steps -/

/-- A rule is added without being registered. -/
theorem registers_allocNode {node : Node} (hr : node.isRule = true) :
    Registers ω (allocNode node) d fun id d' =>
      id = (d.arena.allocNode node).1 ∧ d' = { d with arena := (d.arena.allocNode node).2 } := by
  refine registers_step rfl (logs_of_registry (keeps_of_extends (extends_allocNode _ _)) rfl fun id hid hinc => ?_) ⟨rfl, rfl⟩
  obtain ⟨m, hm, hnot⟩ := isInclude_iff.1 hinc
  rcases node_allocNode.1 hm with hold | ⟨-, rfl⟩
  · exact hid.1 (hasNode_of_node hold)
  · exact Bool.false_ne_true (hnot.symm.trans hr)

/-- A list is added, and nothing is registered. -/
theorem registers_allocList (items : List NodeId) :
    Registers ω (allocList items) d fun list d' =>
      list = (d.arena.allocList items).1 ∧ d' = { d with arena := (d.arena.allocList items).2 } :=
  registers_step rfl (logs_of_nodes (keeps_of_extends (extends_allocList _ _)) rfl rfl) ⟨rfl, rfl⟩

/-- A repository is added, and nothing is registered. -/
theorem registers_allocRepository (parent : Option RepositoryId) :
    Registers ω (allocRepository parent) d fun id d' =>
      id = (d.arena.allocRepository parent).1 ∧ d' = { d with arena := (d.arena.allocRepository parent).2 } :=
  registers_step rfl (logs_of_nodes (keeps_of_extends (extends_allocRepository _ _)) rfl rfl) ⟨rfl, rfl⟩

/-- The items of a list are written, and nothing is registered. -/
theorem registers_setList {list : ListId} (hl : d.arena.HasList list) (hω : ¬ω.lists list) (items : List NodeId) :
    Registers ω (setList list items) d fun _ d' => ∃ b, d.arena.setList list items = .ok b ∧ d' = { d with arena := b } := by
  obtain ⟨b, hb⟩ := setList_ok hl items
  have hx : (setList list items).start d = .ok (.ok (), { d with arena := b }) := LinkM.start_ofChange_ok (by rw [hb]; rfl)
  obtain ⟨-, hn, -⟩ := setList_eq_ok hb
  exact registers_step hx (logs_of_nodes (keeps_setList hb hω) rfl hn) ⟨b, hb, rfl⟩

/-- A repository is given an entry, and nothing is registered. -/
theorem registers_insertEntry {repository : RepositoryId} (hr : d.arena.HasRepository repository) (hω : ¬ω.repositories repository)
    (key : String) (list : ListId) :
    Registers ω (insertEntry repository key list) d fun _ d' =>
      ∃ b, d.arena.insertEntry repository key list = .ok b ∧ d' = { d with arena := b } := by
  obtain ⟨b, hb⟩ := insertEntry_ok hr key list
  have hx : (insertEntry repository key list).start d = .ok (.ok (), { d with arena := b }) :=
    LinkM.start_ofChange_ok (by rw [hb]; rfl)
  obtain ⟨hn, -⟩ := insertEntry_eq_ok hb
  exact registers_step hx (logs_of_nodes (keeps_insertEntry hb hω) rfl hn) ⟨b, hb, rfl⟩

/-! ## Accounting for nodes -/

/-- Nothing is lost between two drafts, and every node that was added is one of the items or is settled in what came after `lo`. -/
structure Accounts (lo : Arena) (d : Draft) (items : List NodeId) (d' : Draft) : Prop where
  retains : d.arena.Retains d'.arena
  settles : ∀ id, (d'.added d.arena).nodes id → id ∈ items ∨ d'.arena.SettledSince lo id

/-- Where no node is added there is none to account for. -/
theorem accounts_of_nodes (h : d.arena.Retains d'.arena) (hn : d'.arena.nodes = d.arena.nodes) : Accounts lo d [] d' := by
  exact ⟨h, fun id hid => absurd ((hasNode_congr (congrArg Array.size hn)).1 hid.2) hid.1⟩

/-- One node was added, and it is accounted for. -/
theorem accounts_allocNode (lo : Arena) (d : Draft) (node : Node) (registry : Registry) :
    Accounts lo d [(d.arena.allocNode node).1] ⟨(d.arena.allocNode node).2, registry⟩ :=
  ⟨(extends_allocNode _ _).retains, fun _ hid => .inl (List.mem_singleton.2 ((since_allocNode hid).resolve_left fun h => hid.1 h.2))⟩

/-- What is accounted for in two parts is accounted for in the whole. -/
theorem Accounts.trans {items items' : List NodeId} (h : Accounts lo d items d') (h' : Accounts lo d' items' d'') :
    Accounts lo d (items ++ items') d'' := by
  refine ⟨h.retains.trans h'.retains, fun id hid => ?_⟩
  by_cases hold : d'.arena.HasNode id
  · exact (h.settles id ⟨hid.1, hold⟩).imp (List.mem_append_left _) h'.retains.settledSince
  · exact (h'.settles id ⟨hold, hid.2⟩).imp_left (List.mem_append_right _)

/-- Items that are settled need not be given back. -/
theorem Accounts.settle {items items' : List NodeId} (h : Accounts lo d items d')
    (hs : ∀ id ∈ items, id ∈ items' ∨ d'.arena.SettledSince lo id) : Accounts lo d items' d' :=
  ⟨h.retains, fun id hid => (h.settles id hid).elim (hs id) .inr⟩

/-- Items are settled when the list that has them is put for a key that has none. -/
theorem Accounts.insertEntry {items : List NodeId} {list : ListId} {repository : RepositoryId} {key : String} {r : Repository}
    {b : Arena} (h : Accounts lo d items d') (hread : d'.arena.list list = .ok items) (hr : d'.arena.repository repository = .ok r)
    (hkey : key ∉ Keyed.keys r.entries) (hnew : ¬lo.HasRepository repository)
    (hb : d'.arena.insertEntry repository key list = .ok b) :
    b.repository repository = .ok { r with entries := r.entries ++ [(key, list)] } ∧ Accounts lo d [] { d' with arena := b } := by
  obtain ⟨hentry, hretains⟩ := retains_insertEntry hb hr hkey
  obtain ⟨hn, -⟩ := insertEntry_eq_ok hb
  have hput : Accounts lo d' [] { d' with arena := b } := accounts_of_nodes hretains hn
  have hplace : b.BelongsSince lo list := .inr ⟨repository, _, key, hnew, hentry, List.mem_append_right _ List.mem_cons_self⟩
  refine ⟨hentry, (h.trans hput).settle fun id hid => .inr ⟨list, hplace, hretains.holds list id ⟨items, hread, ?_⟩⟩⟩
  simpa using hid

/-- A record is built into a node, with an account of everything that is added with it. -/
def RegistersRecord (r : Record) (repository : Option RepositoryId) (parent : Option NodeId) : Prop :=
  ∀ lo d, lo.region.Within d.arena.region → Registers d.arena.region (r.build repository parent) d fun id d' =>
    r.Distinct → Accounts lo d [id] d'

/-- Records are built into nodes, one after the other, with an account of what is added with all of them. -/
def RegistersItems (records : List Record) (repository : Option RepositoryId) (parent : Option NodeId) : Prop :=
  ∀ lo d, lo.region.Within d.arena.region → Registers d.arena.region (Record.buildItems records repository parent) d fun items d' =>
    Record.DistinctItems records → Accounts lo d items d'

/-- No key of entries has a list in a repository yet. -/
def Awaits (d : Draft) (repository : RepositoryId) (entries : List (String × Record)) : Prop :=
  ∃ r, d.arena.repository repository = .ok r ∧ ∀ key ∈ Keyed.keys entries, key ∉ Keyed.keys r.entries

/-- Entries are built into a repository that is there. -/
def RegistersEntries (entries : List (String × Record)) (repository : RepositoryId) : Prop :=
  ∀ lo d, lo.region.Within d.arena.region → d.arena.HasRepository repository →
    Registers (d.arena.region.except repository) (Record.buildEntries entries repository) d fun _ d' =>
      Record.DistinctEntries entries → ¬lo.HasRepository repository → d.Awaits repository entries → Accounts lo d [] d'

/-- An include record becomes an include that is registered, or its reference is malformed and nothing is added. -/
theorem registers_include (text : String) (name : Option String) (rule : MatchRule) (patterns : List Record)
    (nested : List (String × Record)) (repository : Option RepositoryId) (parent : Option NodeId) :
    RegistersRecord ⟨some text, name, rule, patterns, nested⟩ repository parent := by
  intro lo d _
  unfold Record.build
  cases hp : Reference.parse text with
  | error e =>
    have hread := start_readInclude_error hp repository d
    refine ⟨.error _, d, by rw [LinkM.start_bind, hread], .refl _ d, ?_⟩
    rintro _ ⟨⟩
  | ok reference =>
    have hread := start_readInclude_ok hp repository d
    have hnode := d.arena.node_allocNode_self (includeNode name parent text repository reference)
    have hfresh := d.arena.not_hasNode_allocNode (includeNode name parent text repository reference)
    have hlogs : Logs d.arena.region d (d.adding (includeNode name parent text repository reference)) := by
      refine ⟨keeps_of_extends (extends_allocNode _ _), [_], rfl, List.pairwise_singleton _ _, fun id => ?_⟩
      rw [List.mem_singleton]
      constructor
      · rintro rfl
        exact ⟨⟨hfresh, hasNode_of_node hnode⟩, isInclude_iff.2 ⟨_, hnode, rfl⟩⟩
      · exact fun h => (since_allocNode h.1).resolve_left fun hold => hold.1 hold.2
    refine registers_step ?_ hlogs fun _ => accounts_allocNode _ _ _ _
    rw [LinkM.start_bind, hread]
    rfl

/-- The patterns of a rule are built, and its empty list of children filled with them. -/
theorem registers_children {patterns : List Record} {scope : Option RepositoryId} {id : NodeId} {children : ListId}
    (hb : RegistersItems patterns scope (some id)) (hlo : lo.region.Within d.arena.region) (howns : d.arena.Owns id children)
    (hid : ¬lo.HasNode id) (hc : d.arena.list children = .ok []) :
    Registers (d.arena.region.exceptList children) (do
      let items ← Record.buildItems patterns scope (some id)
      setList children items
      return id) d fun value d' => value = id ∧ (Record.DistinctItems patterns → Accounts lo d [] d') := by
  refine ((hb lo d hlo).logs.weaken Region.exceptList_within).bind ?_
  rintro items d₁ - ⟨hitems, hk⟩
  have hc₁ := hk.list children [] (hasList_of_list hc) hc
  refine (registers_setList (ω := d.arena.region.exceptList children) (hasList_of_list hc₁) Region.not_exceptList items).bind ?_
  rintro - d₂ - ⟨b, hset, hd₂⟩
  refine registers_pure ⟨rfl, fun hdistinct => ?_⟩
  subst hd₂
  obtain ⟨-, hn, -, -, -⟩ := setList_eq_ok hset
  have hempty : ∀ m, ¬d₁.arena.Holds children m := by
    rintro m ⟨xs, hxs, hm⟩
    rw [hc₁] at hxs
    cases hxs
    cases hm
  have hput : Accounts lo d₁ [] { d₁ with arena := b } := accounts_of_nodes (retains_setList hset hempty) hn
  have hacc := (hitems hdistinct).trans hput
  obtain ⟨node, hnode, hbody⟩ := howns
  have howns' : b.Owns id children := ⟨node, hacc.retains.node id node hnode, hbody⟩
  refine hacc.settle fun m hm => .inr ⟨children, .inl ⟨id, hid, howns'⟩, ?_⟩
  rw [holds_setList hset, if_pos rfl]
  simpa using hm

/-- Entries are built into a repository of their own. -/
theorem registers_buildRepository_of {entries : List (String × Record)} (hentries : ∀ repository, RegistersEntries entries repository)
    (hlo : lo.region.Within d.arena.region) (parent : Option RepositoryId) :
    Registers d.arena.region (Registry.buildRepository entries parent) d fun _ d' =>
      Record.DistinctEntries entries → Accounts lo d [] d' := by
  refine (registers_allocRepository parent).bind ?_
  rintro repository d₁ hl₁ ⟨hrep, hd₁⟩
  have hfresh : ¬d.arena.HasRepository repository := by
    rw [hrep]
    exact not_hasRepository_allocRepository _ _
  have hread : d₁.arena.repository repository = .ok { parent } := by
    rw [hd₁, hrep]
    exact repository_allocRepository_self _ _
  have hw := hl₁.keeps.region.except hfresh
  have hentries := hentries repository lo d₁ (hlo.trans hl₁.keeps.region) (hasRepository_of_repository hread)
  refine (hentries.weaken hw).bind fun _ d₂ _ hacc => registers_pure fun hdistinct => ?_
  have hacc₁ : Accounts lo d [] d₁ := by
    rw [hd₁]
    exact accounts_of_nodes (extends_allocRepository _ _).retains rfl
  exact hacc₁.trans (hacc hdistinct (fun h => hfresh (hlo.repositories _ h)) ⟨_, hread, fun _ _ => List.not_mem_nil⟩)

/-- A repository is opened for the patterns of a rule. -/
theorem registers_openScope {nested : List (String × Record)} (hentries : ∀ opened, RegistersEntries nested opened)
    (hlo : lo.region.Within d.arena.region) (repository : Option RepositoryId) :
    Registers d.arena.region (Record.openScope nested repository) d fun _ d' =>
      Record.DistinctEntries nested → Accounts lo d [] d' := by
  unfold Record.openScope
  split
  · exact registers_pure fun _ => accounts_of_nodes (.refl _) rfl
  · exact (registers_buildRepository_of hentries hlo repository).bind fun opened d' _ hacc => registers_pure hacc

/-- A rule is added with a list of its own, and something else is done with the two. -/
theorem registers_newRule (lo : Arena) {rest : ListId → NodeId → LinkM Draft α} (name : Option String) (rule : MatchRule)
    (parent : Option NodeId)
    (hrest : ∀ children id d', Logs ω d d' → d.arena.GainsRule { name, rule, parent, body := .rule children } id children d'.arena →
      Accounts lo d [id] d' → Registers ω (rest children id) d' Q) :
    Registers ω (do
      let children ← allocList []
      let id ← allocNode { name, rule, parent, body := .rule children }
      rest children id) d Q := by
  refine (registers_allocList []).bind ?_
  rintro children d₁ hl₁ ⟨hchildren, hd₁⟩
  refine (registers_allocNode rfl).bind ?_
  rintro id d₂ hl₂ ⟨hid, hd₂⟩
  have hacc₁ : Accounts lo d [] d₁ := by
    rw [hd₁]
    exact accounts_of_nodes (extends_allocList _ _).retains rfl
  have hacc₂ : Accounts lo d₁ [id] d₂ := by
    rw [hd₂, hid]
    exact accounts_allocNode _ _ _ _
  exact hrest children id d₂ (hl₁.trans hl₂)
    (gainsRule_alloc (congrArg Draft.arena hd₁) hchildren (congrArg Draft.arena hd₂) hid) (hacc₁.trans hacc₂)

/-- A rule record becomes a rule, whose patterns are built in the repository that it opens, if it opens one. -/
theorem registers_rule {name : Option String} {rule : MatchRule} {patterns : List Record} {nested : List (String × Record)}
    (hitems : ∀ id scope, RegistersItems patterns scope (some id)) (hentries : ∀ opened, RegistersEntries nested opened)
    (repository : Option RepositoryId) (parent : Option NodeId) :
    RegistersRecord ⟨none, name, rule, patterns, nested⟩ repository parent := by
  intro lo d hlo
  rw [Record.build_rule]
  refine registers_newRule lo name rule parent fun children id d₁ hl₁ hrule hacc₁ => ?_
  have hw₁ := hl₁.keeps.region
  refine ((registers_openScope hentries (hlo.trans hw₁) repository).logs.weaken hw₁).bind ?_
  rintro scope d₂ - ⟨hacc₂, hk₂⟩
  -- of what is there now, only the list of the children is changed later
  have hw : d.arena.region.Within (d₂.arena.region.exceptList children) := (hw₁.trans hk₂.region).exceptList hrule.freshList
  have howns : d₂.arena.Owns id children := ⟨_, hk₂.node id _ hrule.read, rfl⟩
  have hempty : d₂.arena.list children = .ok [] := hk₂.list children [] (hasList_of_list hrule.empty) hrule.empty
  have hnew : ¬lo.HasNode id := fun h => hrule.fresh (hlo.nodes id h)
  refine ((registers_children (hitems id scope) (hlo.trans (hw₁.trans hk₂.region)) howns hnew hempty).weaken hw).imp ?_
  rintro value d' - ⟨rfl, hacc₃⟩ hdistinct
  rw [Record.Distinct] at hdistinct
  exact (hacc₁.trans (hacc₂ hdistinct.2)).trans (hacc₃ hdistinct.1)

/-- No records register nothing. -/
theorem registers_items_nil (repository : Option RepositoryId) (parent : Option NodeId) : RegistersItems [] repository parent := by
  intro lo d _
  unfold Record.buildItems
  exact registers_pure fun _ => accounts_of_nodes (.refl _) rfl

/-- A record is registered before those that follow it. -/
theorem registers_items_cons {r : Record} {rest : List Record} {repository : Option RepositoryId} {parent : Option NodeId}
    (hr : RegistersRecord r repository parent) (hrest : RegistersItems rest repository parent) :
    RegistersItems (r :: rest) repository parent := by
  intro lo d hlo
  unfold Record.buildItems
  refine (hr lo d hlo).bind fun id d₁ hl₁ hid => ?_
  refine ((hrest lo d₁ (hlo.trans hl₁.keeps.region)).weaken hl₁.keeps.region).bind fun ids d₂ _ hids => registers_pure fun hdistinct => ?_
  rw [Record.DistinctItems] at hdistinct
  exact (hid hdistinct.1).trans (hids hdistinct.2)

/-- No entries register nothing. -/
theorem registers_entries_nil (repository : RepositoryId) : RegistersEntries [] repository := by
  intro lo d _ _
  unfold Record.buildEntries
  exact registers_pure fun _ _ _ => accounts_of_nodes (.refl _) rfl

/-- What is built is put into a list of its own. -/
theorem registers_listed {build : LinkM Draft (List NodeId)} {P : Prop}
    (hbuild : Registers d.arena.region build d fun items d' => P → Accounts lo d items d') :
    Registers d.arena.region (build >>= allocList) d fun list d' =>
      P → ∃ items, d'.arena.list list = .ok items ∧ Accounts lo d items d' := by
  refine hbuild.bind fun items d₁ _ hitems => ?_
  refine (registers_allocList items).imp ?_
  rintro list d₂ - ⟨hlist, hd₂⟩ hdistinct
  subst hd₂
  refine ⟨items, ?_, ?_⟩
  · rw [hlist]
    exact list_allocList_self _ _
  · have hput : Accounts lo d₁ [] { d₁ with arena := (d₁.arena.allocList items).2 } :=
      accounts_of_nodes (extends_allocList _ _).retains rfl
    have hacc := (hitems hdistinct).trans hput
    rwa [List.append_nil] at hacc

/-- One entry is built, put into a list of its own, and the list into the repository. -/
theorem registers_entry {build : LinkM Draft (List NodeId)} {repository : RepositoryId} {key : String}
    {r : Record} {entries : List (String × Record)} (hlo : lo.region.Within d.arena.region) (hrep : d.arena.HasRepository repository)
    (hbuild : Registers d.arena.region build d fun items d' => r.Distinct → Accounts lo d items d')
    (hrest : RegistersEntries entries repository) :
    Registers (d.arena.region.except repository) (do
      let items ← build
      let list ← allocList items
      insertEntry repository key list
      Record.buildEntries entries repository) d fun _ d' =>
        Record.DistinctEntries ((key, r) :: entries) → ¬lo.HasRepository repository → d.Awaits repository ((key, r) :: entries) →
          Accounts lo d [] d' := by
  have hw : (d.arena.region.except repository).Within d.arena.region := Region.except_within
  rw [← bind_assoc]
  refine ((registers_listed hbuild).logs.weaken hw).bind ?_
  rintro list d₁ - ⟨hlisted, hk₁⟩
  refine (registers_insertEntry (ω := d.arena.region.except repository) (hk₁.hasRepository repository hrep) Region.not_except
    key list).bind ?_
  rintro - d₂ hl₂ ⟨b, hb, hd₂⟩
  have hk₂ : Keeps (d.arena.region.except repository) d.arena d₂.arena := (hk₁.weaken hw).trans hl₂.keeps
  have hw₂ := (hw.trans hk₂.region).except Region.not_except
  refine ((hrest lo d₂ (hlo.trans hk₂.region) (hk₂.hasRepository repository hrep)).weaken hw₂).imp ?_
  rintro _ d₃ - hacc₃ hdistinct hnone ⟨old, hold, hkeys⟩
  rw [Record.DistinctEntries] at hdistinct
  obtain ⟨hkey, hr, hothers⟩ := hdistinct
  obtain ⟨items, hread, hacc⟩ := hlisted hr
  have hold₁ := hk₁.repository repository old hrep hold
  subst hd₂
  obtain ⟨hnew, hacc₂⟩ := hacc.insertEntry hread hold₁ (hkeys key List.mem_cons_self) hnone hb
  refine hacc₂.trans (hacc₃ hothers hnone ⟨_, hnew, fun other hother hmem => ?_⟩)
  rw [Keyed.keys, List.map_append, List.mem_append] at hmem
  rcases hmem with hmem | hmem
  · exact hkeys other (List.mem_cons_of_mem _ hother) hmem
  · obtain rfl : other = key := List.mem_singleton.1 hmem
    exact hkey hother

/-- An entry is registered before those that follow it. -/
theorem registers_entries_cons {key : String} {r : Record} {rest : List (String × Record)} {repository : RepositoryId}
    (hpatterns : r.isBareGroup = true → RegistersItems r.patterns (some repository) none)
    (hrecord : ¬r.isBareGroup = true → RegistersRecord r (some repository) none) (hrest : RegistersEntries rest repository) :
    RegistersEntries ((key, r) :: rest) repository := by
  intro lo d hlo hrep
  obtain ⟨reference, name, rule, patterns, nested⟩ := r
  unfold Record.buildEntries
  split
  · rename_i hbare
    refine registers_entry hlo hrep ((hpatterns hbare lo d hlo).imp fun items d' _ hacc hdistinct => hacc ?_) hrest
    rw [Record.Distinct] at hdistinct
    exact hdistinct.1
  · rename_i hbare
    rw [← bind_assoc]
    exact registers_entry hlo hrep ((hrecord hbare lo d hlo).bind fun id d' _ hid => registers_pure hid) hrest

/-- Whatever is built, exactly the includes that are added are registered, and every node is accounted for. -/
theorem registers_all :
    (∀ r repository parent, RegistersRecord r repository parent) ∧ (∀ entries repository, RegistersEntries entries repository) ∧
      ∀ records repository parent, RegistersItems records repository parent := by
  refine Record.build.mutual_induct RegistersRecord RegistersEntries RegistersItems ?_ ?_ ?_ ?_ ?_ ?_ ?_
  · exact fun text name rule patterns nested => registers_include text name rule patterns nested
  · exact fun name rule patterns nested repository parent hitems hentries => registers_rule hitems hentries repository parent
  · exact registers_items_nil
  · exact fun r rest repository parent hr hrest => registers_items_cons hr hrest
  · exact registers_entries_nil
  · exact fun key reference name rule patterns nested rest repository hbare hrest hpatterns =>
      registers_entries_cons (fun _ => hpatterns) (fun h => absurd hbare h) hrest
  · exact fun key reference name rule patterns nested rest repository hbare hrest hrecord =>
      registers_entries_cons (fun h => absurd h hbare) (fun _ => hrecord) hrest

/-! ## Whole registries -/

/-- Whatever records are built into a list, and wherever, exactly the includes that are added are registered. -/
theorem registers_build (hlo : lo.region.Within d.arena.region) (records : List Record) (repository : Option RepositoryId)
    (parent : Option NodeId) :
    Registers d.arena.region (Registry.build records repository parent) d fun root d' =>
      Record.DistinctItems records → ∃ items, d'.arena.list root = .ok items ∧ Accounts lo d items d' :=
  registers_listed (registers_all.2.2 records repository parent lo d hlo)

/-- Building a repository registers what is added, and accounts for all of it when keys are distinct. -/
theorem registers_buildRepository (hlo : lo.region.Within d.arena.region) (entries : List (String × Record))
    (parent : Option RepositoryId) :
    Registers d.arena.region (Registry.buildRepository entries parent) d fun _ d' =>
      Record.DistinctEntries entries → Accounts lo d [] d' :=
  registers_buildRepository_of (registers_all.2.1 entries) hlo parent

end Draft

end GrammarLinker
