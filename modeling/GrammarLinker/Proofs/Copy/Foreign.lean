import GrammarLinker.Proofs.Copy.Commutation
import GrammarLinker.Proofs.Session

/-!
# References of other grammars in a copy

A copy has everything that its grammar reaches, so also what belongs to other grammars, when includes between them have been resolved.
An include of another grammar that is pending at that time is registered by the copy, and the copy resolves what it registers as its own:
`$self` to its root, and a name in its repository when it is not found where the include was declared
(`Grammar.CopiedBy.standsFor_iff`). So a copy keeps what the references of other grammars mean (`Grammar.KeepsForeign`) as long as none
of those that still wait is a `$self` or goes astray like that, and only then (`Session.copy_keepsForeign_iff`): so whenever the other
grammars have resolved their own references before (`Grammar.CopiedBy.keepsForeign_of_localized`).
-/

namespace GrammarLinker

open Arena

/-! ## Where an include was declared -/

/-- The repository in which an include was declared. -/
def Node.declared? (n : Node) : Option RepositoryId := n.inclusion?.bind (·.repository)

/-- Resolution leaves where an include was declared. -/
theorem Node.declared?_resolvedTo (n : Node) (target : ListId) : (n.resolvedTo target).declared? = n.declared? := by
  obtain ⟨name, rule, parent, body⟩ := n
  cases body with
  | rule children => rfl
  | inclusion i =>
    obtain ⟨text, declared, state⟩ := i
    cases state <;> rfl

/-- Where an include was declared gets its other id. -/
theorem Node.declared?_rename (φ : Renaming) (n : Node) (parent : Option NodeId) :
    ({ name := n.name, rule := n.rule, parent, body := n.body.rename φ } : Node).declared? = n.declared?.map φ.repository := by
  obtain ⟨name, rule, -, body⟩ := n
  cases body with
  | rule children => rfl
  | inclusion i =>
    obtain ⟨text, declared, state⟩ := i
    cases state <;> rfl

namespace Arena

/-- A list is an entry of a repository itself. -/
def HasEntry (a : Arena) (repository : RepositoryId) (list : ListId) : Prop :=
  ∃ name, a.entry? name repository = some list

/-- A list is an entry of the repository in which an include was declared, or of one around it. -/
def InScope (a : Arena) (id : NodeId) (list : ListId) : Prop :=
  ∃ node r ids q, a.node id = .ok node ∧ node.declared? = some r ∧ a.Chain (some r) ids ∧ q ∈ ids ∧ a.HasEntry q list

/-- A list is an entry of a repository, but not of one in whose scope an include was declared. -/
def Strays (a : Arena) (repository : RepositoryId) (id : NodeId) (list : ListId) : Prop :=
  a.HasEntry repository list ∧ ¬a.InScope id list

variable {a b : Arena} {φ : Renaming} {ρ : Region} {P : NodeId → ListId → Prop} {id : NodeId} {list : ListId}
  {repository : RepositoryId}

/-! ### After resolution -/

/-- Resolution leaves the entries of a repository. -/
theorem ResolvesBy.hasEntry (h : ResolvesBy P a b) : b.HasEntry repository list ↔ a.HasEntry repository list := by
  simp only [HasEntry, entry?_congr h.repositories]

/-- Resolution does not change in which scope an include was declared. -/
theorem ResolvesBy.inScope (h : ResolvesBy P a b) : b.InScope id list ↔ a.InScope id list := by
  constructor
  · rintro ⟨node, r, ids, q, hn, hd, hc, hq, he⟩
    obtain ⟨old, ho, hold⟩ := h.node_before hn
    refine ⟨old, r, ids, q, ho, ?_, hc.congr h.repositories.symm, hq, h.hasEntry.1 he⟩
    obtain rfl | ⟨target, -, -, rfl⟩ := hold
    · exact hd
    · rwa [Node.declared?_resolvedTo] at hd
  · rintro ⟨node, r, ids, q, hn, hd, hc, hq, he⟩
    rcases h.node id node hn with hb | ⟨target, -, -, hb⟩
    · exact ⟨_, r, ids, q, hb, hd, h.chain hc, hq, h.hasEntry.2 he⟩
    · exact ⟨_, r, ids, q, hb, by rwa [Node.declared?_resolvedTo], h.chain hc, hq, h.hasEntry.2 he⟩

/-- Resolution leaves what is in the scope of an include. -/
theorem ResolvesBy.strays (h : ResolvesBy P a b) : b.Strays repository id list ↔ a.Strays repository id list :=
  and_congr h.hasEntry (not_congr h.inScope)

/-! ### Under other ids -/

/-- The entries of a repository are those of the source, under their other ids. -/
theorem Embeds.hasEntry (h : Embeds φ ρ a b) (hr : ρ.repositories repository) (ha : a.HasRepository repository) :
    b.HasEntry (φ.repository repository) list ↔ ∃ t, a.HasEntry repository t ∧ φ.list t = list := by
  simp only [HasEntry, h.entry? hr ha, Option.map_eq_some_iff]
  exact ⟨fun ⟨name, t, he, ht⟩ => ⟨t, ⟨name, he⟩, ht⟩, fun ⟨t, ⟨name, he⟩, ht⟩ => ⟨name, t, he, ht⟩⟩

/-- The entries of a repository of a region that is not left by following belong to the region. -/
theorem HasEntry.lists (h : a.HasEntry repository list) (hstays : a.StaysIn ρ) (hr : ρ.repositories repository)
    (ha : a.HasRepository repository) : ρ.lists list := by
  obtain ⟨name, he⟩ := h
  obtain ⟨r, hread⟩ := ha.repository_ok
  rw [entry?_of_repository hread] at he
  exact (hstays.repository _ r hread hr).2 _ (Keyed.mem_of_find? he)

section

variable (h : Embeds φ ρ a b) (hstays : a.StaysIn ρ) (hf : a.FiniteIn ρ) (hid : ρ.nodes id) (ha : a.HasNode id)
include h hstays hf hid ha

/-- What is in the scope of an include is there under other ids. -/
theorem Embeds.inScope :
    b.InScope (φ.node id) list ↔ ∃ t, ρ.lists t ∧ a.InScope id t ∧ φ.list t = list := by
  obtain ⟨node, hn⟩ := ha.node_ok
  obtain ⟨parent, hb⟩ := h.node id node hn hid
  have hdeclared : ∀ r, node.declared? = some r → ρ.repositories r := by
    intro r hr
    obtain ⟨i, hi, hir⟩ := Option.bind_eq_some_iff.1 hr
    exact hstays.repositories_declared hid (inclusion_eq_ok.2 ⟨node, hn, hi⟩) hir
  constructor
  · rintro ⟨node', r', ids', q', hn', hd', hc', hq', he'⟩
    obtain rfl := Except.ok.inj (hb.symm.trans hn')
    rw [Node.declared?_rename, Option.map_eq_some_iff] at hd'
    obtain ⟨r, hd, rfl⟩ := hd'
    obtain ⟨ids, hc⟩ := hf r (hdeclared r hd)
    obtain ⟨hc'', hall⟩ := h.chain hstays hc fun _ hr => Option.some.inj hr ▸ hdeclared r hd
    obtain rfl := hc''.unique hc'
    obtain ⟨q, hq, rfl⟩ := List.mem_map.1 hq'
    obtain ⟨t, he, rfl⟩ := (h.hasEntry (hall q hq) (hc.hasRepository q hq)).1 he'
    exact ⟨t, he.lists hstays (hall q hq) (hc.hasRepository q hq), ⟨node, r, ids, q, hn, hd, hc, hq, he⟩, rfl⟩
  · rintro ⟨t, -, ⟨node', r, ids, q, hn', hd, hc, hq, he⟩, rfl⟩
    obtain rfl := Except.ok.inj (hn.symm.trans hn')
    obtain ⟨hc', hall⟩ := h.chain hstays hc fun _ hr => Option.some.inj hr ▸ hdeclared r hd
    refine ⟨_, φ.repository r, ids.map φ.repository, φ.repository q, hb, ?_, hc', List.mem_map_of_mem hq, ?_⟩
    · rw [Node.declared?_rename, hd]
      rfl
    · exact (h.hasEntry (hall q hq) (hc.hasRepository q hq)).2 ⟨t, he, rfl⟩

/-- What strays from an include does so under other ids. -/
theorem Embeds.strays (hinj : ∀ t t', ρ.lists t → ρ.lists t' → φ.list t = φ.list t' → t = t') (hr : ρ.repositories repository)
    (har : a.HasRepository repository) (hl : ρ.lists list) :
    b.Strays (φ.repository repository) (φ.node id) (φ.list list) ↔ a.Strays repository id list := by
  refine and_congr ?_ (not_congr ?_)
  · rw [h.hasEntry hr har]
    constructor
    · rintro ⟨t, he, heq⟩
      exact hinj t list (he.lists hstays hr har) hl heq ▸ he
    · exact fun he => ⟨list, he, rfl⟩
  · rw [h.inScope hstays hf hid ha]
    constructor
    · rintro ⟨t, ht, hs, heq⟩
      exact hinj t list ht hl heq ▸ hs
    · exact fun hs => ⟨list, hl, hs, rfl⟩

end

end Arena

/-! ## What a copy makes of includes that wait -/

namespace Grammar

/-- A copy whose own references have been resolved keeps what the references of other grammars mean: no copy of a `$self` of another
grammar stands for the root of the copy, and no copy of a name of another grammar stands for an entry of the repository of the copy
that is not in the scope in which the include was declared. -/
def KeepsForeign (gs : List Grammar) (g copy : Grammar) (φ : Renaming) (a e : Arena) : Prop :=
  ∀ k ∈ gs, k ≠ g → ∀ id ∈ k.registry.includes, g.Reaches a (.node id) →
    (a.pending? id = some .self → ¬e.StandsFor (φ.node id) copy.root) ∧
      ∀ name, a.pending? id = some (.entry name) → ∀ list, e.StandsFor (φ.node id) list →
        ¬e.Strays copy.repository (φ.node id) list

variable {g copy : Grammar} {a c e : Arena} {φ : Renaming} {id : NodeId} {list : ListId}

/-- An include that a grammar has resolved stands for the list. -/
theorem ResolvesOwn.standsFor (h : g.ResolvesOwn a e) (ho : g.Own a id list) : e.StandsFor id list := by
  obtain ⟨reference, hp⟩ := Option.isSome_iff_exists.1 (Grammar.Reads.pending? ho.2)
  exact h.change.standsFor_resolved (fun _ hl => hl.unique ho) (h.all id list ho) hp

section

variable (h : g.CopiedBy copy a c φ) (hk : a.KeyedIn (g.reach a)) (hf : a.FiniteIn (g.reach a)) (he : copy.ResolvesOwn c e)
  (hid : g.Reaches a (.node id)) (ha : a.HasNode id)
include h hk hf he hid ha

/-- The copy of an include that waits, of whichever grammar, is resolved to the copy of what the copied grammar reads it as. -/
theorem CopiedBy.standsFor_iff {reference : Reference} (hp : a.pending? id = some reference) :
    e.StandsFor (φ.node id) list ↔ ∃ t, g.Reads a id t ∧ φ.list t = list := by
  rw [← h.own_iff hk hf hid ha]
  refine ⟨fun hs => ?_, he.standsFor⟩
  rcases he.change.standsFor_before hs with hold | ⟨ho, -⟩
  · obtain ⟨t, ⟨i, hi, ht⟩, -⟩ := ((h.embeds hk).standsFor hid ha).1 hold
    rcases ha.inclusion_cases with ⟨-, hnone⟩ | ⟨_, _, _, -, hnone⟩ | ⟨text, declared, reference, hi', -⟩
    · cases hnone.symm.trans hp
    · cases hnone.symm.trans hp
    · cases hi.symm.trans hi'
      cases ht
  · exact ho

/-- The copy of a `$self` stands for the root of the copy. -/
theorem CopiedBy.standsFor_root (hp : a.pending? id = some .self) : e.StandsFor (φ.node id) copy.root :=
  (h.standsFor_iff hk hf he hid ha hp).2 ⟨g.root, .inr ⟨hp, rfl⟩, h.root.symm⟩

end

/-- A name strays in the copy when it does so in the copied grammar. -/
theorem CopiedBy.strays_iff (h : g.CopiedBy copy a c φ) (hreach : (g.reach a).Within a.region) (hk : a.KeyedIn (g.reach a))
    (hf : a.FiniteIn (g.reach a)) (he : copy.ResolvesOwn c e) (hid : g.Reaches a (.node id))
    (hnames : Registry.Names a g.repository id list) :
    e.Strays copy.repository (φ.node id) (φ.list list) ↔ a.Strays g.repository id list := by
  have hstays := g.reach_staysIn a
  rw [he.change.strays, h.repository]
  exact (h.embeds hk).strays hstays hf hid (hreach.nodes id hid) (fun t t' ht ht' heq => h.lists.injOn ht ht' heq) .repository
    (hreach.repositories _ .repository) (hnames.lists hstays .repository hid)

/-- A copy keeps what the references of other grammars mean when none of those that wait is a `$self`, and none is a name that the copied
grammar reads as an entry of its repository which is out of scope. -/
theorem CopiedBy.keepsForeign_iff {gs : List Grammar} (h : g.CopiedBy copy a c φ) (hreach : (g.reach a).Within a.region)
    (hk : a.KeyedIn (g.reach a)) (hf : a.FiniteIn (g.reach a)) (he : copy.ResolvesOwn c e) :
    KeepsForeign gs g copy φ a e ↔ ∀ k ∈ gs, k ≠ g → ∀ id ∈ k.registry.includes, g.Reaches a (.node id) →
      a.pending? id ≠ some .self ∧ ∀ list, Registry.Names a g.repository id list → ¬a.Strays g.repository id list := by
  refine forall₂_congr fun k _ => forall_congr' fun _ => forall₂_congr fun id _ => forall_congr' fun hid => ?_
  have ha := hreach.nodes id hid
  refine and_congr ?_ ?_
  · exact ⟨fun hno hp => hno hp (h.standsFor_root hk hf he hid ha hp), fun hne hp => absurd hp hne⟩
  · constructor
    · intro hno list hnames
      obtain ⟨name, hp⟩ := hnames.pending?
      rw [← h.strays_iff hreach hk hf he hid hnames]
      exact hno name hp _ ((h.standsFor_iff hk hf he hid ha hp).2 ⟨list, .inl hnames, rfl⟩)
    · intro hno name hp list hs
      obtain ⟨t, hnames | ⟨hp', -⟩, rfl⟩ := (h.standsFor_iff hk hf he hid ha hp).1 hs
      · rw [h.strays_iff hreach hk hf he hid hnames]
        exact hno t hnames
      · cases hp.symm.trans hp'

/-- So it does when the other grammars have resolved their own references before. -/
theorem CopiedBy.keepsForeign_of_localized {gs : List Grammar} (h : g.CopiedBy copy a c φ) (hreach : (g.reach a).Within a.region)
    (hk : a.KeyedIn (g.reach a)) (hf : a.FiniteIn (g.reach a)) (he : copy.ResolvesOwn c e)
    (hgs : ∀ k ∈ gs, k ≠ g → Linker.Localized k a) : KeepsForeign gs g copy φ a e := by
  refine (h.keepsForeign_iff hreach hk hf he).2 fun k hmem hne id hid _ => ⟨fun hp => ?_, fun list hnames => ?_⟩
  · cases hgs k hmem hne id hid .self hp
  · obtain ⟨name, hp⟩ := hnames.pending?
    cases hgs k hmem hne id hid (.entry name) hp

end Grammar

/-! ## Copies in a session -/

namespace Session

open Grammar InterGrammar

variable {s : Session} {g : Grammar}

/-- A grammar of a session can be copied, and the copy can resolve its own references. -/
theorem Reachable.copy (h : s.Reachable) (hg : g ∈ s.grammars) (hroom : s.arena.lists.size < Arena.capacity) :
    (g.reach s.arena).Within s.arena.region ∧ s.arena.KeyedIn (g.reach s.arena) ∧ s.arena.FiniteIn (g.reach s.arena) ∧
      ∃ copy c φ answer e, g.copy s.arena = .ok (copy, c) ∧ g.CopiedBy copy s.arena c φ ∧
        copy.resolveLocal.start c = .ok (answer, e) ∧ copy.ResolvesOwn c e := by
  have hsound := h.sound
  have hheld := hsound.held g hg
  have hchains := hsound.nested.finiteChains hsound.closed
  have hreach := hheld.reach_within hsound.closed
  have hk : s.arena.KeyedIn (g.reach s.arena) := fun id r hr hid => h.keyed id r hr (hreach.repositories id hid)
  have hf := hchains.finiteIn hreach
  rcases copy_cases hsound.closed hchains hheld with ⟨-, hle⟩ | ⟨copy, c, φ, hrun, -, -, hcopied⟩
  · exact absurd hroom (Nat.not_lt.2 hle)
  obtain ⟨answer, e, hlocal, he, he', -⟩ := resolveLocal_ok (hcopied.closedIn hreach) (hcopied.finiteIn hk hf)
    (since_within_region c _) hcopied.liesIn
  exact ⟨hreach, hk, hf, copy, c, φ, answer, e, hrun, hcopied, hlocal, he, he'⟩

/-- When a grammar of a session is copied and the copy resolves its own references, an include that waited stands for the copy of what the
copied grammar reads it as, whichever grammar it belongs to. So the copy keeps what the references of other grammars mean exactly when
none of those that waited is a `$self`, and none is a name that the copied grammar reads as an entry of its repository which is out of
scope. -/
theorem copy_keepsForeign_iff (h : s.Reachable) (hg : g ∈ s.grammars) (hroom : s.arena.lists.size < Arena.capacity) :
    ∃ copy c φ answer e, g.copy s.arena = .ok (copy, c) ∧ g.CopiedBy copy s.arena c φ ∧
      copy.resolveLocal.start c = .ok (answer, e) ∧
      (∀ id reference, g.Reaches s.arena (.node id) → s.arena.pending? id = some reference →
        ∀ list, e.StandsFor (φ.node id) list ↔ ∃ t, g.Reads s.arena id t ∧ φ.list t = list) ∧
      (KeepsForeign s.grammars g copy φ s.arena e ↔
        ∀ k ∈ s.grammars, k ≠ g → ∀ id ∈ k.registry.includes, g.Reaches s.arena (.node id) →
          s.arena.pending? id ≠ some .self ∧
            ∀ list, Registry.Names s.arena g.repository id list → ¬s.arena.Strays g.repository id list) := by
  obtain ⟨hreach, hk, hf, copy, c, φ, answer, e, hrun, hcopied, hlocal, he⟩ := h.copy hg hroom
  refine ⟨copy, c, φ, answer, e, hrun, hcopied, hlocal, fun id reference hid hp list => ?_, hcopied.keepsForeign_iff hreach hk hf he⟩
  exact hcopied.standsFor_iff hk hf he hid (hreach.nodes id hid) hp

/-- A file with a rule, a `$self`, and a name that it does not have. -/
def lenderFile : GrammarFile :=
  { scopeName := "h", patterns := [.matching "r" "1", .including "$self", .including "#k"] }

/-- A file that has the name, and includes the other one. -/
def borrowerFile : GrammarFile :=
  { scopeName := "g", patterns := [.matching "q" "2", .including "h"], repository := [("k", .matching "k" "3")] }

/-- The grammar of the first file. -/
def lender : Grammar :=
  { scopeName := "h", name := none, root := ⟨1⟩, repository := ⟨0⟩, registry := ⟨"h", [⟨1⟩, ⟨2⟩]⟩ }

/-- The grammar of the second file. -/
def borrower : Grammar :=
  { scopeName := "g", name := none, root := ⟨5⟩, repository := ⟨1⟩, registry := ⟨"g", [⟨5⟩]⟩ }

/-- The arena in which both were built and the references between them resolved. -/
def lent : Arena where
  nodes := #[{ name := some "r", rule := { matchExpr := some "1" }, body := .rule ⟨0⟩ },
    { body := .inclusion ⟨"$self", some ⟨0⟩, .pending .self⟩ },
    { body := .inclusion ⟨"#k", some ⟨0⟩, .pending (.entry "k")⟩ },
    { name := some "k", rule := { matchExpr := some "3" }, body := .rule ⟨2⟩ },
    { name := some "q", rule := { matchExpr := some "2" }, body := .rule ⟨4⟩ },
    { body := .inclusion ⟨"h", some ⟨1⟩, .resolved ⟨1⟩⟩ }]
  lists := #[[], [⟨0⟩, ⟨1⟩, ⟨2⟩], [], [⟨3⟩], [], [⟨4⟩, ⟨5⟩]]
  repositories := #[{}, { entries := [("k", ⟨3⟩)] }]

/-- The arena in which both were built. -/
def unlent : Arena :=
  { lent with nodes := (lent.nodes.take 5).push { body := .inclusion ⟨"h", some ⟨1⟩, .pending (.foreign "h")⟩ } }

/-- The two files are built and the references between them resolved. -/
theorem reachable_lent : Reachable ⟨lent, [borrower, lender]⟩ := by
  have hfirst : (Grammar.build lenderFile).start {} =
      .ok (.ok lender, { nodes := lent.nodes.take 3, lists := lent.lists.take 2, repositories := #[{}] }) := by cbv
  have hsecond : (Grammar.build borrowerFile).start
      { nodes := lent.nodes.take 3, lists := lent.lists.take 2, repositories := #[{}] } = .ok (.ok borrower, unlent) := by cbv
  have hbetween : (resolve [borrower, lender] none).start unlent = .ok (.ok ⟨1, 1⟩, lent) := by cbv
  exact ((Reachable.empty.step (.call (.move (.built hfirst)))).step (.call (.move (.built hsecond)))).step
    (.call (.move (.between (by decide) (fun _ h => h) hbetween)))

/-- The name is an entry of the second grammar, and nothing is in scope where the first one has it. -/
theorem strays_lent : lent.Strays borrower.repository ⟨2⟩ ⟨3⟩ := by
  refine ⟨⟨"k", rfl⟩, ?_⟩
  rintro ⟨node, r, ids, q, hn, hd, hc, hq, name, he⟩
  cases hn
  cases hd
  obtain rfl : [⟨0⟩] = ids := Chain.unique (.enclosed rfl .outermost) hc
  obtain rfl := List.mem_singleton.1 hq
  cases he

/-- The copy of the second grammar gives the `$self` of the first one its own root, and the name an entry of its own repository. -/
theorem not_keepsForeign_borrower : Reachable ⟨lent, [borrower, lender]⟩ ∧ lent.lists.size < Arena.capacity ∧
    ∃ copy c φ answer e, borrower.copy lent = .ok (copy, c) ∧ borrower.CopiedBy copy lent c φ ∧
      copy.resolveLocal.start c = .ok (answer, e) ∧
      (lent.pending? ⟨1⟩ = some .self ∧ e.StandsFor (φ.node ⟨1⟩) copy.root) ∧
      (lent.pending? ⟨2⟩ = some (.entry "k") ∧ e.StandsFor (φ.node ⟨2⟩) (φ.list ⟨3⟩) ∧
        e.Strays copy.repository (φ.node ⟨2⟩) (φ.list ⟨3⟩)) ∧
      ¬KeepsForeign [borrower, lender] borrower copy φ lent e := by
  have hroom : lent.lists.size < Arena.capacity := by decide
  have hfirst : ∀ id ∈ [(⟨0⟩ : NodeId), ⟨1⟩, ⟨2⟩], borrower.Reaches lent (.node id) := fun id hid =>
    ((Reaches.root.step (.item rfl (List.mem_cons_of_mem _ List.mem_cons_self))).step (.target rfl rfl rfl)).step (.item rfl hid)
  have hself := hfirst ⟨1⟩ (by decide)
  have hname := hfirst ⟨2⟩ (by decide)
  have hnames : Registry.Names lent borrower.repository ⟨2⟩ ⟨3⟩ := ⟨"#k", some ⟨0⟩, "k", rfl, by cbv⟩
  obtain ⟨hreach, hk, hf, copy, c, φ, answer, e, hrun, hcopied, hlocal, he⟩ := reachable_lent.copy List.mem_cons_self hroom
  have hstrays : e.Strays copy.repository (φ.node ⟨2⟩) (φ.list ⟨3⟩) :=
    (hcopied.strays_iff hreach hk hf he hname hnames).2 strays_lent
  have hroot := hcopied.standsFor_root hk hf he hself (by decide) rfl
  have hentry := (hcopied.standsFor_iff hk hf he hname (by decide) rfl).2 ⟨⟨3⟩, .inl hnames, rfl⟩
  refine ⟨reachable_lent, hroom, copy, c, φ, answer, e, hrun, hcopied, hlocal, ⟨rfl, hroot⟩, ⟨rfl, hentry, hstrays⟩, fun hkeeps => ?_⟩
  exact (hkeeps lender (by decide) (by decide) ⟨1⟩ (by decide) hself).1 rfl hroot

/-- In the example the borrower can be copied, and the condition is that of the general statement. -/
theorem copy_keepsForeign_iff_lent : Reachable ⟨lent, [borrower, lender]⟩ ∧ lent.lists.size < Arena.capacity ∧
    ∃ copy c φ answer e, borrower.copy lent = .ok (copy, c) ∧ borrower.CopiedBy copy lent c φ ∧
      copy.resolveLocal.start c = .ok (answer, e) ∧
      (∀ id reference, borrower.Reaches lent (.node id) → lent.pending? id = some reference →
        ∀ list, e.StandsFor (φ.node id) list ↔ ∃ t, borrower.Reads lent id t ∧ φ.list t = list) ∧
      (KeepsForeign [borrower, lender] borrower copy φ lent e ↔
        ∀ k ∈ [borrower, lender], k ≠ borrower → ∀ id ∈ k.registry.includes, borrower.Reaches lent (.node id) →
          lent.pending? id ≠ some .self ∧
            ∀ list, Registry.Names lent borrower.repository id list → ¬lent.Strays borrower.repository id list) := by
  have hroom : lent.lists.size < Arena.capacity := by decide
  have hiff := copy_keepsForeign_iff (g := borrower) reachable_lent List.mem_cons_self hroom
  dsimp only at hiff
  exact ⟨reachable_lent, hroom, hiff⟩

end Session

end GrammarLinker
