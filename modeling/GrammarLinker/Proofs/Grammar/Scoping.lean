import GrammarLinker.Proofs.Grammar.Blueprint
import GrammarLinker.Proofs.Registry.Local

/-!
# Names are scoped lexically

When a grammar was built and its own references are resolved, all of its file is laid out as it was built, and every `#name`, however
deep it stands in rules and repositories, is resolved to the list of the entry `name` in the innermost repository around it that has
the key. It goes on waiting exactly when none has it (`Grammar.resolveLocal_lexical`).

Resolution follows the repositories by their parents. A repository that was laid out within others is followed by just these
(`Enclosed.chain`), and the grammar's own repository is the outermost of them, so that looking there once more finds nothing new
(`Enclosed.entryTarget_eq`).
-/

namespace GrammarLinker

open Arena

open Enclosure (innermost)

/-- The list of a key in the innermost repository that has the key. -/
def Enclosure.find? (name : String) (Γ : List Enclosure) : Option ListId := Γ.findSome? (·.list? name)

theorem Enclosure.list?_eq_none {e : Enclosure} {name : String} : e.list? name = none ↔ name ∉ Keyed.keys e.lists := by
  rw [← Keyed.mem_keys_ofPairs, ← Keyed.find?_isSome, Enclosure.list?, Bool.not_eq_true, Option.isSome_eq_false_iff,
    Option.isNone_iff_eq_none]

/-- No list is found exactly when no repository has the key. -/
theorem Enclosure.find?_eq_none {Γ : List Enclosure} {name : String} :
    Enclosure.find? name Γ = none ↔ ∀ e ∈ Γ, name ∉ Keyed.keys e.lists := by
  simp only [Enclosure.find?, List.findSome?_eq_none_iff, Enclosure.list?_eq_none]

/-- The lists of entries are laid out for the entries one by one. -/
theorem Record.LaysEntries.related {a : Arena} {ρ : Region} {leaf : List Enclosure → String → NodeId → Prop} {Γ : List Enclosure}
    {entries : List (String × Record)} {lists : List (String × ListId)} (h : Record.LaysEntries a ρ leaf entries Γ lists) :
    Keyed.Related (fun r list => ∃ items, a.Lists ρ list items ∧ Record.LaysItems a ρ leaf r.members Γ items) entries lists := by
  induction entries generalizing lists with
  | nil =>
    rw [Record.LaysEntries] at h
    exact h ▸ .nil
  | cons entry rest ih =>
    obtain ⟨list, items, lists', rfl, hlist, hitems, hrest⟩ := Record.laysEntries_cons.1 h
    exact .cons ⟨rfl, items, hlist, hitems⟩ (ih hrest)

/-! ## Enclosing repositories -/

/-- Repositories enclose each other, and the outermost one is the one of the grammar. -/
inductive Enclosed (a : Arena) (ρ : Region) (repository : RepositoryId) : List Enclosure → Prop where
  | outermost {lists : List (String × ListId)} (ho : Enclosure.Opens ⟨repository, lists⟩ a ρ []) :
      Enclosed a ρ repository [⟨repository, lists⟩]
  | inner {e : Enclosure} {Γ : List Enclosure} (ho : e.Opens a ρ Γ) (h : Enclosed a ρ repository Γ) : Enclosed a ρ repository (e :: Γ)

namespace Enclosed

variable {a : Arena} {ρ : Region} {repository : RepositoryId} {Γ : List Enclosure} (h : Enclosed a ρ repository Γ)
include h

/-- The chain of the innermost repository passes through just these. -/
theorem chain : a.Chain (innermost Γ) (Γ.map Enclosure.id) := by
  induction h with
  | outermost ho => exact .enclosed ho.2 .outermost
  | inner ho _ ih => exact .enclosed ho.2 ih

theorem entry?_eq (name : String) : (Γ.map Enclosure.id).findSome? (a.entry? name) = Enclosure.find? name Γ := by
  induction h with
  | outermost ho =>
    simp only [List.map_cons, List.map_nil, List.findSome?_cons, List.findSome?_nil, Enclosure.find?, Enclosure.list?,
      entry?_of_repository ho.2]
  | inner ho _ ih =>
    rw [Enclosure.find?] at ih ⊢
    simp only [List.map_cons, List.findSome?_cons, ih, Enclosure.list?, entry?_of_repository ho.2]

/-- The repository of the grammar has nothing that is not found on the way. -/
theorem lookup_outermost {name : String} (hnone : Enclosure.find? name Γ = none) : a.lookup repository name = .ok none := by
  induction h with
  | @outermost lists ho =>
    have hno : (⟨repository, lists⟩ : Enclosure).list? name = none := by
      rw [Enclosure.list?_eq_none]
      exact Enclosure.find?_eq_none.1 hnone _ List.mem_cons_self
    rw [Arena.lookup_outermost ho.2 rfl]
    exact congrArg Except.ok hno
  | inner _ _ ih =>
    refine ih (Enclosure.find?_eq_none.2 fun e he => ?_)
    exact Enclosure.find?_eq_none.1 hnone e (List.mem_cons_of_mem _ he)

/-- A name denotes the list that is found first. -/
theorem entryTarget_eq (name : String) : Registry.entryTarget a repository (innermost Γ) name = .ok (Enclosure.find? name Γ) := by
  obtain ⟨inner, hinner⟩ : ∃ inner, innermost Γ = some inner := by cases h <;> exact ⟨_, rfl⟩
  have hchain := h.chain
  rw [hinner] at hchain
  have hlookup : a.lookup inner name = .ok (Enclosure.find? name Γ) := by
    rw [hchain.lookup_eq, h.entry?_eq]
  rw [hinner, Registry.entryTarget, hlookup]
  cases hfind : Enclosure.find? name Γ with
  | some list => rfl
  | none => simp [bind, Except.bind, h.lookup_outermost hfind]

end Enclosed

/-! ## Names -/

/-- An include of a name that stands within enclosing repositories is resolved to the list that the innermost repository with the key
has for it, and waits exactly when no repository has the key. Of other includes nothing is said. -/
structure Lexical (b : Arena) (Γ : List Enclosure) (text : String) (id : NodeId) : Prop where
  resolved : ∀ name list, Reference.parse text = .ok (.entry name) → Enclosure.find? name Γ = some list → b.StandsFor id list
  waits : ∀ name, Reference.parse text = .ok (.entry name) →
    (b.pending? id = some (.entry name) ↔ ∀ e ∈ Γ, name ∉ Keyed.keys e.lists)

namespace Grammar

variable {file : GrammarFile} {g : Grammar} {a m b : Arena}

/-- What is asked of an include that was built is what local resolution makes of it. -/
theorem lexical_of_waits {ρ : Region} (hb : ResolvesBy (g.Own m) m b) (hdone : ∀ id list, g.Own m id list → b.pending? id = none)
    (hreg : ∀ id, ρ.nodes id → (m.pending? id).isSome = true → id ∈ g.registry.includes) {name : Option String} {text : String}
    {Γ : List Enclosure} {id : NodeId} (hΓ : Enclosed m ρ g.repository Γ) (hi : m.LaysInclude ρ name text Γ id)
    (hw : m.Waits Γ text id) : Lexical b Γ text id := by
  obtain ⟨hid, node, state, hn, -, hbody⟩ := hi
  obtain ⟨reference, hparse, hpending⟩ := hw
  have hmem : id ∈ g.registry.includes := hreg id hid (Option.isSome_iff_exists.2 ⟨_, hpending⟩)
  have hown : ∀ key, Reference.parse text = .ok (.entry key) → ∀ list, g.Own m id list ↔ Enclosure.find? key Γ = some list := by
    intro key hkey list
    cases hparse.symm.trans hkey
    have hread : m.inclusion id = .ok (some ⟨text, innermost Γ, .pending (.entry key)⟩) := by
      rw [pending?_of_node hn, Node.pending?_eq_some] at hpending
      obtain ⟨text', declared, hbody'⟩ := hpending
      cases hbody.symm.trans hbody'
      rw [inclusion_of_node hn, Node.inclusion?, hbody]
    constructor
    · rintro ⟨-, ⟨text', declared, key', hread', ht⟩ | ⟨hself, -⟩⟩
      · cases hread.symm.trans hread'
        exact Except.ok.inj ((hΓ.entryTarget_eq key).symm.trans ht)
      · cases hpending.symm.trans hself
    · intro hfind
      exact ⟨hmem, .inl ⟨text, innermost Γ, key, hread, (hΓ.entryTarget_eq key).trans (congrArg Except.ok hfind)⟩⟩
  refine ⟨fun key list hkey hfind => ?_, fun key hkey => ?_⟩
  · have ho := (hown key hkey list).2 hfind
    exact hb.standsFor_resolved (fun t ht => ht.unique ho) (hdone id list ho) hpending
  · rw [← Enclosure.find?_eq_none]
    constructor
    · intro hwaits
      refine Option.eq_none_iff_forall_ne_some.2 fun list hfind => ?_
      rw [hdone id list ((hown key hkey list).2 hfind)] at hwaits
      cases hwaits
    · intro hnone
      cases hparse.symm.trans hkey
      refine (hb.pending_or hpending).resolve_right ?_
      rintro ⟨list, ho⟩
      rw [(hown key hkey list).1 ho] at hnone
      cases hnone

/-- When a grammar was built and its own references are resolved, its file is laid out in what was added, and every name in it is
resolved lexically. -/
theorem resolveLocal_lexical (h : (build file).start a = .ok (.ok g, m)) :
    ∃ answer b, g.resolveLocal.start m = .ok (answer, b) ∧ g.LaysOut file b (b.since a) (Lexical b) := by
  obtain ⟨-, -, -, hbuilt, -⟩ := LinkM.outcome (build_ok file a) h
  have hg := hbuilt g rfl
  obtain ⟨answer, b, hrun, hb, hdone, -⟩ := resolveLocal_ok hg.sound.closed (finiteIn_of_start h) (since_within_region m a) hg.liesIn
  refine ⟨answer, b, hrun, ?_⟩
  have heq : b.since a = m.since a := since_congr hb.size (congrArg Array.size hb.lists) (congrArg Array.size hb.repositories) a
  rw [heq]
  have hrelays : Relays m b (m.since a) (m.since a) m.Waits (Lexical b) (Enclosed m (m.since a) g.repository) := by
    refine ⟨fun list items hl => ⟨hl.1, (hb.list list).trans hl.2⟩, ?_, ?_, fun e Γ hΓ ho => ?_, ?_⟩
    · rintro name rule id items ⟨hid, node, children, hn, hname, hrule, hbody, hc⟩
      have hkept : b.node id = .ok node := by
        refine (hb.node id node hn).resolve_right ?_
        rintro ⟨target, -, ⟨reference, hr⟩, -⟩
        obtain ⟨text, declared, hbody'⟩ := Node.pending?_eq_some.1 hr
        cases hbody.symm.trans hbody'
      exact ⟨hid, node, children, hkept, hname, hrule, hbody, hc.1, (hb.list children).trans hc.2⟩
    · rintro name text Γ id ⟨hid, node, state, hn, hname, hbody⟩
      rcases hb.node id node hn with hkept | ⟨target, -, ⟨reference, hr⟩, hres⟩
      · exact ⟨hid, node, state, hkept, hname, hbody⟩
      · obtain ⟨text', declared, hbody'⟩ := Node.pending?_eq_some.1 hr
        cases hbody.symm.trans hbody'
        refine ⟨hid, _, .resolved target, hres, (Node.name_resolvedTo node target).trans hname, ?_⟩
        simp only [Node.resolvedTo, Node.inclusion?, hbody, Option.bind_some, Include.resolveTo?]
    · exact ⟨⟨ho.1, (hb.repository e.id).trans ho.2⟩, .inner ho hΓ⟩
    · exact fun name Γ text id hΓ hi hw => lexical_of_waits hb hdone (fun id => hg.registered_of_pending) hΓ hi hw
  obtain ⟨lists, items, hopen, hentries, hroot, hitems⟩ := hg.layout
  have hΓ : Enclosed m (m.since a) g.repository [⟨g.repository, lists⟩] := .outermost hopen
  exact ⟨lists, items, ⟨hopen.1, (hb.repository g.repository).trans hopen.2⟩, hentries.imp hrelays hΓ,
    ⟨hroot.1, (hb.list g.root).trans hroot.2⟩, hitems.imp hrelays hΓ⟩

/-- A file with rules inside each other that have keys of their own, one of them a key of the outermost repository too. -/
def layered : GrammarFile where
  scopeName := "s"
  patterns := [(Record.group [.including "#k", (Record.group [.including "#k", .including "#m", .including "#n"]).withEntry "m"
    (.matching "m" "1")]).withEntry "k" (.matching "inner" "2"), .including "#k"]
  repository := [("k", .matching "top" "3")]

/-- In this file `#k` stands for the nearer list inside the rules and for the outer one beside them, and `#n` stays pending. -/
theorem resolveLocal_lexical_layered : ∃ g m, (build layered).start {} = .ok (.ok g, m) ∧
    ∃ answer b, g.resolveLocal.start m = .ok (answer, b) ∧
      b.nodes.toList.filterMap (fun node => node.inclusion?.map fun i => (i.reference, i.target?)) =
        [("#k", some ⟨4⟩), ("#k", some ⟨4⟩), ("#m", some ⟨7⟩), ("#n", none), ("#k", some ⟨1⟩)] ∧
      g.LaysOut layered b (b.since {}) (Lexical b) := by
  have hread : ((build layered).start {}).bind (fun p => p.1.toOption.elim (.error .dangling) fun g => (g.resolveLocal.start p.2).map
      fun q => q.2.nodes.toList.filterMap fun node => node.inclusion?.map fun i => (i.reference, i.target?)) =
        .ok [("#k", some ⟨4⟩), ("#k", some ⟨4⟩), ("#m", some ⟨7⟩), ("#n", none), ("#k", some ⟨1⟩)] := by decide +kernel
  rcases h : (build layered).start {} with fault | ⟨error | g, m⟩
  · rw [h] at hread
    cases hread
  · rw [h] at hread
    cases hread
  · obtain ⟨answer, b, hrun, hlays⟩ := resolveLocal_lexical h
    refine ⟨g, m, rfl, answer, b, hrun, ?_, hlays⟩
    rw [h] at hread
    simp only [Except.bind, Except.toOption, Option.elim, hrun, Except.map, Except.ok.injEq] at hread
    exact hread

end Grammar

end GrammarLinker
