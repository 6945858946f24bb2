import GrammarLinker.Proofs.InterGrammar.Designation
import GrammarLinker.Proofs.Resolution.Pass

/-!
# What local resolution resolves

Resolving the own references of a grammar always answers (`Grammar.resolveLocal_ok`). A `#name` is resolved to the list that the name
has where the include was declared, or else in the repository of the grammar, and `$self` to the root. Every include is resolved that
has such a list, also when there is an error, and there is none exactly when the registered includes that still wait are for other
grammars.

What is asked of the arena concerns only a region in which the grammar lies: it is closed, and its chains of repositories are finite.
-/

namespace GrammarLinker

open Arena

/-- A reference to an entry of a repository. -/
def Reference.isEntry : Reference → Bool
  | entry _ => true
  | _ => false

/-- A reference to the root of the own grammar. -/
def Reference.isSelf : Reference → Bool
  | self => true
  | _ => false

namespace Registry

variable {a b : Arena} {ρ : Region} {id : NodeId} {list root : ListId} {repository : RepositoryId} {P : NodeId → ListId → Prop}

/-! ## Names -/

/-- A pending `#name` names a list, where it was declared or else in a repository. -/
def Names (a : Arena) (repository : RepositoryId) (id : NodeId) (list : ListId) : Prop :=
  ∃ text declared name, a.inclusion id = .ok (some ⟨text, declared, .pending (.entry name)⟩) ∧
    entryTarget a repository declared name = .ok (some list)

/-- A pending `#name` names no list, neither where it was declared nor in a repository. -/
def Misses (a : Arena) (repository : RepositoryId) (id : NodeId) (text : String) : Prop :=
  ∃ declared name, a.inclusion id = .ok (some ⟨text, declared, .pending (.entry name)⟩) ∧
    entryTarget a repository declared name = .ok none

/-- What a name denotes is read from the repositories alone. -/
theorem entryTarget_congr (h : b.repositories = a.repositories) (repository : RepositoryId) (declared : Option RepositoryId)
    (name : String) : entryTarget b repository declared name = entryTarget a repository declared name := by
  cases declared <;> simp only [entryTarget, lookup_congr h]

/-- Where the include was declared in the repository of the grammar, there is one lookup. -/
theorem entryTarget_self (a : Arena) (repository : RepositoryId) (name : String) :
    entryTarget a repository (some repository) name = a.lookup repository name := by
  cases hl : a.lookup repository name with
  | error fault => simp [entryTarget, bind, Except.bind, hl]
  | ok found => cases found <;> simp [entryTarget, bind, Except.bind, hl, pure, Except.pure]

/-- What a name denotes can be read. -/
theorem entryTarget_ok (hf : a.FiniteIn ρ) (hr : ρ.repositories repository) {declared : Option RepositoryId}
    (hd : ∀ r, declared = some r → ρ.repositories r) (name : String) :
    ∃ found, entryTarget a repository declared name = .ok found := by
  obtain ⟨ids, hids⟩ := hf repository hr
  obtain ⟨outer, houter⟩ : ∃ outer, a.lookup repository name = .ok outer := ⟨_, hids.lookup_eq name⟩
  cases declared with
  | none => exact ⟨outer, houter⟩
  | some inner =>
    obtain ⟨ids', hids'⟩ := hf inner (hd inner rfl)
    obtain ⟨found, hfound⟩ : ∃ found, a.lookup inner name = .ok found := ⟨_, hids'.lookup_eq name⟩
    cases found with
    | none => exact ⟨outer, by simp [entryTarget, bind, Except.bind, hfound, houter]⟩
    | some list => exact ⟨some list, by simp [entryTarget, bind, Except.bind, hfound, pure, Except.pure]⟩

/-- Where the repositories belong to a region that they refer into, so does what a name denotes. -/
theorem lists_entryTarget (h : ∀ id r, a.repository id = .ok r → ρ.repositories id → r.RefersInto ρ)
    (hr : ρ.repositories repository) {declared : Option RepositoryId}
    (hd : ∀ r, declared = some r → ρ.repositories r) {name : String}
    (ht : entryTarget a repository declared name = .ok (some list)) : ρ.lists list := by
  cases declared with
  | none => exact Arena.lists_lookup h hr ht
  | some inner =>
    cases hl : a.lookup inner name with
    | error fault => simp [entryTarget, bind, Except.bind, hl] at ht
    | ok found =>
      cases found with
      | none =>
        have houter : a.lookup repository name = .ok (some list) := by
          simpa [entryTarget, bind, Except.bind, hl] using ht
        exact Arena.lists_lookup h hr houter
      | some l =>
        have heq : l = list := by
          simpa [entryTarget, bind, Except.bind, hl, pure, Except.pure] using ht
        exact heq ▸ Arena.lists_lookup h (hd inner rfl) hl

/-- A name that an include of a region waits for names a list of the region, if following does not lead out of it. -/
theorem Names.lists (hs : a.StaysIn ρ) (hr : ρ.repositories repository) (hid : ρ.nodes id) (h : Names a repository id list) :
    ρ.lists list := by
  obtain ⟨text, declared, name, hi, ht⟩ := h
  exact lists_entryTarget hs.repository hr (fun r hd => hs.repositories_declared hid hi hd) ht

/-- A list that is named in a closed arena is there. -/
theorem Names.hasList (hc : a.Closed) (hr : a.HasRepository repository) (h : Names a repository id list) : a.HasList list := by
  obtain ⟨text, declared, name, hi, ht⟩ := h
  exact lists_entryTarget hc.repository hr (fun r hd => hc.hasRepository_declared hi hd) ht

/-- An include names one list at most. -/
theorem Names.unique {t : ListId} (h : Names a repository id list) (h' : Names a repository id t) : list = t := by
  obtain ⟨text, declared, name, hi, ht⟩ := h
  obtain ⟨text', declared', name', hi', ht'⟩ := h'
  rw [hi] at hi'
  cases hi'
  rw [ht] at ht'
  exact Option.some.inj (Except.ok.inj ht')

/-- An include that names a list waits for a name. -/
theorem Names.pending? (h : Names a repository id list) : ∃ name, a.pending? id = some (.entry name) := by
  obtain ⟨text, declared, name, hi, -⟩ := h
  exact ⟨name, pending?_of_inclusion hi⟩

/-- What an include names after resolution it named before. -/
theorem Names.of_resolvesBy (h : ResolvesBy P a b) (hn : Names b repository id list) : Names a repository id list := by
  obtain ⟨text, declared, name, hi, ht⟩ := hn
  exact ⟨text, declared, name, (h.inclusion_of_pending (pending?_of_inclusion hi)).symm.trans hi,
    (entryTarget_congr h.repositories repository declared name).symm.trans ht⟩

/-- An include that still waits names what it named. -/
theorem Names.of_pending (h : ResolvesBy P a b) (hn : Names a repository id list) (hp : b.pending? id ≠ none) :
    Names b repository id list := by
  obtain ⟨text, declared, name, hi, ht⟩ := hn
  obtain ⟨reference, hb⟩ := Option.ne_none_iff_exists'.1 hp
  exact ⟨text, declared, name, (h.inclusion_of_pending hb).trans hi,
    (entryTarget_congr h.repositories repository declared name).trans ht⟩

/-- The verdicts on `#name` includes are lawful. -/
theorem lawful_entryVerdict (hc : a.ClosedIn ρ) (hf : a.FiniteIn ρ) (hρ : ρ.Within a.region) (hr : ρ.repositories repository)
    {ids : List NodeId} (hids : ∀ id ∈ ids, ρ.nodes id) :
    Resolution.Lawful (fun id : NodeId => id) (entryVerdict repository) Reference.isEntry
      (fun id list => id ∈ ids ∧ Names a repository id list) ids a := by
  intro id hid b hb
  unfold entryVerdict
  rcases (hb.hasNode.2 (hρ.nodes id (hids id hid))).inclusion_cases with ⟨hi, hp⟩ | ⟨text, declared, t, hi, hp⟩ |
    ⟨text, declared, reference, hi, hp⟩
  · exact ⟨.skipped, by rw [hi]; rfl, by simp [awaits, hp], nofun⟩
  · exact ⟨.skipped, by rw [hi]; rfl, by simp [awaits, hp], nofun⟩
  · cases reference with
    | entry name =>
      have hia := (hb.inclusion_of_pending hp).symm.trans hi
      obtain ⟨found, hfound⟩ := entryTarget_ok hf hr (fun r hd => hc.staysIn.repositories_declared (hids id hid) hia hd) name
      have hfoundb := (entryTarget_congr hb.repositories repository declared name).trans hfound
      simp only [hi, hfoundb, bind, Except.bind]
      cases found with
      | none => exact ⟨.missing text, rfl, by simp [awaits, hp, Reference.isEntry], by simp⟩
      | some list =>
        refine ⟨.attached list, rfl, by simp [awaits, hp, Reference.isEntry], ?_⟩
        rintro target ⟨⟩
        exact ⟨hid, text, declared, name, hia, hfound⟩
    | _ => exact ⟨.skipped, by rw [hi]; rfl, by simp [awaits, hp, Reference.isEntry], nofun⟩

/-- The verdicts on `$self` includes are lawful. -/
theorem lawful_selfVerdict {ids : List NodeId} (hids : ∀ id ∈ ids, a.HasNode id) (root : ListId) :
    Resolution.Lawful (fun id : NodeId => id) (selfVerdict root) Reference.isSelf
      (fun id list => id ∈ ids ∧ a.pending? id = some .self ∧ list = root) ids a := by
  intro id hid b hb
  unfold selfVerdict
  rcases (hb.hasNode.2 (hids id hid)).inclusion_cases with ⟨hi, hp⟩ | ⟨text, declared, t, hi, hp⟩ |
    ⟨text, declared, reference, hi, hp⟩
  · exact ⟨.skipped, by rw [hi]; rfl, by simp [awaits, hp], nofun⟩
  · exact ⟨.skipped, by rw [hi]; rfl, by simp [awaits, hp], nofun⟩
  · rw [hi]
    cases reference with
    | self =>
      refine ⟨.attached root, rfl, by simp [awaits, hp, Reference.isSelf], ?_⟩
      rintro target ⟨⟩
      exact ⟨hid, (hb.node_of_pending hp).2, rfl⟩
    | _ => exact ⟨.skipped, rfl, by simp [awaits, hp, Reference.isSelf], nofun⟩

/-! ## Runs -/

/-- A name is found or it is missing, and never waited for. -/
theorem entryVerdict_ne_waiting (repository : RepositoryId) (a : Arena) (id : NodeId) (reference : String) :
    entryVerdict repository a id ≠ .ok (.waiting reference) := by
  intro h
  unfold entryVerdict at h
  obtain ⟨i?, -, h⟩ := exists_of_bind_eq_ok h
  split at h
  · obtain ⟨found, -, h⟩ := exists_of_bind_eq_ok h
    split at h <;> cases h
  · cases h

/-- Resolving `$self` attaches the root or nothing. -/
theorem selfVerdict_attached (root : ListId) (a : Arena) (id : NodeId) {v : Verdict} (h : selfVerdict root a id = .ok v) :
    v = .skipped ∨ v = .attached root := by
  unfold selfVerdict at h
  obtain ⟨i?, -, h⟩ := exists_of_bind_eq_ok h
  split at h
  · exact .inr (Except.ok.inj h).symm
  · exact .inl (Except.ok.inj h).symm

/-- What misses its target is a pending include with a name that is not found. -/
theorem entryVerdict_missing {text : String} (h : entryVerdict repository a id = .ok (.missing text)) :
    Misses a repository id text := by
  unfold entryVerdict at h
  obtain ⟨i?, hi, h⟩ := exists_of_bind_eq_ok h
  split at h
  · rename_i reference declared name
    obtain ⟨found, ht, h⟩ := exists_of_bind_eq_ok h
    cases found with
    | some list => cases h
    | none =>
      cases h
      exact ⟨declared, name, hi, ht⟩
  · cases h

/-- An include whose name is not found is reported missing. -/
theorem Misses.entryVerdict {text : String} (h : Misses a repository id text) :
    entryVerdict repository a id = .ok (.missing text) := by
  obtain ⟨declared, name, hi, ht⟩ := h
  simp only [Registry.entryVerdict, hi, ht, bind, Except.bind]
  rfl

/-- What is reported of an include is that its name is not found. -/
theorem missingAt_eq_some {scope : NodeId → String} {u : Unsettled} :
    Resolution.missingAt scope (entryVerdict repository) a id = some u ↔ ∃ text, Misses a repository id text ∧ u = ⟨scope id, text⟩ := by
  constructor
  · intro hu
    unfold Resolution.missingAt at hu
    split at hu
    · rename_i text hv
      exact ⟨text, entryVerdict_missing hv, (Option.some.inj hu).symm⟩
    · cases hu
  · rintro ⟨text, hmisses, rfl⟩
    simp only [Resolution.missingAt, hmisses.entryVerdict]

/-- Nothing is reported of an include whose name is found. -/
theorem missingAt_eq_none {scope : NodeId → String} :
    Resolution.missingAt scope (entryVerdict repository) a id = none ↔ ∀ text, ¬Misses a repository id text := by
  constructor
  · intro hnone text hmisses
    cases hnone.symm.trans (missingAt_eq_some.2 ⟨text, hmisses, rfl⟩)
  · intro hno
    refine Option.eq_none_iff_forall_ne_some.2 fun u hu => ?_
    obtain ⟨text, hmisses, -⟩ := missingAt_eq_some.1 hu
    exact hno text hmisses

/-- What misses its target on the way names no list. -/
theorem not_names_of_missing {m : Arena} {text : String} (hm : ResolvesBy P a m)
    (hv : entryVerdict repository m id = .ok (.missing text)) : ¬Names a repository id list := by
  rintro ⟨text', declared, name, hi, ht⟩
  obtain ⟨declared', name', hmi, hnone⟩ := entryVerdict_missing hv
  rw [← hm.inclusion_of_pending (pending?_of_inclusion hmi), hmi] at hi
  cases hi
  rw [entryTarget_congr hm.repositories, ht] at hnone
  cases hnone

/-- The verdict on a `#name` depends on the include and on the repositories alone. -/
theorem entryVerdict_congr (hi : b.inclusion id = a.inclusion id) (hr : b.repositories = a.repositories) :
    entryVerdict repository b id = entryVerdict repository a id := by
  simp only [entryVerdict, hi, entryTarget_congr hr]

/-- The registered includes with a name that is not found, in order. -/
def unnamed (r : Registry) (repository : RepositoryId) (a : Arena) : List Unsettled :=
  r.includes.filterMap (Resolution.missingAt (fun _ => r.owner) (entryVerdict repository) a)

/-- The first of them is the first registered include that names no list. -/
theorem exists_unnamed_eq_cons {r : Registry} {first : Unsettled} :
    (∃ rest, r.unnamed repository a = first :: rest) ↔ ∃ before id after text, r.includes = before ++ id :: after ∧
      (∀ other ∈ before, ∀ t, ¬Misses a repository other t) ∧ Misses a repository id text ∧ first = ⟨r.owner, text⟩ := by
  simp only [unnamed, List.filterMap_eq_cons_iff, missingAt_eq_none, missingAt_eq_some]
  constructor
  · rintro ⟨rest, before, id, after, hids, hbefore, ⟨text, hmisses, rfl⟩, -⟩
    exact ⟨before, id, after, text, hids, hbefore, hmisses, rfl⟩
  · rintro ⟨before, id, after, text, hids, hbefore, hmisses, rfl⟩
    exact ⟨_, before, id, after, hids, hbefore, ⟨text, hmisses, rfl⟩, rfl⟩

/-- What is not found depends on the registered includes and the repositories alone. -/
theorem unnamed_congr {r : Registry} (hi : ∀ id ∈ r.includes, b.inclusion id = a.inclusion id)
    (hr : b.repositories = a.repositories) : r.unnamed repository b = r.unnamed repository a := by
  refine List.filterMap_congr fun id hid => ?_
  simp only [Resolution.missingAt, entryVerdict_congr (hi id hid) hr]

/-- Resolution that resolves no include with a name that is not found does not change which names are not found. -/
theorem missingAt_of_resolvesBy {scope : NodeId → String} (h : ResolvesBy P a b)
    (hP : ∀ list text, P id list → ¬Misses a repository id text) :
    Resolution.missingAt scope (entryVerdict repository) b id = Resolution.missingAt scope (entryVerdict repository) a id := by
  cases hp : b.pending? id with
  | some reference => simp only [Resolution.missingAt, entryVerdict_congr (h.inclusion_of_pending hp) h.repositories]
  | none =>
    -- it waits no more, so before it was resolved it waited for nothing or for something else
    refine (missingAt_eq_none.2 fun text hmisses => ?_).trans (missingAt_eq_none.2 fun text hmisses => ?_).symm
    · obtain ⟨declared, name, hi, -⟩ := hmisses
      cases (pending?_of_inclusion hi).symm.trans hp
    · obtain ⟨declared, name, hi, ht⟩ := hmisses
      rcases h.pending_or (pending?_of_inclusion hi) with hpb | ⟨list, hpl⟩
      · cases hpb.symm.trans hp
      · exact hP list text hpl ⟨declared, name, hi, ht⟩

/-- What names a list is not missing. -/
theorem Names.not_misses {text : String} (h : Names a repository id list) : ¬Misses a repository id text :=
  fun hmisses => not_names_of_missing (.refl (fun _ _ => True) a) hmisses.entryVerdict h

/-- Resolution that touches no include whose name is not found leaves these as they are. -/
theorem unnamed_of_resolvesBy {r : Registry} (h : ResolvesBy P a b)
    (hP : ∀ id list text, P id list → ¬Misses a repository id text) : r.unnamed repository b = r.unnamed repository a :=
  List.filterMap_congr fun id _ => missingAt_of_resolvesBy h (hP id)

/-- The first include that a pass reports as missing its target, or else the number of those that it resolved. -/
def answerOf (tally : Tally) : Except LinkError Nat :=
  match tally.missing with
  | [] => .ok tally.resolved
  | first :: _ => .error first.error

/-- Resolving names is a pass. -/
theorem resolveEntries_steps (r : Registry) (hc : a.ClosedIn ρ) (hf : a.FiniteIn ρ) (hρ : ρ.Within a.region)
    (hr : ρ.repositories repository) (hids : ∀ id ∈ r.includes, ρ.nodes id) :
    ∃ tally b, (r.resolveEntries repository).start a = .ok (answerOf tally, b) ∧
      Resolution.Passes (fun id : NodeId => id) (fun _ => r.owner) (entryVerdict repository) Reference.isEntry
        (fun id list => id ∈ r.includes ∧ Names a repository id list) r.includes a tally b := by
  obtain ⟨tally, b, hpass, hsteps⟩ := (lawful_entryVerdict hc hf hρ hr hids).pass_ok (fun _ => r.owner) (.refl _ a)
  have hstart : (LinkM.ofChange (Resolution.pass id (fun _ => r.owner) (entryVerdict repository) r.includes)).start a =
      .ok (.ok tally, b) := LinkM.start_ofChange_ok hpass
  refine ⟨tally, b, ?_, hsteps⟩
  unfold resolveEntries answerOf
  rw [LinkM.start_bind, hstart]
  cases hm : tally.missing <;> simp only [hm] <;> rfl

/-- Resolving names answers. Every registered include is resolved that names a list, and there is no error exactly when no registered
include waits for a name any more. -/
theorem resolveEntries_ok (r : Registry) (hc : a.ClosedIn ρ) (hf : a.FiniteIn ρ) (hρ : ρ.Within a.region)
    (hr : ρ.repositories repository) (hids : ∀ id ∈ r.includes, ρ.nodes id) :
    ∃ answer b, (r.resolveEntries repository).start a = .ok (answer, b) ∧
      ResolvesBy (fun id list => id ∈ r.includes ∧ Names a repository id list) a b ∧
      (∀ id ∈ r.includes, ∀ list, Names a repository id list → b.pending? id = none) ∧
      ((∃ n, answer = .ok n) ↔ ∀ id ∈ r.includes, b.awaits Reference.isEntry id = false) := by
  obtain ⟨tally, b, hrun, hsteps⟩ := r.resolveEntries_steps hc hf hρ hr hids
  have hwait := hsteps.waiting_eq_nil (entryVerdict_ne_waiting repository)
  refine ⟨_, b, hrun, hsteps.resolvesBy, ?_, ?_⟩
  · intro id hid list hnames
    cases hp : b.pending? id with
    | none => rfl
    | some reference =>
      obtain ⟨name, hname⟩ := hnames.pending?
      have hw : b.awaits Reference.isEntry id = true := by
        rw [(hsteps.resolvesBy.node_of_pending hp).2, Option.some.injEq] at hname
        simp [awaits, hp, hname, Reference.isEntry]
      obtain ⟨m, text, hm, hv | hv⟩ := hsteps.passed_over hid hw
      · exact absurd hv (entryVerdict_ne_waiting repository m id text)
      · exact absurd hnames (not_names_of_missing hm hv)
  · unfold answerOf
    cases hm : tally.missing with
    | nil => exact iff_of_true ⟨_, rfl⟩ (hsteps.settled hwait hm)
    | cons first rest =>
      have herror : ¬∃ n : Nat, Except.error first.error = Except.ok n := by
        rintro ⟨n, hn⟩
        cases hn
      refine iff_of_false herror fun hnone => ?_
      obtain ⟨id, hid, m, text, ham, hmb, hv, hw⟩ := hsteps.exists_missing (by rw [hm]; exact List.cons_ne_nil _ _)
      obtain ⟨name, hp, hk⟩ := awaits_eq_true.1 hw
      rcases hmb.pending_or hp with hpb | ⟨target, -, hnames⟩
      · cases (awaits_eq_true.2 ⟨_, hpb, hk⟩).symm.trans (hnone id hid)
      · exact absurd hnames (not_names_of_missing ham hv)

/-- The error of resolving names is the first name that is not found. -/
theorem resolveEntries_answer (r : Registry) (hc : a.ClosedIn ρ) (hf : a.FiniteIn ρ) (hρ : ρ.Within a.region)
    (hr : ρ.repositories repository) (hids : ∀ id ∈ r.includes, ρ.nodes id) :
    ∃ n b, (r.resolveEntries repository).start a =
      .ok (match r.unnamed repository a with | [] => .ok n | first :: _ => .error first.error, b) := by
  obtain ⟨tally, b, hrun, hsteps⟩ := r.resolveEntries_steps hc hf hρ hr hids
  have hmissing : tally.missing = r.unnamed repository a :=
    hsteps.missing_eq fun _ _ _ hm => missingAt_of_resolvesBy hm fun _ _ hn => hn.2.not_misses
  refine ⟨tally.resolved, b, ?_⟩
  rw [hrun, answerOf, hmissing]

/-- Resolving `$self` is a pass that reports nothing. -/
theorem resolveSelf_steps (r : Registry) (hids : ∀ id ∈ r.includes, a.HasNode id) (root : ListId) :
    ∃ tally b, (r.resolveSelf root).start a = .ok (.ok tally.resolved, b) ∧
      Resolution.Passes (fun id : NodeId => id) (fun _ => r.owner) (selfVerdict root) Reference.isSelf
        (fun id list => id ∈ r.includes ∧ a.pending? id = some .self ∧ list = root) r.includes a tally b ∧
      ∀ id ∈ r.includes, b.awaits Reference.isSelf id = false := by
  obtain ⟨tally, b, hpass, hsteps⟩ := (lawful_selfVerdict hids root).pass_ok (fun _ => r.owner) (.refl _ a)
  have hstart : (LinkM.ofChange (Resolution.pass id (fun _ => r.owner) (selfVerdict root) r.includes)).start a =
      .ok (.ok tally, b) := LinkM.start_ofChange_ok hpass
  have hrun : (r.resolveSelf root).start a = .ok (.ok tally.resolved, b) := by
    unfold resolveSelf
    rw [LinkM.start_bind, hstart]
    rfl
  have hwait := hsteps.waiting_eq_nil fun a id reference h =>
    (selfVerdict_attached root a id h).elim nofun nofun
  have hmiss := hsteps.missing_eq_nil fun a id reference h =>
    (selfVerdict_attached root a id h).elim nofun nofun
  exact ⟨tally, b, hrun, hsteps, hsteps.settled hwait hmiss⟩

/-- Resolving `$self` answers without an error, and no registered include waits for the root any more. -/
theorem resolveSelf_ok (r : Registry) (hids : ∀ id ∈ r.includes, a.HasNode id) (root : ListId) :
    ∃ n b, (r.resolveSelf root).start a = .ok (.ok n, b) ∧
      ResolvesBy (fun id list => id ∈ r.includes ∧ a.pending? id = some .self ∧ list = root) a b ∧
      ∀ id ∈ r.includes, b.awaits Reference.isSelf id = false := by
  obtain ⟨tally, b, hrun, hsteps, hself⟩ := r.resolveSelf_steps hids root
  exact ⟨_, b, hrun, hsteps.resolvesBy, hself⟩

/-- Of the includes that wait for the root none is left. -/
theorem exhausts_self {ids : List NodeId}
    (h : ResolvesBy (fun id list => id ∈ ids ∧ a.pending? id = some .self ∧ list = root) a b)
    (hself : ∀ id ∈ ids, b.awaits Reference.isSelf id = false) :
    Exhausts (fun id list => id ∈ ids ∧ a.pending? id = some .self ∧ list = root) a b := by
  refine ⟨h, ?_⟩
  rintro id list ⟨hid, hp, -⟩
  refine Option.eq_none_iff_forall_ne_some.2 fun reference hb => ?_
  obtain rfl : reference = .self := Option.some.inj ((h.node_of_pending hb).2.symm.trans hp)
  cases (hself id hid).symm.trans (awaits_eq_true.2 ⟨.self, hb, rfl⟩)

/-- When names and then the root are resolved, none of the includes is left that is for the own grammar. -/
theorem exhausts_entries_self {m : Arena} {ids : List NodeId}
    (h : Exhausts (fun id list => id ∈ ids ∧ Names a repository id list) a m)
    (h' : Exhausts (fun id list => id ∈ ids ∧ m.pending? id = some .self ∧ list = root) m b) :
    Exhausts (fun id list => id ∈ ids ∧ (Names a repository id list ∨ a.pending? id = some .self ∧ list = root)) a b := by
  refine h.trans h' (fun _ _ hn => ⟨hn.1, .inl hn.2⟩)
    (fun _ _ hs => ⟨hs.1, .inr ⟨(h.resolvesBy.node_of_pending hs.2.1).2, hs.2.2⟩⟩) ?_
  rintro id list ⟨hid, hnames | ⟨hp, hroot⟩⟩
  · exact .inl ⟨hid, hnames⟩
  · refine .inr fun hne => ?_
    obtain ⟨reference, hpm⟩ := Option.ne_none_iff_exists'.1 hne
    exact ⟨hid, hpm.trans ((h.resolvesBy.node_of_pending hpm).2.symm.trans hp), hroot⟩

/-- Nor is one when the root is resolved first. -/
theorem exhausts_self_entries {m : Arena} {ids : List NodeId}
    (h : Exhausts (fun id list => id ∈ ids ∧ a.pending? id = some .self ∧ list = root) a m)
    (h' : Exhausts (fun id list => id ∈ ids ∧ Names m repository id list) m b) :
    Exhausts (fun id list => id ∈ ids ∧ (Names a repository id list ∨ a.pending? id = some .self ∧ list = root)) a b := by
  refine h.trans h' (fun _ _ hs => ⟨hs.1, .inr hs.2⟩) (fun _ _ hn => ⟨hn.1, .inl (hn.2.of_resolvesBy h.resolvesBy)⟩) ?_
  rintro id list ⟨hid, hnames | hself⟩
  · exact .inr fun hne => ⟨hid, hnames.of_pending h.resolvesBy hne⟩
  · exact .inl ⟨hid, hself⟩

end Registry

/-- A reference is for the own grammar or for another one. -/
theorem Reference.isCrossGrammar_of_not (reference : Reference) (he : reference.isEntry = false)
    (hs : reference.isSelf = false) : reference.isCrossGrammar = true := by
  cases reference with
  | entry name => cases he
  | self => cases hs
  | _ => rfl

/-- A reference to another grammar is no name of an entry. -/
theorem Reference.isEntry_of_isCrossGrammar (reference : Reference) (h : reference.isCrossGrammar = true) :
    reference.isEntry = false := by
  cases reference with
  | entry name => exact absurd h Bool.false_ne_true
  | _ => rfl

namespace Grammar

variable {g : Grammar} {a : Arena}

/-- A registered include refers to a list of its own grammar: by a name, or as the root. -/
def Own (g : Grammar) (a : Arena) (id : NodeId) (list : ListId) : Prop :=
  id ∈ g.registry.includes ∧ (Registry.Names a g.repository id list ∨ a.pending? id = some .self ∧ list = g.root)

/-- An include of a grammar in a closed region refers to a list of the region. -/
theorem Own.lists {ρ : Region} (hc : a.ClosedIn ρ) (hg : g.LiesIn ρ) {id : NodeId} {list : ListId} (h : g.Own a id list) :
    ρ.lists list := by
  rcases h.2 with hn | ⟨-, rfl⟩
  · exact hn.lists hc.staysIn hg.repository (hg.includes id h.1)
  · exact hg.root

/-- The list that an include of a grammar refers to is there. -/
theorem Own.hasList (hc : a.Closed) (hg : g.HeldBy a) {id : NodeId} {list : ListId} (h : g.Own a id list) :
    a.HasList list :=
  h.lists hc hg.liesIn

/-- An include refers to one list of its own grammar at most. -/
theorem Own.unique {id : NodeId} {list t : ListId} (h : g.Own a id list) (h' : g.Own a id t) : list = t := by
  rcases h.2 with hn | ⟨hs, rfl⟩ <;> rcases h'.2 with hn' | ⟨hs', rfl⟩
  · exact hn.unique hn'
  · obtain ⟨name, hp⟩ := hn.pending?
    rw [hs'] at hp
    cases hp
  · obtain ⟨name, hp⟩ := hn'.pending?
    rw [hs] at hp
    cases hp
  · rfl

/-- When `$self` has been resolved, all that waits is for other grammars if no include waited for a name. -/
theorem isCrossGrammar_iff_of_self {m b : Arena} {ids : List NodeId} {P : NodeId → ListId → Prop} (hb : ResolvesBy P m b)
    (hP : ∀ id list, P id list → m.pending? id = some .self) (hself : ∀ id ∈ ids, b.awaits Reference.isSelf id = false) :
    (∀ id ∈ ids, m.awaits Reference.isEntry id = false) ↔
      ∀ id ∈ ids, ∀ reference, b.pending? id = some reference → reference.isCrossGrammar = true := by
  constructor
  · intro hentries id hid reference hp
    refine reference.isCrossGrammar_of_not ?_ ?_
    · simpa [awaits, hp] using hb.awaits_eq_false (hentries id hid)
    · simpa [awaits, hp] using hself id hid
  · intro hcross id hid
    refine Bool.eq_false_iff.2 fun hw => ?_
    obtain ⟨reference, hp, hk⟩ := awaits_eq_true.1 hw
    rcases hb.pending_or hp with hpb | ⟨list, hpl⟩
    · rw [reference.isEntry_of_isCrossGrammar (hcross id hid reference hpb)] at hk
      cases hk
    · obtain rfl : reference = .self := Option.some.inj (hp.symm.trans (hP id list hpl))
      cases hk

/-- Local resolution answers. Every registered include is resolved that refers to a list of its own grammar, and there is no error
exactly when what still waits is for other grammars. -/
theorem resolveLocal_ok {ρ : Region} (hc : a.ClosedIn ρ) (hf : a.FiniteIn ρ) (hρ : ρ.Within a.region) (hg : g.LiesIn ρ) :
    ∃ answer b, g.resolveLocal.start a = .ok (answer, b) ∧ ResolvesBy (g.Own a) a b ∧
      (∀ id list, g.Own a id list → b.pending? id = none) ∧
      ((∃ u, answer = .ok u) ↔ ∀ id ∈ g.registry.includes, ∀ reference, b.pending? id = some reference →
        reference.isCrossGrammar = true) := by
  obtain ⟨entries, m, hrun, hm, hnamed, hentries⟩ := g.registry.resolveEntries_ok hc hf hρ hg.repository hg.includes
  obtain ⟨n, b, hrun', hb, hself⟩ :=
    g.registry.resolveSelf_ok (fun id hid => hm.hasNode.2 (hρ.nodes id (hg.includes id hid))) g.root
  have hentries' : Exhausts (fun id list => id ∈ g.registry.includes ∧ Registry.Names a g.repository id list) a m :=
    ⟨hm, fun id list h => hnamed id h.1 list h.2⟩
  obtain ⟨hown, hall⟩ : Exhausts (g.Own a) a b :=
    Registry.exhausts_entries_self hentries' (Registry.exhausts_self hb hself)
  have hstart : g.resolveEntries.attempt.start a = .ok (.ok entries, m) := by
    rw [LinkM.start_attempt, resolveEntries, hrun]
  have hstart' : g.resolveSelf.start m = .ok (.ok n, b) := hrun'
  have hiff := hentries.trans (isCrossGrammar_iff_of_self hb (fun _ _ h => h.2.1) hself)
  refine ⟨entries.map fun _ => (), b, ?_, hown, hall, ?_⟩
  · unfold resolveLocal
    rw [LinkM.start_bind, hstart]
    simp only [LinkM.start_bind, hstart']
    cases entries <;> rfl
  · rw [← hiff]
    cases entries with
    | error e => simp [Except.map]
    | ok k => simp [Except.map]

/-- What local resolution answers: the first name that is not found is the error. -/
def localAnswer (g : Grammar) (a : Arena) : Except LinkError Unit :=
  match g.registry.unnamed g.repository a with
  | [] => .ok ()
  | first :: _ => .error first.error

/-- Local resolution gives that answer. -/
theorem resolveLocal_answer {ρ : Region} (hc : a.ClosedIn ρ) (hf : a.FiniteIn ρ) (hρ : ρ.Within a.region) (hg : g.LiesIn ρ) :
    ∃ b, g.resolveLocal.start a = .ok (g.localAnswer a, b) := by
  obtain ⟨n, m, hrun⟩ := g.registry.resolveEntries_answer hc hf hρ hg.repository hg.includes
  obtain ⟨entries, m', hrun', hm, -⟩ := g.registry.resolveEntries_ok hc hf hρ hg.repository hg.includes
  obtain ⟨-, rfl⟩ := Prod.mk.inj (Except.ok.inj (hrun.symm.trans hrun'))
  obtain ⟨k, b, hself, -⟩ :=
    g.registry.resolveSelf_ok (fun id hid => hm.hasNode.2 (hρ.nodes id (hg.includes id hid))) g.root
  have hstart' : g.resolveSelf.start m = .ok (.ok k, b) := hself
  refine ⟨b, ?_⟩
  unfold resolveLocal localAnswer
  rw [LinkM.start_bind, LinkM.start_attempt, resolveEntries, hrun]
  simp only [LinkM.start_bind, hstart']
  cases g.registry.unnamed g.repository a <;> rfl

/-- The answer is an error exactly when a name is not found, and then the first one. -/
theorem localAnswer_eq_error {e : LinkError} :
    g.localAnswer a = .error e ↔ ∃ first rest, g.registry.unnamed g.repository a = first :: rest ∧ first.error = e := by
  unfold localAnswer
  cases g.registry.unnamed g.repository a <;> simp

/-- The error is the first of some includes with a name that is not found, and there is none when there is no such include. -/
def ReportsFirst (g : Grammar) (a : Arena) (ids : List NodeId) (answer : Except LinkError Unit) : Prop :=
  ∀ e, answer = .error e ↔ ∃ before id after text, ids = before ++ id :: after ∧
    (∀ other ∈ before, ∀ t, ¬Registry.Misses a g.repository other t) ∧ Registry.Misses a g.repository id text ∧
    e = .unresolvedReference g.scopeName text

/-- The answer reports the first registered include with a name that is not found. -/
theorem localAnswer_reportsFirst (howner : g.registry.owner = g.scopeName) :
    g.ReportsFirst a g.registry.includes (g.localAnswer a) := by
  intro e
  rw [localAnswer_eq_error]
  constructor
  · rintro ⟨first, rest, hunnamed, rfl⟩
    obtain ⟨before, id, after, text, hids, hbefore, hmisses, rfl⟩ := Registry.exists_unnamed_eq_cons.1 ⟨rest, hunnamed⟩
    exact ⟨before, id, after, text, hids, hbefore, hmisses, howner ▸ rfl⟩
  · rintro ⟨before, id, after, text, hids, hbefore, hmisses, rfl⟩
    obtain ⟨rest, hunnamed⟩ := Registry.exists_unnamed_eq_cons.2 ⟨before, id, after, text, hids, hbefore, hmisses, rfl⟩
    exact ⟨_, rest, hunnamed, howner ▸ rfl⟩

/-- Every include that a grammar registers waits for what its text says. -/
def AsWritten (g : Grammar) (a : Arena) : Prop :=
  ∀ id ∈ g.registry.includes, ∃ text declared reference, a.inclusion id = .ok (some ⟨text, declared, .pending reference⟩) ∧
    Reference.parse text = .ok reference

/-- The texts of includes with a name that is not found are names. -/
theorem AsWritten.parse_unnamed (h : g.AsWritten a) {repository : RepositoryId} {u : Unsettled}
    (hu : u ∈ g.registry.unnamed repository a) : ∃ name, Reference.parse u.reference = .ok (.entry name) := by
  obtain ⟨id, hid, hmissing⟩ := List.mem_filterMap.1 hu
  obtain ⟨text, declared, reference, hi, hparse⟩ := h id hid
  unfold Resolution.missingAt at hmissing
  split at hmissing
  · rename_i text' hv
    obtain ⟨declared', name, hi', -⟩ := Registry.entryVerdict_missing hv
    rw [hi] at hi'
    cases hi'
    cases hmissing
    exact ⟨name, hparse⟩
  · cases hmissing

/-- What local resolution has for an error is a name. -/
theorem AsWritten.parse_localAnswer (h : g.AsWritten a) {e : LinkError} (he : g.localAnswer a = .error e) :
    ∃ u : Unsettled, e = u.error ∧ ∃ name, Reference.parse u.reference = .ok (.entry name) := by
  unfold localAnswer at he
  split at he
  · cases he
  · rename_i first rest hunnamed
    cases he
    exact ⟨first, rfl, h.parse_unnamed (hunnamed ▸ List.mem_cons_self)⟩

end Grammar

end GrammarLinker
