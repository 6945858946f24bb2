import Mathlib.Data.List.Dedup
import GrammarLinker.Proofs.Registry.Local

/-!
# What resolving names does, in full

A name denotes the list that is found where the include was declared, or else in the repository that is given (`Registry.Denotes`).
Resolving names (`Registry.ResolvesNames`) resolves the registered includes whose names denote a list and changes nothing else. It answers
with the number of the includes that waited for a name, or, if one of the names denotes no list, with the first such include.

No resolution influences a later lookup, because lookups read the repositories alone. So a second call finds nothing to do
(`Registry.resolveEntries_again`), and it makes no difference whether `$self` is resolved before the names or after them
(`Registry.resolveEntries_resolveSelf`): the two are about different includes.
-/

namespace GrammarLinker

open Arena

variable {P : NodeId → ListId → Prop} {a b : Arena}

/-- Where resolution is about other includes, as many wait as before. -/
theorem Arena.ResolvesBy.awaits_eq {kind : Reference → Bool} {id : NodeId} (h : ResolvesBy P a b)
    (hP : ∀ list, P id list → a.awaits kind id = false) : b.awaits kind id = a.awaits kind id := by
  cases ha : a.awaits kind id with
  | false => exact h.awaits_eq_false ha
  | true =>
    obtain ⟨reference, hp, hk⟩ := awaits_eq_true.1 ha
    rcases h.pending_or hp with hb | ⟨list, hlist⟩
    · exact awaits_eq_true.2 ⟨reference, hb, hk⟩
    · cases (hP list hlist).symm.trans ha

/-- Where none of some ids waits, none is counted. -/
theorem Arena.countP_dedup_awaits {kind : Reference → Bool} {ids : List NodeId} (h : ∀ id ∈ ids, a.awaits kind id = false) :
    ids.dedup.countP (a.awaits kind) = 0 :=
  List.countP_eq_zero.2 fun id hid => by rw [h id (List.mem_dedup.1 hid)]; exact Bool.false_ne_true

namespace Registry

variable {r : Registry} {repository : RepositoryId} {id : NodeId} {list root : ListId} {text : String}

/-! ## What names denote -/

/-- The list that a name denotes for an include, if it denotes one: the one that is found where the include was declared, or else the
one that is found in a repository. -/
inductive Denotes (a : Arena) (repository : RepositoryId) : Option RepositoryId → String → Option ListId → Prop where
  | declared {inner : RepositoryId} {name : String} {list : ListId} (h : a.lookup inner name = .ok (some list)) :
      Denotes a repository (some inner) name (some list)
  | beyond {inner : RepositoryId} {name : String} {found : Option ListId} (h : a.lookup inner name = .ok none)
      (hr : a.lookup repository name = .ok found) : Denotes a repository (some inner) name found
  | undeclared {name : String} {found : Option ListId} (hr : a.lookup repository name = .ok found) :
      Denotes a repository none name found

theorem entryTarget_eq_ok {declared : Option RepositoryId} {name : String} {found : Option ListId} :
    entryTarget a repository declared name = .ok found ↔ Denotes a repository declared name found := by
  cases declared with
  | none => exact ⟨.undeclared, fun | .undeclared hr => hr⟩
  | some inner =>
    cases hl : a.lookup inner name with
    | error fault =>
      refine iff_of_false (fun h => ?_) fun h => ?_
      · simp [entryTarget, bind, Except.bind, hl] at h
      · cases h with
        | declared h => cases hl.symm.trans h
        | beyond h _ => cases hl.symm.trans h
    | ok inside =>
      cases inside with
      | none =>
        have hbeyond : entryTarget a repository (some inner) name = a.lookup repository name := by
          simp [entryTarget, bind, Except.bind, hl]
        rw [hbeyond]
        refine ⟨.beyond hl, fun h => ?_⟩
        cases h with
        | declared h => cases hl.symm.trans h
        | beyond _ hr => exact hr
      | some list =>
        have hinside : entryTarget a repository (some inner) name = .ok (some list) := by
          simp [entryTarget, bind, Except.bind, hl, pure, Except.pure]
        rw [hinside]
        constructor
        · rintro ⟨⟩
          exact .declared hl
        · intro h
          cases h with
          | declared h => exact hl.symm.trans h
          | beyond h _ => cases hl.symm.trans h

/-- A pending `#name` that denotes a list. -/
def Found (a : Arena) (repository : RepositoryId) (id : NodeId) (list : ListId) : Prop :=
  ∃ text declared name, a.inclusion id = .ok (some ⟨text, declared, .pending (.entry name)⟩) ∧
    Denotes a repository declared name (some list)

/-- A pending `#name` that denotes no list, with its text. -/
def Lost (a : Arena) (repository : RepositoryId) (id : NodeId) (text : String) : Prop :=
  ∃ declared name, a.inclusion id = .ok (some ⟨text, declared, .pending (.entry name)⟩) ∧
    Denotes a repository declared name none

/-- A name is found exactly when it denotes a list. -/
theorem names_iff_found : Names a repository id list ↔ Found a repository id list := by
  simp only [Names, Found, entryTarget_eq_ok]

/-- A name is missed exactly when it denotes none. -/
theorem misses_iff_lost : Misses a repository id text ↔ Lost a repository id text := by
  simp only [Misses, Lost, entryTarget_eq_ok]

theorem Misses.awaits (h : Misses a repository id text) : a.awaits Reference.isEntry id = true := by
  obtain ⟨declared, name, hi, -⟩ := h
  exact awaits_eq_true.2 ⟨.entry name, pending?_of_inclusion hi, rfl⟩

/-! ## The answers -/

/-- What resolving names answers: the first registered include with a name that is not found, or else the number of those that wait for
a name. -/
def entriesAnswer (r : Registry) (repository : RepositoryId) (a : Arena) : Except LinkError Nat :=
  match r.unnamed repository a with
  | [] => .ok (r.includes.dedup.countP (a.awaits Reference.isEntry))
  | first :: _ => .error first.error

/-- The answer is a number exactly when every name is found, and then it is that of the includes that wait for a name. -/
theorem entriesAnswer_eq_ok {n : Nat} :
    r.entriesAnswer repository a = .ok n ↔
      r.unnamed repository a = [] ∧ r.includes.dedup.countP (a.awaits Reference.isEntry) = n := by
  unfold entriesAnswer
  cases r.unnamed repository a <;> simp

/-- The answer is an error exactly when a name is missed, and then it is about the first of them. -/
theorem entriesAnswer_eq_error {e : LinkError} :
    r.entriesAnswer repository a = .error e ↔ ∃ before id after text, r.includes = before ++ id :: after ∧
      (∀ other ∈ before, ∀ t, ¬Misses a repository other t) ∧ Misses a repository id text ∧
      e = .unresolvedReference r.owner text := by
  have hfirst : r.entriesAnswer repository a = .error e ↔
      ∃ first, (∃ rest, r.unnamed repository a = first :: rest) ∧ first.error = e := by
    unfold entriesAnswer
    cases r.unnamed repository a <;> simp
  rw [hfirst]
  constructor
  · rintro ⟨first, hunnamed, rfl⟩
    obtain ⟨before, id, after, text, hids, hbefore, hmisses, rfl⟩ := exists_unnamed_eq_cons.1 hunnamed
    exact ⟨before, id, after, text, hids, hbefore, hmisses, rfl⟩
  · rintro ⟨before, id, after, text, hids, hbefore, hmisses, rfl⟩
    exact ⟨_, exists_unnamed_eq_cons.2 ⟨before, id, after, text, hids, hbefore, hmisses, rfl⟩, rfl⟩

/-- Resolution that is about other includes does not change the answer. -/
theorem entriesAnswer_of_resolvesBy (h : ResolvesBy P a b) (hP : ∀ id list, P id list → a.awaits Reference.isEntry id = false) :
    r.entriesAnswer repository b = r.entriesAnswer repository a := by
  have hcount : r.includes.dedup.countP (b.awaits Reference.isEntry) = r.includes.dedup.countP (a.awaits Reference.isEntry) :=
    List.countP_congr fun id _ => by rw [h.awaits_eq (hP id)]
  have hunnamed : r.unnamed repository b = r.unnamed repository a :=
    unnamed_of_resolvesBy h fun id list text hp hmisses => by cases (hP id list hp).symm.trans hmisses.awaits
  simp only [entriesAnswer, hcount, hunnamed]

section

variable (hc : a.Closed) (hf : a.FiniteChains) (hr : a.HasRepository repository) (hids : ∀ id ∈ r.includes, a.HasNode id)
include hc hf hr hids

/-- Resolving names answers, and leaves no registered include waiting that names a list. -/
theorem resolveEntries_exhausts : ∃ b, (r.resolveEntries repository).start a = .ok (r.entriesAnswer repository a, b) ∧
    Exhausts (fun id list => id ∈ r.includes ∧ Names a repository id list) a b ∧
    ((∃ n, r.entriesAnswer repository a = .ok n) ↔ ∀ id ∈ r.includes, b.awaits Reference.isEntry id = false) := by
  have hfin := hf.finiteIn (.refl _)
  obtain ⟨tally, b, hrun, hsteps⟩ := r.resolveEntries_steps hc hfin (.refl _) hr hids
  obtain ⟨hres, hall, hiff⟩ := LinkM.outcome (r.resolveEntries_ok hc hfin (.refl _) hr hids) hrun
  have hunnamed : tally.missing = r.unnamed repository a :=
    hsteps.missing_eq fun _ _ _ hm => missingAt_of_resolvesBy hm fun _ _ hn => hn.2.not_misses
  have hanswer : answerOf tally = r.entriesAnswer repository a := by
    unfold answerOf at hiff
    unfold answerOf entriesAnswer
    rw [← hunnamed]
    cases hm : tally.missing with
    | nil =>
      have hnone := hiff.1 ⟨tally.resolved, by rw [hm]⟩
      have hcount := hsteps.count_ids (List.nodup_dedup r.includes) fun id hid => List.mem_dedup.2 hid
      rw [countP_dedup_awaits hnone, Nat.add_zero] at hcount
      simp only [hcount]
    | cons first rest => rfl
  rw [hanswer] at hrun hiff
  exact ⟨b, hrun, ⟨hres, fun id list hn => hall id hn.1 list hn.2⟩, hiff⟩

end

/-- Resolving `$self` answers with the number of the includes that wait for the root, and leaves none of them waiting. -/
theorem resolveSelf_exhausts (hids : ∀ id ∈ r.includes, a.HasNode id) (root : ListId) :
    ∃ b, (r.resolveSelf root).start a = .ok (.ok (r.includes.dedup.countP (a.awaits Reference.isSelf)), b) ∧
      Exhausts (fun id list => id ∈ r.includes ∧ a.pending? id = some .self ∧ list = root) a b := by
  obtain ⟨tally, b, hrun, hsteps, hself⟩ := r.resolveSelf_steps hids root
  have hcount := hsteps.count_ids (List.nodup_dedup r.includes) fun id hid => List.mem_dedup.2 hid
  rw [countP_dedup_awaits hself, Nat.add_zero] at hcount
  exact ⟨b, hcount ▸ hrun, exhausts_self hsteps.resolvesBy hself⟩

/-! ## All that resolving names does -/

/-- What resolving names did to an arena, and what it answered. -/
structure ResolvesNames (r : Registry) (repository : RepositoryId) (a b : Arena) (answer : Except LinkError Nat) : Prop where
  /-- Every registered include that waits for a name denotes a list or none. -/
  decided : ∀ id ∈ r.includes, a.awaits Reference.isEntry id = true →
    (∃ list, Found a repository id list) ∨ ∃ text, Lost a repository id text
  resolved : ∀ id ∈ r.includes, ∀ list, Found a repository id list → ∀ node, a.node id = .ok node →
    b.node id = .ok (node.resolvedTo list)
  /-- Nothing else is changed. -/
  kept : ∀ id node, a.node id = .ok node → (id ∈ r.includes → ∀ list, ¬Found a repository id list) → b.node id = .ok node
  lists : b.lists = a.lists
  repositories : b.repositories = a.repositories
  size : b.nodes.size = a.nodes.size
  success : (∃ n, answer = .ok n) ↔ ∀ id ∈ r.includes, b.awaits Reference.isEntry id = false
  /-- The number is that of the includes that waited for a name, each counted once. -/
  count : ∀ n, answer = .ok n → n = r.includes.dedup.countP (a.awaits Reference.isEntry)
  /-- The error is the first registered include that denotes no list. -/
  error : ∀ e, answer = .error e ↔ ∃ before id after text, r.includes = before ++ id :: after ∧
    (∀ other ∈ before, ∀ t, ¬Lost a repository other t) ∧ Lost a repository id text ∧ e = .unresolvedReference r.owner text

section

variable (hc : a.Closed) (hf : a.FiniteChains) (hr : a.HasRepository repository) (hids : ∀ id ∈ r.includes, a.HasNode id)
include hc hf hr hids

/-- A registered include that waits for a name denotes a list or none. -/
theorem found_or_lost (hid : id ∈ r.includes) (hw : a.awaits Reference.isEntry id = true) :
    (∃ list, Found a repository id list) ∨ ∃ text, Lost a repository id text := by
  obtain ⟨reference, hp, hk⟩ := awaits_eq_true.1 hw
  rcases (hids id hid).inclusion_cases with ⟨-, hno⟩ | ⟨-, -, -, -, hno⟩ | ⟨text, declared, reference', hi, hp'⟩
  · cases hno.symm.trans hp
  · cases hno.symm.trans hp
  obtain rfl : reference = reference' := Option.some.inj (hp.symm.trans hp')
  cases reference with
  | entry name =>
    obtain ⟨found, hfound⟩ := entryTarget_ok (hf.finiteIn (.refl _)) hr (fun r hd => hc.hasRepository_declared hi hd) name
    cases found with
    | some list => exact .inl ⟨list, names_iff_found.1 ⟨text, declared, name, hi, hfound⟩⟩
    | none => exact .inr ⟨text, misses_iff_lost.1 ⟨declared, name, hi, hfound⟩⟩
  | _ => cases hk

variable (hb : Exhausts (fun id list => id ∈ r.includes ∧ Names a repository id list) a b)
include hb

/-- It makes no difference whether `$self` is resolved after the names or before them. -/
theorem resolveEntries_resolveSelf (hroot : a.HasList root) :
    ∃ k m c, (r.resolveSelf root).start b = .ok (.ok k, c) ∧ (r.resolveSelf root).start a = .ok (.ok k, m) ∧
      (r.resolveEntries repository).start m = .ok (r.entriesAnswer repository a, c) := by
  obtain ⟨c, hafter, hself⟩ := resolveSelf_exhausts (fun id hid => hb.resolvesBy.hasNode.2 (hids id hid)) root
  obtain ⟨m, hbefore, hm⟩ := resolveSelf_exhausts hids root
  have hres := hm.resolvesBy
  obtain ⟨c', hentries, hc', -⟩ := resolveEntries_exhausts (hres.closed hc fun _ _ h => h.2.2 ▸ hroot) (hres.finiteChains hf)
    (hres.hasRepository.2 hr) fun id hid => hres.hasNode.2 (hids id hid)
  have hcount : r.includes.dedup.countP (b.awaits Reference.isSelf) = r.includes.dedup.countP (a.awaits Reference.isSelf) := by
    refine List.countP_congr fun id _ => ?_
    rw [hb.resolvesBy.awaits_eq fun list hn => ?_]
    obtain ⟨name, hp⟩ := hn.2.pending?
    simp [awaits, hp, Reference.isSelf]
  have hanswer : r.entriesAnswer repository m = r.entriesAnswer repository a :=
    entriesAnswer_of_resolvesBy hres fun id list h => by simp [awaits, h.2.1, Reference.isEntry]
  have hsame : c = c' := (exhausts_entries_self hb hself).unique (exhausts_self_entries hm hc') fun _ _ _ h h' =>
    Grammar.Own.unique (g := ⟨r.owner, none, root, repository, r⟩) h h'
  exact ⟨_, m, c, hafter, hcount ▸ hbefore, hanswer ▸ hsame ▸ hentries⟩

variable (hiff : (∃ n, r.entriesAnswer repository a = .ok n) ↔ ∀ id ∈ r.includes, b.awaits Reference.isEntry id = false)
include hiff

/-- Resolving names does all this. -/
theorem resolvesNames : r.ResolvesNames repository a b (r.entriesAnswer repository a) := by
  obtain ⟨hres, hdone⟩ := hb
  constructor
  case decided => exact fun id hid => found_or_lost hc hf hr hids hid
  case resolved =>
    intro id hid list hfound node hn
    have hnames := names_iff_found.2 hfound
    exact hres.node_resolved (fun _ h => h.2.unique hnames) (hdone id list ⟨hid, hnames⟩) hn
  case kept =>
    intro id node hn hno
    exact hres.node_kept (fun list h => hno h.1 list (names_iff_found.1 h.2)) hn
  case lists => exact hres.lists
  case repositories => exact hres.repositories
  case size => exact hres.size
  case success => exact hiff
  case count => exact fun n hn => (entriesAnswer_eq_ok.1 hn).2.symm
  case error =>
    intro e
    simp only [entriesAnswer_eq_error, misses_iff_lost]

/-- A second call changes nothing. It answers that it resolved no include, or with the error of the first call. -/
theorem resolveEntries_again :
    (r.resolveEntries repository).start b = .ok ((r.entriesAnswer repository a).map fun _ => 0, b) := by
  have hres := hb.resolvesBy
  have hcb : b.Closed := hres.closed hc fun _ _ hn => hn.2.hasList hc hr
  obtain ⟨c, hagain, hc', -⟩ := resolveEntries_exhausts hcb (hres.finiteChains hf) (hres.hasRepository.2 hr)
    fun id hid => hres.hasNode.2 (hids id hid)
  -- what would be left to resolve has been resolved
  have hidle : Exhausts (fun id list => id ∈ r.includes ∧ Names b repository id list) b b :=
    ⟨.refl _ b, fun id list hn => hb.done id list ⟨hn.1, hn.2.of_resolvesBy hres⟩⟩
  obtain rfl : c = b := hc'.unique hidle fun _ _ _ h h' => h.2.unique h'.2
  have hunnamed : r.unnamed repository c = r.unnamed repository a :=
    unnamed_of_resolvesBy hres fun _ _ _ hn => hn.2.not_misses
  rw [hagain]
  congr 2
  unfold entriesAnswer at hiff ⊢
  rw [hunnamed]
  cases hm : r.unnamed repository a with
  | nil =>
    simp only [countP_dedup_awaits (hiff.1 ⟨_, by rw [hm]⟩), Except.map]
  | cons first rest => rfl

end

end Registry

end GrammarLinker
