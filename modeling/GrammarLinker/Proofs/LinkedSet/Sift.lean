import GrammarLinker.LinkedSet
import GrammarLinker.Proofs.Grammar.Build
import GrammarLinker.Proofs.InterGrammar.OneShot
import GrammarLinker.Proofs.Registry.Local

/-!
# Sifting what is linked

Three of the four steps of linking examine items one after the other, and drop those that fail or stop at the first one. Each answers
in every arena that earlier linking leaves behind: files are built one after the other, so that every grammar has a part of the arena
to itself (`Linker.Spans`); a scope name is kept once; and local resolution lets includes stand for lists of their own grammar.
-/

namespace GrammarLinker.Linker

open Arena

/-! ## Examining one item after the other -/

section

variable {ι κ : Type} {policy : FailurePolicy} {scope : ι → String} {examine : ι → LinkM Arena κ} {item : ι} {rest : List ι}
  {a m b : Arena} {answer : Except LinkError (List κ × List DroppedGrammar)}

/-- An item that passes is kept before those that follow it. -/
theorem sift_cons_ok {value : κ} (h : (examine item).start a = .ok (.ok value, m))
    (hr : (sift policy scope examine rest).start m = .ok (answer, b)) :
    (sift policy scope examine (item :: rest)).start a = .ok (answer.map fun p => (value :: p.1, p.2), b) := by
  unfold sift
  rw [LinkM.start_bind, LinkM.start_attempt, h]
  simp only [LinkM.start_bind, hr]
  cases answer <;> rfl

/-- Under `abort` the first item that fails is the end. -/
theorem sift_cons_abort {e : LinkError} (h : (examine item).start a = .ok (.error e, m)) :
    (sift .abort scope examine (item :: rest)).start a = .ok (.error e, m) := by
  unfold sift
  rw [LinkM.start_bind, LinkM.start_attempt, h]
  rfl

/-- Under `dropGrammar` an item that fails is dropped, and the others are examined. -/
theorem sift_cons_drop {e : LinkError} (h : (examine item).start a = .ok (.error e, m))
    (hr : (sift .dropGrammar scope examine rest).start m = .ok (answer, b)) :
    (sift .dropGrammar scope examine (item :: rest)).start a =
      .ok (answer.map fun p => (p.1, ⟨scope item, e⟩ :: p.2), b) := by
  unfold sift
  rw [LinkM.start_bind, LinkM.start_attempt, h]
  simp only [LinkM.start_bind, hr]
  cases answer <;> rfl

/-- An item is examined, and then the rest if the policy does not say otherwise. What is kept is what is kept of the rest, and the item
if it has passed. -/
theorem sift_cons_cases {found : Except LinkError κ} (h : (examine item).start a = .ok (found, m))
    (hr : (sift policy scope examine rest).start m = .ok (answer, b)) :
    ∃ answer' b', (sift policy scope examine (item :: rest)).start a = .ok (answer', b') ∧ (b' = b ∨ b' = m) ∧
      ∀ kept dropped, answer' = .ok (kept, dropped) → b' = b ∧ ∃ kept' dropped', answer = .ok (kept', dropped') ∧
        ((∃ value, found = .ok value ∧ kept = value :: kept') ∨
          ∃ e, found = .error e ∧ policy = .dropGrammar ∧ kept = kept') := by
  cases found with
  | ok value =>
    refine ⟨_, b, sift_cons_ok h hr, .inl rfl, fun kept dropped hkept => ⟨rfl, ?_⟩⟩
    cases answer with
    | error e => cases hkept
    | ok p =>
      cases hkept
      exact ⟨p.1, p.2, rfl, .inl ⟨value, rfl, rfl⟩⟩
  | error e =>
    cases policy with
    | abort => exact ⟨_, m, sift_cons_abort h, .inr rfl, nofun⟩
    | dropGrammar =>
      refine ⟨_, b, sift_cons_drop h hr, .inl rfl, fun kept dropped hkept => ⟨rfl, ?_⟩⟩
      cases answer with
      | error e' => cases hkept
      | ok p =>
        cases hkept
        exact ⟨p.1, p.2, rfl, .inr ⟨e, rfl, rfl, rfl⟩⟩

/-- Where an examination of several items has an outcome, the first item has one, and so have the others if they were examined too. -/
theorem sift_cons_eq_ok (h : (sift policy scope examine (item :: rest)).start a = .ok (answer, b)) :
    ∃ found m, (examine item).start a = .ok (found, m) ∧ ((b = m ∧ ∃ e, answer = .error e) ∨
      ∃ answer', (sift policy scope examine rest).start m = .ok (answer', b) ∧ ∀ kept dropped, answer = .ok (kept, dropped) →
        ∃ kept' dropped', answer' = .ok (kept', dropped') ∧ ∀ value ∈ kept, found = .ok value ∨ value ∈ kept') := by
  unfold sift at h
  obtain ⟨found, m, hfound, h⟩ := LinkM.start_attempt_bind_eq_ok h
  refine ⟨found, m, hfound, ?_⟩
  cases found with
  | ok value =>
    rcases LinkM.start_bind_eq_ok h with ⟨e, hrest, rfl⟩ | ⟨p, n, hrest, h⟩
    · exact .inr ⟨.error e, hrest, nofun⟩
    · cases h
      refine .inr ⟨.ok p, hrest, fun kept dropped hkept => ?_⟩
      cases hkept
      exact ⟨p.1, p.2, rfl, List.forall_mem_cons.2 ⟨.inl rfl, fun _ => .inr⟩⟩
  | error e =>
    cases policy with
    | abort =>
      cases h
      exact .inl ⟨rfl, e, rfl⟩
    | dropGrammar =>
      rcases LinkM.start_bind_eq_ok h with ⟨e', hrest, rfl⟩ | ⟨p, n, hrest, h⟩
      · exact .inr ⟨.error e', hrest, nofun⟩
      · cases h
        refine .inr ⟨.ok p, hrest, fun kept dropped hkept => ?_⟩
        cases hkept
        exact ⟨p.1, p.2, rfl, fun _ => .inr⟩

end

/-! ## Building files -/

/-- A grammar, with the arena in which its build started and the one in which it ended. -/
structure Span where
  grammar : Grammar
  before : Arena
  after : Arena

/-- Files are built one after the other. The spans are those of the files that can be built; under `abort` that is all of them. -/
inductive Spans (policy : FailurePolicy) : List GrammarFile → Arena → List Span → Arena → Prop where
  | done (a : Arena) : Spans policy [] a [] a
  | built {file : GrammarFile} {rest : List GrammarFile} {g : Grammar} {a m b : Arena} {spans : List Span}
      (h : (Grammar.build file).start a = .ok (.ok g, m)) (hr : Spans policy rest m spans b) :
      Spans policy (file :: rest) a (⟨g, a, m⟩ :: spans) b
  | failed {file : GrammarFile} {rest : List GrammarFile} {e : LinkError} {a m b : Arena} {spans : List Span}
      (hp : policy = .dropGrammar) (h : (Grammar.build file).start a = .ok (.error e, m)) (hr : Spans policy rest m spans b) :
      Spans policy (file :: rest) a spans b

/-- Building files answers and leaves alone what was there. -/
theorem sift_build_ok (policy : FailurePolicy) (files : List GrammarFile) (a : Arena) :
    ∃ answer b, (sift policy GrammarFile.scopeName Grammar.build files).start a = .ok (answer, b) ∧ a.Extends b ∧
      (a.Closed → b.Closed) ∧ (a.Nested → b.Nested) ∧ (a.KeyedIn a.region → b.KeyedIn b.region) ∧
      ∀ kept dropped, answer = .ok (kept, dropped) → ∃ spans, Spans policy files a spans b ∧ kept = spans.map Span.grammar := by
  induction files generalizing a with
  | nil =>
    refine ⟨.ok ([], []), a, rfl, .refl a, fun h => h, fun h => h, fun h => h, fun kept dropped h => ⟨[], .done a, ?_⟩⟩
    cases h
    rfl
  | cons file rest ih =>
    obtain ⟨built, m, hrun, hx, hc, hn, -, -, hk⟩ := Grammar.build_ok file a
    obtain ⟨answer, b, hrest, hx', hc', hn', hk', hspans⟩ := ih m
    obtain ⟨answer', b', hsift, hend, hkept⟩ := sift_cons_cases hrun hrest
    have hb : a.Extends b' ∧ (a.Closed → b'.Closed) ∧ (a.Nested → b'.Nested) ∧ (a.KeyedIn a.region → b'.KeyedIn b'.region) := by
      rcases hend with rfl | rfl
      · exact ⟨hx.trans hx', fun h => hc' (hc h), fun h => hn' (hn h), fun h => hk' (hk h)⟩
      · exact ⟨hx, hc, hn, hk⟩
    refine ⟨answer', b', hsift, hb.1, hb.2.1, hb.2.2.1, hb.2.2.2, fun kept dropped h => ?_⟩
    obtain ⟨rfl, kept', dropped', hrest', hcases⟩ := hkept kept dropped h
    obtain ⟨spans, hs, rfl⟩ := hspans kept' dropped' hrest'
    rcases hcases with ⟨g, rfl, rfl⟩ | ⟨e, rfl, hpolicy, rfl⟩
    · exact ⟨⟨g, a, m⟩ :: spans, .built hrun hs, rfl⟩
    · exact ⟨spans, .failed hpolicy hrun hs, rfl⟩

section

variable {policy : FailurePolicy} {files : List GrammarFile} {a b : Arena} {spans : List Span}

/-- A build that succeeds extends the arena by what the file says. -/
theorem built_of_start {file : GrammarFile} {g : Grammar} {m : Arena} (h : (Grammar.build file).start a = .ok (.ok g, m)) :
    a.Extends m ∧ g.BuiltFrom file a m := by
  obtain ⟨hx, -, -, hg, -⟩ := LinkM.outcome (Grammar.build_ok file a) h
  exact ⟨hx, hg g rfl⟩

/-- Building files one after the other extends the arena. -/
theorem Spans.extends (h : Spans policy files a spans b) : a.Extends b := by
  induction h with
  | done a => exact .refl a
  | built h _ ih => exact (built_of_start h).1.trans ih
  | @failed file rest e a m b spans _ h _ ih =>
    obtain ⟨hx, -⟩ := LinkM.outcome (Grammar.build_ok file a) h
    exact hx.trans ih

/-- What a span says of its grammar. -/
structure Span.Sound (s : Span) (file : GrammarFile) (a b : Arena) : Prop where
  built : s.grammar.BuiltFrom file s.before s.after
  before : a.Extends s.before
  span : s.before.Extends s.after
  after : s.after.Extends b

/-- Every span is that of a file, and sound. -/
theorem Spans.sound (h : Spans policy files a spans b) : ∀ s ∈ spans, ∃ file ∈ files, s.Sound file a b := by
  induction h with
  | done a => exact fun s hs => absurd hs List.not_mem_nil
  | @built file rest g a m b spans h hr ih =>
    intro s hs
    obtain ⟨hx, hg⟩ := built_of_start h
    rcases List.mem_cons.1 hs with rfl | hs
    · exact ⟨file, List.mem_cons_self, hg, .refl a, hx, hr.extends⟩
    · obtain ⟨f, hf, hs⟩ := ih s hs
      exact ⟨f, List.mem_cons_of_mem _ hf, hs.built, hx.trans hs.before, hs.span, hs.after⟩
  | @failed file rest e a m b spans hp h hr ih =>
    intro s hs
    obtain ⟨hx, -⟩ := LinkM.outcome (Grammar.build_ok file a) h
    obtain ⟨f, hf, hs⟩ := ih s hs
    exact ⟨f, List.mem_cons_of_mem _ hf, hs.built, hx.trans hs.before, hs.span, hs.after⟩

/-- One span ends before the next one starts. -/
theorem Spans.pairwise (h : Spans policy files a spans b) : spans.Pairwise fun s t => s.after.Extends t.before := by
  induction h with
  | done a => exact .nil
  | @built file rest g a m b spans h hr ih =>
    refine List.pairwise_cons.2 ⟨?_, ih⟩
    intro s hs
    obtain ⟨f, -, hs⟩ := hr.sound s hs
    exact hs.before
  | failed _ _ _ ih => exact ih

/-- The includes of a grammar were added during its span. -/
theorem Span.Sound.includes {s : Span} {file : GrammarFile} (h : s.Sound file a b) :
    ∀ id ∈ s.grammar.registry.includes, ¬s.before.HasNode id ∧ s.after.HasNode id :=
  fun id hid => (h.built.sound.registered id hid).1

/-- The grammars that were built are in the arena, and share no registered include. -/
theorem Spans.ready (h : Spans policy files a spans b) (hc : b.Closed) (hn : b.Nested) :
    InterGrammar.Ready (spans.map Span.grammar) b := by
  refine ⟨hc, hn.finiteChains hc, ?_, ?_⟩
  · intro g hg
    obtain ⟨s, hs, rfl⟩ := List.mem_map.1 hg
    obtain ⟨file, -, hs⟩ := h.sound s hs
    exact hs.built.heldBy.of_within hs.after.within
  · refine List.pairwise_map.2 (h.pairwise.imp_of_mem ?_)
    intro s t hs ht hx id hi hj
    obtain ⟨_, -, hs⟩ := h.sound _ hs
    obtain ⟨_, -, ht⟩ := h.sound _ ht
    exact (ht.includes id hj).1 (hx.hasNode (hs.includes id hi).2)

/-- The includes of grammars that were built wait for what their texts say. -/
theorem Spans.asWritten (h : Spans policy files a spans b) : ∀ g ∈ spans.map Span.grammar, g.AsWritten b := by
  intro g hg id hid
  obtain ⟨s, hs, rfl⟩ := List.mem_map.1 hg
  obtain ⟨file, -, hsound⟩ := h.sound s hs
  obtain ⟨-, ⟨name, rule, parent, body⟩, hn, text, declared, reference, rfl, hparse⟩ := hsound.built.sound.registered id hid
  exact ⟨text, declared, reference, inclusion_of_node (hsound.after.node id _ hn), hparse⟩

/-- The grammars that are built register no include twice. -/
theorem Spans.nodup (h : Spans policy files a spans b) : ∀ s ∈ spans, s.grammar.registry.includes.Nodup := by
  intro s hs
  obtain ⟨file, -, hs⟩ := h.sound s hs
  exact hs.built.sound.nodup

/-- Under `abort` every file is built. -/
theorem Spans.forall₂ (h : Spans .abort files a spans b) :
    List.Forall₂ (fun file s => s.Sound file a b) files spans := by
  induction h with
  | done a => exact .nil
  | built h hr ih =>
    obtain ⟨hx, hg⟩ := built_of_start h
    exact .cons ⟨hg, .refl _, hx, hr.extends⟩ (ih.imp fun _ _ hs => ⟨hs.built, hx.trans hs.before, hs.span, hs.after⟩)
  | failed hp => cases hp

end

/-! ## Scope names -/

/-- A grammar passes when its scope name is not among the earlier ones. -/
theorem checkScope_ok (g : Grammar) (earlier : List String) (a : Arena) :
    ∃ found, (checkScope (g, earlier)).start a = .ok (found, a) ∧
      ∀ value, found = .ok value → value = g ∧ g.scopeName ∉ earlier := by
  by_cases hmem : g.scopeName ∈ earlier
  · refine ⟨.error (.duplicateScope g.scopeName), ?_, nofun⟩
    unfold checkScope
    rw [if_pos hmem]
    rfl
  · refine ⟨.ok g, ?_, fun value h => ⟨(Except.ok.inj h).symm, hmem⟩⟩
    unfold checkScope
    rw [if_neg hmem]
    rfl

/-- Scope names are checked without a change of the arena; a grammar is kept when no earlier one has its scope name. -/
theorem sift_checkScope_ok (policy : FailurePolicy) (gs : List Grammar) (earlier : List String) (a : Arena) :
    ∃ answer, (sift policy (·.1.scopeName) checkScope (withEarlier earlier gs)).start a = .ok (answer, a) ∧
      ∀ kept dropped, answer = .ok (kept, dropped) → kept.Sublist gs ∧ (kept.map Grammar.scopeName).Nodup ∧
        (∀ g ∈ kept, g.scopeName ∉ earlier) ∧ (policy = .abort → kept = gs) := by
  induction gs generalizing earlier with
  | nil =>
    refine ⟨.ok ([], []), rfl, ?_⟩
    intro kept dropped h
    cases h
    exact ⟨.slnil, List.nodup_nil, nofun, fun _ => rfl⟩
  | cons g rest ih =>
    obtain ⟨answer, hrest, hspec⟩ := ih (g.scopeName :: earlier)
    obtain ⟨found, hrun, hfound⟩ := checkScope_ok g earlier a
    obtain ⟨answer', b', hsift, hend, hkept⟩ := sift_cons_cases hrun hrest
    obtain rfl : b' = a := hend.elim id id
    refine ⟨answer', hsift, fun kept dropped h => ?_⟩
    obtain ⟨-, kept', dropped', hrest', hcases⟩ := hkept kept dropped h
    obtain ⟨hsub, hnd, hno, hall⟩ := hspec kept' dropped' hrest'
    have hlater : ∀ k ∈ kept', k.scopeName ∉ earlier := fun k hk hmem => hno k hk (List.mem_cons_of_mem _ hmem)
    rcases hcases with ⟨value, hvalue, rfl⟩ | ⟨e, -, hpolicy, rfl⟩
    · obtain ⟨rfl, hnew⟩ := hfound value hvalue
      refine ⟨hsub.cons_cons value, List.nodup_cons.2 ⟨?_, hnd⟩, List.forall_mem_cons.2 ⟨hnew, hlater⟩,
        fun hp => congrArg (value :: ·) (hall hp)⟩
      intro hg
      obtain ⟨k, hk, hscope⟩ := List.mem_map.1 hg
      exact hno k hk (hscope ▸ List.mem_cons_self)
    · exact ⟨hsub.cons g, hnd, hlater, fun hp => absurd (hp.symm.trans hpolicy) nofun⟩

/-! ## Local references -/

variable {a m b : Arena} {gs : List Grammar}

/-- A pending include refers to a list of its own grammar, one of these. -/
def OwnOf (gs : List Grammar) (a : Arena) (id : NodeId) (list : ListId) : Prop := ∃ g ∈ gs, g.Own a id list

/-- What an include refers to in its own grammar is there. -/
theorem OwnOf.hasList (hready : InterGrammar.Ready gs a) {id : NodeId} {list : ListId} (h : OwnOf gs a id list) :
    a.HasList list := by
  obtain ⟨g, hg, ho⟩ := h
  exact ho.hasList hready.closed (hready.held g hg)

/-- The registered includes of a grammar that still wait are for other grammars. -/
def Localized (g : Grammar) (a : Arena) : Prop :=
  ∀ id ∈ g.registry.includes, ∀ reference, a.pending? id = some reference → reference.isCrossGrammar = true

/-- A grammar whose own references are resolved stays so. -/
theorem Localized.of_resolvesBy {g : Grammar} {P : NodeId → ListId → Prop} (h : Localized g a) (hr : ResolvesBy P a b) :
    Localized g b :=
  fun id hid reference hp => h id hid reference (hr.node_of_pending hp).2

/-- What is referred to after resolution was referred to before. -/
theorem own_of_resolvesBy {g : Grammar} {P : NodeId → ListId → Prop} (hr : ResolvesBy P a b) {id : NodeId} {list : ListId}
    (h : g.Own b id list) : g.Own a id list := by
  refine ⟨h.1, h.2.imp ?_ fun hs => ⟨(hr.node_of_pending hs.1).2, hs.2⟩⟩
  rintro ⟨text, declared, name, hi, ht⟩
  have hia := (hr.inclusion_of_pending (pending?_of_inclusion hi)).symm.trans hi
  exact ⟨text, declared, name, hia, (Registry.entryTarget_congr hr.repositories _ _ _).symm.trans ht⟩

/-- Local resolution of grammars answers. What it resolves it resolves to lists of the own grammar, and in a grammar that is kept the
includes that still wait are for other grammars. -/
theorem sift_localized_ok (policy : FailurePolicy) (gs : List Grammar) (hc : a.Closed) (hf : a.FiniteChains)
    (hgs : ∀ g ∈ gs, g.HeldBy a) :
    ∃ answer b, (sift policy Grammar.scopeName localized gs).start a = .ok (answer, b) ∧ ResolvesBy (OwnOf gs a) a b ∧
      ∀ kept dropped, answer = .ok (kept, dropped) → kept.Sublist gs ∧ (∀ g ∈ kept, Localized g b) ∧
        (policy = .abort → kept = gs) := by
  induction gs generalizing a with
  | nil =>
    refine ⟨.ok ([], []), a, rfl, .refl _ a, ?_⟩
    intro kept dropped h
    cases h
    exact ⟨.slnil, nofun, fun _ => rfl⟩
  | cons g rest ih =>
    obtain ⟨own, m, hown, hm, -, hlocal⟩ :=
      g.resolveLocal_ok hc (hf.finiteIn (.refl _)) (.refl _) (hgs g List.mem_cons_self).liesIn
    have hmc : m.Closed := hm.closed hc fun _ _ h => h.hasList hc (hgs g List.mem_cons_self)
    obtain ⟨answer, b, hrest, hb, hspec⟩ := ih hmc (hm.finiteChains hf)
      fun h hh => (hgs h (List.mem_cons_of_mem _ hh)).of_resolvesBy hm
    have hrm : ResolvesBy (OwnOf (g :: rest) a) a m := hm.mono fun id list h => ⟨g, List.mem_cons_self, h⟩
    have hr : ResolvesBy (OwnOf (g :: rest) a) a b :=
      hrm.trans (hb.mono fun id list ⟨h, hh, ho⟩ => ⟨h, List.mem_cons_of_mem _ hh, own_of_resolvesBy hm ho⟩)
    have hrun : (localized g).start a = .ok (own.map fun _ => g, m) := by
      unfold localized
      rw [LinkM.start_bind, hown]
      cases own <;> rfl
    obtain ⟨answer', b', hsift, hend, hkept⟩ := sift_cons_cases hrun hrest
    refine ⟨answer', b', hsift, hend.elim (fun h => h ▸ hr) fun h => h ▸ hrm, fun kept dropped h => ?_⟩
    obtain ⟨rfl, kept', dropped', hrest', hcases⟩ := hkept kept dropped h
    obtain ⟨hsub, hloc, hall⟩ := hspec kept' dropped' hrest'
    rcases hcases with ⟨value, hvalue, rfl⟩ | ⟨e, -, hpolicy, rfl⟩
    · cases own with
      | error e => cases hvalue
      | ok u =>
        cases hvalue
        have hgm : Localized g m := hlocal.1 ⟨u, rfl⟩
        exact ⟨hsub.cons_cons g, List.forall_mem_cons.2 ⟨hgm.of_resolvesBy hb, hloc⟩, fun hp => congrArg (g :: ·) (hall hp)⟩
    · exact ⟨hsub.cons g, hloc, fun hp => absurd (hp.symm.trans hpolicy) nofun⟩

/-- Some grammars have not been touched since they were built in an arena. -/
structure Untouched (m : Arena) (rest : List Grammar) (a : Arena) : Prop where
  ready : InterGrammar.Ready rest a
  repositories : a.repositories = m.repositories
  inclusion : ∀ g ∈ rest, ∀ id ∈ g.registry.includes, a.inclusion id = m.inclusion id

/-- When one grammar resolves its own references, the others stay untouched. -/
theorem Untouched.localized {g : Grammar} {rest : List Grammar} (h : Untouched m (g :: rest) a) :
    ∃ b, (localized g).start a = .ok ((g.localAnswer m).map fun _ => g, b) ∧ Untouched m rest b := by
  have hc := h.ready.closed
  have hf := h.ready.chains.finiteIn (.refl _)
  have hg := (h.ready.held g List.mem_cons_self).liesIn
  obtain ⟨b, hrun⟩ := g.resolveLocal_answer hc hf (.refl _) hg
  obtain ⟨hb, -⟩ := LinkM.outcome (g.resolveLocal_ok hc hf (.refl _) hg) hrun
  have hsame : g.localAnswer a = g.localAnswer m := by
    simp only [Grammar.localAnswer, Registry.unnamed_congr (h.inclusion g List.mem_cons_self) h.repositories]
  refine ⟨b, ?_, ?_, hb.repositories.trans h.repositories, fun k hk id hid => ?_⟩
  · unfold Linker.localized
    rw [LinkM.start_bind, hrun, hsame]
    cases g.localAnswer m <;> rfl
  · exact (h.ready.of_resolvesBy (fun _ _ ho => ho.hasList hc (h.ready.held g List.mem_cons_self)) hb).sublist
      (List.sublist_cons_self g rest)
  · have hno : ∀ target, ¬g.Own a id target := fun _ ho => (List.pairwise_cons.1 h.ready.disjoint).1 k hk ho.1 hid
    exact (hb.inclusion_kept hno ((h.ready.held k (List.mem_cons_of_mem _ hk)).includes id hid)).trans
      (h.inclusion k (List.mem_cons_of_mem _ hk) id hid)

end GrammarLinker.Linker
