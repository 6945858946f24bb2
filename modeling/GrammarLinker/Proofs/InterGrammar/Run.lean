import GrammarLinker.Proofs.InterGrammar.Designation

/-!
# Runs of the resolution between grammars

A verdict on an include is lawful in every state that a run reaches (`InterGrammar.lawful_verdict`), so every pass answers. The passes
of a run are its course (`InterGrammar.Course`), which has no bound. There is one from every state in which the set can be read
(`InterGrammar.Answerable.exists_course`), because a pass that is not the last resolves an include, and the run has enough passes for it.
In the end either no registered include waits for another grammar any more, or a last pass resolved nothing and reports what is left
(`InterGrammar.resolve_ends`).

An include is only ever attached where it belongs (`InterGrammar.Earns`): to the list that it denotes, and, unless that is the own
root of its grammar, only if the list is grounded when every include is resolved to what it denotes.
-/

namespace GrammarLinker

open Arena

namespace InterGrammar

variable {gs : List Grammar} {base : Option String} {a b : Arena} {site : Grammar × NodeId} {id : NodeId} {list : ListId}

/-- The arena in which every registered include is resolved at once to the list that it denotes, grounded or not. -/
def oneShot (gs : List Grammar) (base : Option String) (a : Arena) : Arena := a.resolveAll (designated? gs base a)

/-- A pending `$base` of a set without a base grammar. -/
def OwnRootAt (base : Option String) (a : Arena) (id : NodeId) : Prop :=
  ∃ reference, a.pending? id = some reference ∧ isOwnRoot base reference = true

/-- An include denotes a list that it may be resolved to. -/
def Earns (gs : List Grammar) (base : Option String) (a : Arena) (id : NodeId) (list : ListId) : Prop :=
  Designates gs base a id list ∧ (OwnRootAt base a id ∨ (oneShot gs base a).Grounded list)

/-! ## Verdicts -/

/-- A node is an include with a text as it was written. -/
def Reads (a : Arena) (id : NodeId) (text : String) : Prop :=
  ∃ declared state, a.inclusion id = .ok (some ⟨text, declared, state⟩)

/-- What a verdict says of the state in which it was given. -/
inductive Judged (gs : List Grammar) (base : Option String) (a : Arena) (site : Grammar × NodeId) : Verdict → Prop where
  | skipped (hw : a.awaits Reference.isCrossGrammar site.2 = false) : Judged gs base a site .skipped
  | attached {list : ListId} (hw : a.awaits Reference.isCrossGrammar site.2 = true)
      (hd : designation gs base a site = some list) (hg : OwnRootAt base a site.2 ∨ a.Grounded list) :
      Judged gs base a site (.attached list)
  | waiting {list : ListId} {text : String} (hw : a.awaits Reference.isCrossGrammar site.2 = true)
      (hd : designation gs base a site = some list) (ho : ¬OwnRootAt base a site.2) (hg : ¬a.Grounded list)
      (ht : Reads a site.2 text) : Judged gs base a site (.waiting text)
  | missing {text : String} (hw : a.awaits Reference.isCrossGrammar site.2 = true)
      (hd : designation gs base a site = none) (ht : Reads a site.2 text) : Judged gs base a site (.missing text)

/-- An include is skipped exactly when it does not wait for another grammar. -/
theorem Judged.skipped_iff {v : Verdict} (h : Judged gs base a site v) :
    v = .skipped ↔ a.awaits Reference.isCrossGrammar site.2 = false := by
  cases h with
  | skipped hw => simp [hw]
  | attached hw => simp [hw]
  | waiting hw => simp [hw]
  | missing hw => simp [hw]

/-- In a closed arena with finite chains there is a verdict on every registered include. -/
theorem verdict_ok (hc : a.Closed) (hf : a.FiniteChains) (hgs : ∀ g ∈ gs, g.HeldBy a) (base : Option String)
    (hsite : site ∈ sites gs) : ∃ v, verdict gs base a site = .ok v ∧ Judged gs base a site v := by
  obtain ⟨hg, hid⟩ := mem_sites.1 hsite
  unfold verdict
  rcases ((hgs site.1 hg).includes site.2 hid).inclusion_cases with ⟨hi, hpend⟩ | ⟨text, declared, t, hi, hpend⟩ |
    ⟨text, declared, reference, hi, hpend⟩
  · exact ⟨.skipped, by rw [hi]; rfl, .skipped (by simp [awaits, hpend])⟩
  · exact ⟨.skipped, by rw [hi]; rfl, .skipped (by simp [awaits, hpend])⟩
  · simp only [hi, bind, Except.bind]
    cases hk : reference.kind.isCrossGrammar with
    | false => exact ⟨.skipped, rfl, .skipped (by simp [awaits, hpend, Reference.isCrossGrammar, hk])⟩
    | true =>
      have hw : a.awaits Reference.isCrossGrammar site.2 = true := by
        simp [awaits, hpend, Reference.isCrossGrammar, hk]
      have hown : OwnRootAt base a site.2 ↔ isOwnRoot base reference = true := by
        simp [OwnRootAt, hpend]
      obtain ⟨found, hfound, hhas⟩ := target_ok hc hf hgs hg base reference
      have hd : designation gs base a site = found := by simp [designation, hpend, hk, hfound]
      simp only [Bool.not_true, Bool.false_eq_true, if_false, hfound]
      cases found with
      | none => exact ⟨.missing text, rfl, .missing hw hd ⟨declared, _, hi⟩⟩
      | some list =>
        cases ho : isOwnRoot base reference with
        | true => exact ⟨.attached list, rfl, .attached hw hd (.inl (hown.2 ho))⟩
        | false =>
          have hno : ¬OwnRootAt base a site.2 := by rw [hown, ho]; exact Bool.false_ne_true
          obtain ⟨answer, hans, hiff⟩ := hc.isGrounded_ok (hhas list rfl)
          simp only [Bool.false_eq_true, if_false, hans]
          cases answer with
          | true => exact ⟨.attached list, rfl, .attached hw hd (.inr (hiff.1 rfl))⟩
          | false =>
            exact ⟨.waiting text, rfl, .waiting hw hd hno (fun h => Bool.false_ne_true (hiff.2 h)) ⟨declared, _, hi⟩⟩

/-! ## States of a run -/

/-- The states in which a set can be read: the ids that are stored are in range, lookups come to an end, and the grammars are in the
arena. -/
structure Answerable (gs : List Grammar) (a : Arena) : Prop where
  closed : a.Closed
  chains : a.FiniteChains
  held : ∀ g ∈ gs, g.HeldBy a

/-- The states in which a set can be resolved: the ids that are stored are in range, lookups come to an end, and the grammars are
in the arena and share no registered include. -/
structure Ready (gs : List Grammar) (a : Arena) : Prop where
  closed : a.Closed
  chains : a.FiniteChains
  held : ∀ g ∈ gs, g.HeldBy a
  disjoint : DisjointRegistries gs

/-- A set that can be resolved can be read. -/
theorem Ready.answerable (h : Ready gs a) : Answerable gs a := ⟨h.closed, h.chains, h.held⟩

/-- Some grammars of a set that can be resolved can be resolved. -/
theorem Ready.sublist {hs : List Grammar} (h : Ready gs a) (hsub : hs.Sublist gs) : Ready hs a :=
  ⟨h.closed, h.chains, fun g hg => h.held g (hsub.subset hg), h.disjoint.sublist hsub⟩

/-- The list that an include denotes is there. -/
theorem Answerable.hasList_of_designates (h : Answerable gs a) (hl : Designates gs base a id list) : a.HasList list := by
  obtain ⟨g, hg, -, reference, -, -, ht⟩ := hl
  obtain ⟨found, hfound, hhas⟩ := target_ok h.closed h.chains h.held hg base reference
  rw [ht, Except.ok.injEq] at hfound
  exact hhas list hfound.symm

/-- A list that an include denotes is there. -/
theorem Ready.hasList_of_designates (h : Ready gs a) (hl : Designates gs base a id list) : a.HasList list :=
  h.answerable.hasList_of_designates hl

/-- Resolution to what includes denote leaves a set that can be read. -/
theorem Answerable.of_resolvesBy (h : Answerable gs a) (hr : ResolvesBy (Designates gs base a) a b) : Answerable gs b :=
  ⟨hr.closed h.closed fun _ _ hl => h.hasList_of_designates hl, hr.finiteChains h.chains,
    fun g hg => (h.held g hg).of_resolvesBy hr⟩

/-- A set can be resolved after some includes were resolved to lists that are there. -/
theorem Ready.of_resolvesBy {P : NodeId → ListId → Prop} (h : Ready gs a) (hP : ∀ id list, P id list → a.HasList list)
    (hr : ResolvesBy P a b) : Ready gs b :=
  ⟨hr.closed h.closed hP, hr.finiteChains h.chains, fun g hg => (h.held g hg).of_resolvesBy hr, h.disjoint⟩

section

variable {P : NodeId → ListId → Prop} (hr : ResolvesBy P a b)
include hr

/-- An include that waits denotes what it denoted. -/
theorem designation_of_resolvesBy (hw : b.awaits Reference.isCrossGrammar site.2 = true) :
    designation gs base b site = designation gs base a site := by
  obtain ⟨reference, hb, -⟩ := awaits_eq_true.1 hw
  simp only [designation, hb, (hr.node_of_pending hb).2, target_congr hr.repositories]

/-- An include that waits refers to the own root of its grammar when it did so. -/
theorem ownRootAt_of_resolvesBy (hw : b.awaits Reference.isCrossGrammar id = true) :
    OwnRootAt base b id ↔ OwnRootAt base a id := by
  obtain ⟨reference, hb, -⟩ := awaits_eq_true.1 hw
  unfold OwnRootAt
  rw [hb, (hr.node_of_pending hb).2]

/-- What is denoted after resolution was denoted before. -/
theorem Designates.of_resolvesBy (hl : Designates gs base b id list) : Designates gs base a id list := by
  obtain ⟨g, hg, hid, reference, hb, hk, ht⟩ := hl
  exact ⟨g, hg, hid, reference, (hr.node_of_pending hb).2, hk, (target_congr hr.repositories g reference) ▸ ht⟩

end

/-- What a registered include is found to denote it denotes. -/
theorem designates_of_designation (hsite : site ∈ sites gs) (hd : designation gs base a site = some list) :
    Designates gs base a site.2 list := by
  obtain ⟨hg, hid⟩ := mem_sites.1 hsite
  exact ⟨site.1, hg, hid, designation_eq_some.1 hd⟩

/-- What is grounded on the way is grounded when every include is resolved at once. -/
theorem ResolvesBy.grounded_oneShot (hdis : DisjointRegistries gs) (hr : ResolvesBy (Earns gs base a) a b)
    (hg : b.Grounded list) : (oneShot gs base a).Grounded list :=
  (hr.resolvesBy_resolveAll fun _ _ h => (designated?_eq_some hdis).2 h.1).grounded hg

/-- The verdicts on the includes of a set are lawful. -/
abbrev Lawful (gs : List Grammar) (base : Option String) (P : NodeId → ListId → Prop) (a : Arena) : Prop :=
  Resolution.Lawful Prod.snd (verdict gs base) Reference.isCrossGrammar P (sites gs) a

/-- They are so where the set can be read: an include is attached only to the list that it denotes. -/
theorem Answerable.lawful (h : Answerable gs a) (base : Option String) : Lawful gs base (Designates gs base a) a := by
  intro site hsite b hr
  have hb := h.of_resolvesBy hr
  obtain ⟨v, hv, hj⟩ := verdict_ok hb.closed hb.chains hb.held base hsite
  refine ⟨v, hv, hj.skipped_iff, ?_⟩
  rintro target rfl
  cases hj with
  | attached hw hd => exact (designates_of_designation hsite hd).of_resolvesBy hr

/-- The verdicts are lawful in every state that a run reaches. -/
theorem lawful_verdict (h : Ready gs a) (base : Option String) : Lawful gs base (Earns gs base a) a := by
  intro site hsite b hr
  have hb : Ready gs b := h.of_resolvesBy (fun _ _ he => h.hasList_of_designates he.1) hr
  obtain ⟨v, hv, hj⟩ := verdict_ok hb.closed hb.chains hb.held base hsite
  refine ⟨v, hv, hj.skipped_iff, ?_⟩
  rintro target rfl
  cases hj with
  | attached hw hd hg =>
    rw [designation_of_resolvesBy hr hw] at hd
    refine ⟨designates_of_designation hsite hd, hg.imp (ownRootAt_of_resolvesBy hr hw).1 ?_⟩
    intro hg
    exact ResolvesBy.grounded_oneShot h.disjoint hr hg

/-! ## Courses -/

/-- The steps of a pass over a set. -/
abbrev Passes (gs : List Grammar) (base : Option String) (P : NodeId → ListId → Prop) :
    Arena → Tally → Arena → Prop :=
  Resolution.Passes Prod.snd (·.1.scopeName) (verdict gs base) Reference.isCrossGrammar P (sites gs)

/-- The number of includes of a set that wait for another grammar. -/
abbrev waiting (gs : List Grammar) (a : Arena) : Nat :=
  Resolution.waitingCount Prod.snd Reference.isCrossGrammar (sites gs) a

/-- The passes of a run: what each of them reports, how the last one ends the run, and in which state. -/
inductive Course (gs : List Grammar) (base : Option String) : Arena → List Tally → Except LinkError Unit → Arena → Prop where
  | settled {a b : Arena} {tally : Tally} (hp : pass gs base a = .ok (tally, b)) (hw : tally.waiting = [])
      (hm : tally.missing = []) : Course gs base a [tally] (.ok ()) b
  | stuck {a b : Arena} {tally : Tally} (hp : pass gs base a = .ok (tally, b))
      (hleft : tally.waiting ≠ [] ∨ tally.missing ≠ []) (h0 : tally.resolved = 0) :
      Course gs base a [tally] (.error (stuckError tally)) b
  | again {a m b : Arena} {tally : Tally} {tallies : List Tally} {outcome : Except LinkError Unit}
      (hp : pass gs base a = .ok (tally, m)) (hleft : tally.waiting ≠ [] ∨ tally.missing ≠ []) (hpos : 0 < tally.resolved)
      (h : Course gs base m tallies outcome b) : Course gs base a (tally :: tallies) outcome b

/-- The report of some passes. -/
def summary (tallies : List Tally) : Report :=
  { passes := tallies.length, resolved := tallies.foldr (fun tally n => tally.resolved + n) 0 }

/-- A run makes a pass, and then ends or makes the other passes. -/
theorem start_passes_succ {tally : Tally} (hp : pass gs base a = .ok (tally, b)) (fuel : Nat) (earlier : Report) :
    (passes gs base (fuel + 1) earlier).start a =
      if tally.waiting = [] ∧ tally.missing = [] then
        .ok (.ok { passes := earlier.passes + 1, resolved := earlier.resolved + tally.resolved }, b)
      else if tally.resolved = 0 then .ok (.error (stuckError tally), b)
      else (passes gs base fuel { passes := earlier.passes + 1, resolved := earlier.resolved + tally.resolved }).start b := by
  rw [passes, LinkM.start_bind, LinkM.start_ofChange_ok hp]
  simp only [Bool.and_eq_true, List.isEmpty_iff]
  split
  · rfl
  · split <;> rfl

section

variable {a₀ : Arena} {P : NodeId → ListId → Prop} {tally : Tally} {tallies : List Tally} {outcome : Except LinkError Unit}

/-- A run that may make as many passes makes those of its course, and reports them when it succeeds. -/
theorem Course.start_passes (hc : Course gs base a tallies outcome b) {fuel : Nat} (hfuel : tallies.length ≤ fuel)
    (earlier : Report) :
    (passes gs base fuel earlier).start a = .ok (outcome.map fun _ =>
      { passes := earlier.passes + (summary tallies).passes, resolved := earlier.resolved + (summary tallies).resolved }, b) := by
  induction hc generalizing fuel earlier with
  | settled hp hw hm =>
    obtain ⟨fuel, rfl⟩ := Nat.exists_eq_succ_of_ne_zero (Nat.ne_of_gt hfuel)
    rw [start_passes_succ hp, if_pos ⟨hw, hm⟩]
    simp [summary, Except.map]
  | stuck hp hleft h0 =>
    obtain ⟨fuel, rfl⟩ := Nat.exists_eq_succ_of_ne_zero (Nat.ne_of_gt hfuel)
    rw [start_passes_succ hp, if_neg (not_and_or.2 hleft), if_pos h0]
    rfl
  | @again a m b tally tallies outcome hp hleft hpos h ih =>
    obtain ⟨fuel, rfl⟩ := Nat.exists_eq_succ_of_ne_zero (Nat.ne_of_gt (Nat.lt_of_lt_of_le (Nat.succ_pos _) hfuel))
    rw [start_passes_succ hp, if_neg (not_and_or.2 hleft), if_neg (Nat.ne_of_gt hpos), ih (Nat.le_of_succ_le_succ hfuel)]
    simp only [summary, List.length_cons, List.foldr_cons, Nat.add_assoc, Nat.add_comm 1]

variable (hl : Lawful gs base P a₀) (ha : ResolvesBy P a₀ a)
include hl ha

/-- The steps of a pass over a set whose verdicts are lawful. -/
theorem passes_of_ok (hp : pass gs base a = .ok (tally, b)) : Passes gs base P a tally b := by
  obtain ⟨tally', b', hp', hsteps⟩ := hl.pass_ok (fun site => site.1.scopeName) ha
  obtain ⟨rfl, rfl⟩ := Prod.mk.inj (Except.ok.inj (hp'.symm.trans hp))
  exact hsteps

/-- The passes come to an end. -/
theorem exists_course : ∃ tallies outcome b, Course gs base a tallies outcome b := by
  -- with every pass that is not the last one fewer includes wait
  induction hn : waiting gs a using Nat.strongRecOn generalizing a with
  | ind n ih =>
    obtain ⟨tally, m, hp, hsteps⟩ := hl.pass_ok (fun site => site.1.scopeName) ha
    by_cases hdone : tally.waiting = [] ∧ tally.missing = []
    · exact ⟨_, _, m, .settled hp hdone.1 hdone.2⟩
    · rw [not_and_or] at hdone
      rcases Nat.eq_zero_or_pos tally.resolved with h0 | hpos
      · exact ⟨_, _, m, .stuck hp hdone h0⟩
      · have hle : tally.resolved + waiting gs m ≤ waiting gs a := hsteps.count_le
        obtain ⟨tallies, outcome, b, hcourse⟩ := ih (waiting gs m) (by omega) (ha.trans hsteps.resolvesBy) rfl
        exact ⟨_, outcome, b, .again hp hdone hpos hcourse⟩

variable (hc : Course gs base a tallies outcome b)
include hc

/-- A course resolves by the relation for which the verdict of its passes is lawful. -/
theorem Course.resolvesBy : ResolvesBy P a b := by
  induction hc with
  | settled hp => exact (passes_of_ok hl ha hp).resolvesBy
  | stuck hp => exact (passes_of_ok hl ha hp).resolvesBy
  | again hp _ _ _ ih =>
    have hr := (passes_of_ok hl ha hp).resolvesBy
    exact hr.trans (ih (ha.trans hr))

/-- A course has one pass more at most than there are includes that wait. -/
theorem Course.length_le : tallies.length ≤ waiting gs a + 1 := by
  induction hc with
  | settled => exact Nat.le_add_left _ _
  | stuck => exact Nat.le_add_left _ _
  | @again a m b tally tallies outcome hp hleft hpos hc ih =>
    have hsteps := passes_of_ok hl ha hp
    have hle : tally.resolved + waiting gs m ≤ waiting gs a := hsteps.count_le
    have hrest := ih (ha.trans hsteps.resolvesBy)
    rw [List.length_cons]
    omega

/-- Among ids that are counted once, the registered includes among them, a course leaves fewer waiting by as many as it resolves. -/
theorem Course.count_ids {ids : List NodeId} (hnd : ids.Nodup) (hsites : ∀ site ∈ sites gs, site.2 ∈ ids) :
    (summary tallies).resolved + ids.countP (b.awaits Reference.isCrossGrammar) =
      ids.countP (a.awaits Reference.isCrossGrammar) := by
  induction hc with
  | settled hp => simpa [summary] using (passes_of_ok hl ha hp).count_ids hnd hsites
  | stuck hp => simpa [summary] using (passes_of_ok hl ha hp).count_ids hnd hsites
  | again hp _ _ _ ih =>
    have hsteps := passes_of_ok hl ha hp
    have hfirst := hsteps.count_ids hnd hsites
    have hrest := ih (ha.trans hsteps.resolvesBy)
    simp only [summary, List.foldr_cons] at hrest ⊢
    omega

/-- The resolution of a set takes its course. -/
theorem Course.start_resolve : (resolve gs base).start a = .ok (outcome.map fun _ => summary tallies, b) := by
  have hlength : tallies.length ≤ (sites gs).length + 1 :=
    Nat.le_trans (hc.length_le hl ha) (Nat.succ_le_succ List.countP_le_length)
  have hrun := hc.start_passes hlength {}
  simp only [Nat.zero_add] at hrun
  exact hrun

omit hc

/-- After a course that succeeds nothing waits. -/
theorem Course.awaits_eq_false (hc : Course gs base a tallies (.ok ()) b) :
    ∀ site ∈ sites gs, b.awaits Reference.isCrossGrammar site.2 = false := by
  generalize hout : (Except.ok () : Except LinkError Unit) = outcome at hc
  induction hc with
  | settled hp hw hm => exact (passes_of_ok hl ha hp).settled hw hm
  | stuck => cases hout
  | again hp _ _ _ ih => exact ih (ha.trans (passes_of_ok hl ha hp).resolvesBy) hout

/-- A course that fails leaves a state in which a pass resolves nothing and reports what the error says. -/
theorem Course.pass_of_error {e : LinkError} (hc : Course gs base a tallies (.error e) b) :
    ∃ tally, pass gs base b = .ok (tally, b) ∧ (tally.waiting ≠ [] ∨ tally.missing ≠ []) ∧ tally.resolved = 0 ∧
      e = stuckError tally := by
  generalize hout : (Except.error e : Except LinkError Unit) = outcome at hc
  induction hc with
  | settled => cases hout
  | @stuck a b tally hp hleft h0 =>
    obtain ⟨rfl, -⟩ := (passes_of_ok hl ha hp).idle h0
    exact ⟨tally, hp, hleft, h0, Except.error.inj hout⟩
  | again hp _ _ _ ih => exact ih (ha.trans (passes_of_ok hl ha hp).resolvesBy) hout

end

/-! ## Runs -/

/-- How a run ends that was in a state and had a report. -/
inductive Ends (gs : List Grammar) (base : Option String) (P : NodeId → ListId → Prop) (a : Arena) (earlier : Report) :
    Except LinkError Report → Arena → Prop where
  | settled {report : Report} {b : Arena} (hr : ResolvesBy P a b)
      (hs : ∀ site ∈ sites gs, b.awaits Reference.isCrossGrammar site.2 = false)
      (hcount : ((sites gs).map Prod.snd).Nodup → report.resolved + waiting gs b = earlier.resolved + waiting gs a) :
      Ends gs base P a earlier (.ok report) b
  | stuck {tally : Tally} {b : Arena} (hr : ResolvesBy P a b) (hp : Passes gs base P b tally b) (h0 : tally.resolved = 0)
      (hleft : tally.waiting ≠ [] ∨ tally.missing ≠ []) : Ends gs base P a earlier (.error (stuckError tally)) b

/-- A course ends a run. -/
theorem Course.ends {P : NodeId → ListId → Prop} (hl : Lawful gs base P a) {tallies : List Tally} {outcome : Except LinkError Unit}
    (hc : Course gs base a tallies outcome b) : Ends gs base P a {} (outcome.map fun _ => summary tallies) b := by
  have hr := hc.resolvesBy hl (.refl _ a)
  cases outcome with
  | ok =>
    refine .settled hr (hc.awaits_eq_false hl (.refl _ a)) fun hnd => ?_
    have hcount := hc.count_ids hl (.refl _ a) hnd fun site hsite => List.mem_map_of_mem hsite
    rw [List.countP_map, List.countP_map] at hcount
    exact hcount.trans (Nat.zero_add _).symm
  | error e =>
    obtain ⟨tally, hp, hleft, h0, rfl⟩ := hc.pass_of_error hl (.refl _ a)
    exact .stuck hr (passes_of_ok hl hr hp) h0 hleft

/-- The resolution of a set comes to an end. -/
theorem resolve_ends (h : Ready gs a) (base : Option String) :
    ∃ answer b, (resolve gs base).start a = .ok (answer, b) ∧ Ends gs base (Earns gs base a) a {} answer b := by
  have hl := lawful_verdict h base
  obtain ⟨tallies, outcome, b, hc⟩ := exists_course hl (.refl _ a)
  exact ⟨_, b, hc.start_resolve hl (.refl _ a), hc.ends hl⟩

end InterGrammar

end GrammarLinker
