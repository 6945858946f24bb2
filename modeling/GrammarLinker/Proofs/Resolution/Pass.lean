import GrammarLinker.Proofs.Resolution.Change

/-!
# What a pass over includes does

A pass asks for a verdict on every include in turn. Three things are asked of the verdicts (`Resolution.Lawful`): there is always
one, the includes that are skipped are the ones that do not wait for what the pass is about, and an include is attached only to a
list that it may stand for. Then the pass has an answer, which `Resolution.Passes` describes step by step.

From the steps: the includes that wait become fewer by those that are resolved (`Passes.count_le`), a pass that resolves nothing
changes nothing and reports what its first state says (`Passes.idle`), and after a pass that reports nothing no include waits
(`Passes.settled`).

A pass after which no include waits, although it reported one, resolved two at least (`Passes.two_le`): the one that it reported was
passed over in a state that was not the one in which it was attached, and another include was attached between them.
-/

namespace GrammarLinker

namespace Arena

variable {a b : Arena} {kind : Reference → Bool}

/-- The node of an id is a pending include, and its reference is of a kind. -/
def awaits (kind : Reference → Bool) (a : Arena) (id : NodeId) : Bool := (a.pending? id).any kind

theorem awaits_eq_true {id : NodeId} :
    a.awaits kind id = true ↔ ∃ reference, a.pending? id = some reference ∧ kind reference = true := by
  simp only [awaits, Option.any_eq_true]

/-- An include that waits after resolution waited before. -/
theorem ResolvesBy.awaits {P : NodeId → ListId → Prop} (h : ResolvesBy P a b) {id : NodeId}
    (hb : b.awaits kind id = true) : a.awaits kind id = true := by
  obtain ⟨reference, hp, hk⟩ := awaits_eq_true.1 hb
  exact awaits_eq_true.2 ⟨reference, (h.node_of_pending hp).2, hk⟩

theorem ResolvesBy.awaits_eq_false {P : NodeId → ListId → Prop} (h : ResolvesBy P a b) {id : NodeId}
    (ha : a.awaits kind id = false) : b.awaits kind id = false := by
  cases hb : b.awaits kind id with
  | false => rfl
  | true => rw [h.awaits hb] at ha; cases ha

end Arena

open Arena

namespace Resolution

variable {ι : Type} {node : ι → NodeId} {scope : ι → String} {verdict : Arena → ι → Except Fault Verdict}
  {kind : Reference → Bool} {P : NodeId → ListId → Prop} {sites : List ι} {a a₀ b : Arena} {tally : Tally}

/-- What is asked of the verdicts on some includes, in every state that resolution reaches from a first one. -/
def Lawful (node : ι → NodeId) (verdict : Arena → ι → Except Fault Verdict) (kind : Reference → Bool)
    (P : NodeId → ListId → Prop) (sites : List ι) (a₀ : Arena) : Prop :=
  ∀ site ∈ sites, ∀ a, ResolvesBy P a₀ a → ∃ v, verdict a site = .ok v ∧
    (v = .skipped ↔ a.awaits kind (node site) = false) ∧ ∀ target, v = .attached target → P (node site) target

/-- The steps of a pass over includes, with what it reports and the state in which it ends. -/
inductive Passes (node : ι → NodeId) (scope : ι → String) (verdict : Arena → ι → Except Fault Verdict)
    (kind : Reference → Bool) (P : NodeId → ListId → Prop) : List ι → Arena → Tally → Arena → Prop where
  | done (a : Arena) : Passes node scope verdict kind P [] a {} a
  | skipped {site : ι} {rest : List ι} {a b : Arena} {tally : Tally} (hv : verdict a site = .ok .skipped)
      (hw : a.awaits kind (node site) = false) (h : Passes node scope verdict kind P rest a tally b) :
      Passes node scope verdict kind P (site :: rest) a tally b
  | attached {site : ι} {rest : List ι} {a m b : Arena} {tally : Tally} {target : ListId}
      (hv : verdict a site = .ok (.attached target)) (hw : a.awaits kind (node site) = true) (hm : ResolvesBy P a m)
      (hsite : m.awaits kind (node site) = false)
      (hothers : ∀ id, id ≠ node site → m.awaits kind id = a.awaits kind id)
      (h : Passes node scope verdict kind P rest m tally b) :
      Passes node scope verdict kind P (site :: rest) a { tally with resolved := tally.resolved + 1 } b
  | waiting {site : ι} {rest : List ι} {a b : Arena} {tally : Tally} {reference : String}
      (hv : verdict a site = .ok (.waiting reference)) (hw : a.awaits kind (node site) = true)
      (h : Passes node scope verdict kind P rest a tally b) :
      Passes node scope verdict kind P (site :: rest) a
        { tally with waiting := ⟨scope site, reference⟩ :: tally.waiting } b
  | missing {site : ι} {rest : List ι} {a b : Arena} {tally : Tally} {reference : String}
      (hv : verdict a site = .ok (.missing reference)) (hw : a.awaits kind (node site) = true)
      (h : Passes node scope verdict kind P rest a tally b) :
      Passes node scope verdict kind P (site :: rest) a
        { tally with missing := ⟨scope site, reference⟩ :: tally.missing } b

/-- With lawful verdicts a pass answers, by its steps. -/
theorem Lawful.pass_ok (h : Lawful node verdict kind P sites a₀) (scope : ι → String) {a : Arena}
    (ha : ResolvesBy P a₀ a) :
    ∃ tally b, pass node scope verdict sites a = .ok (tally, b) ∧ Passes node scope verdict kind P sites a tally b := by
  induction sites generalizing a with
  | nil => exact ⟨{}, a, rfl, .done a⟩
  | cons site rest ih =>
    have hrest : Lawful node verdict kind P rest a₀ := fun s hs => h s (List.mem_cons_of_mem _ hs)
    obtain ⟨v, hv, hskip, hattach⟩ := h site List.mem_cons_self a ha
    cases v with
    | skipped =>
      obtain ⟨tally, b, hp, hsteps⟩ := ih hrest ha
      refine ⟨tally, b, ?_, .skipped hv (hskip.1 rfl) hsteps⟩
      simp only [pass, hv, bind, Except.bind, hp]
    | attached target =>
      have hw : a.awaits kind (node site) = true := by
        cases hw : a.awaits kind (node site) with
        | true => rfl
        | false => exact absurd (hskip.2 hw) nofun
      obtain ⟨reference, hpend, -⟩ := awaits_eq_true.1 hw
      obtain ⟨m, hm, hres, hnone, hothers⟩ := attach_resolvesBy hpend (hattach target rfl)
      obtain ⟨tally, b, hp, hsteps⟩ := ih hrest (ha.trans hres)
      refine ⟨_, b, ?_, .attached hv hw hres (by simp [awaits, hnone]) (fun id hid => by simp [awaits, hothers id hid]) hsteps⟩
      simp only [pass, hv, bind, Except.bind, hm, hp]
      rfl
    | waiting reference =>
      obtain ⟨tally, b, hp, hsteps⟩ := ih hrest ha
      refine ⟨_, b, ?_, .waiting hv (by simpa using hskip.not.1 nofun) hsteps⟩
      simp only [pass, hv, bind, Except.bind, hp]
      rfl
    | missing reference =>
      obtain ⟨tally, b, hp, hsteps⟩ := ih hrest ha
      refine ⟨_, b, ?_, .missing hv (by simpa using hskip.not.1 nofun) hsteps⟩
      simp only [pass, hv, bind, Except.bind, hp]
      rfl

/-- A pass resolves includes and changes nothing else. -/
theorem Passes.resolvesBy (h : Passes node scope verdict kind P sites a tally b) : ResolvesBy P a b := by
  induction h with
  | done a => exact .refl P a
  | skipped _ _ _ ih => exact ih
  | attached _ _ hm _ _ _ ih => exact hm.trans ih
  | waiting _ _ _ ih => exact ih
  | missing _ _ _ ih => exact ih

/-! ## How many includes wait -/

/-- The number of includes that wait, each counted as often as it is listed. -/
def waitingCount (node : ι → NodeId) (kind : Reference → Bool) (sites : List ι) (a : Arena) : Nat :=
  sites.countP fun site => a.awaits kind (node site)

theorem waitingCount_cons (site : ι) (rest : List ι) (a : Arena) :
    waitingCount node kind (site :: rest) a =
      waitingCount node kind rest a + if a.awaits kind (node site) then 1 else 0 :=
  List.countP_cons

/-- Resolution makes no include wait. -/
theorem waitingCount_le_of_resolvesBy (h : ResolvesBy P a b) (sites : List ι) :
    waitingCount node kind sites b ≤ waitingCount node kind sites a :=
  List.countP_mono_left fun _ _ hb => h.awaits hb

/-- Every include that a pass resolves waited before it and does not wait after it. -/
theorem Passes.count_le (h : Passes node scope verdict kind P sites a tally b) :
    tally.resolved + waitingCount node kind sites b ≤ waitingCount node kind sites a := by
  induction h with
  | done a => exact Nat.le_of_eq (Nat.zero_add _)
  | @skipped site rest a b tally hv hw h ih =>
    simp only [waitingCount_cons, hw, h.resolvesBy.awaits_eq_false hw]
    omega
  | @attached site rest a m b tally target hv hw hm hsite hothers h ih =>
    have hle : waitingCount node kind rest m ≤ waitingCount node kind rest a := waitingCount_le_of_resolvesBy hm rest
    simp only [waitingCount_cons, hw, h.resolvesBy.awaits_eq_false hsite, if_true, Bool.false_eq_true, if_false]
    omega
  | @waiting site rest a b tally reference hv hw h ih =>
    simp only [waitingCount_cons, hw, if_true]
    split <;> omega
  | @missing site rest a b tally reference hv hw h ih =>
    simp only [waitingCount_cons, hw, if_true]
    split <;> omega

/-- A test that fails on one item more counts one item less. -/
theorem countP_add_one {α : Type} [DecidableEq α] {xs : List α} (hnd : xs.Nodup) {x : α} (hx : x ∈ xs) {p q : α → Bool}
    (hp : p x = true) (hq : q x = false) (hothers : ∀ y, y ≠ x → q y = p y) : xs.countP q + 1 = xs.countP p := by
  have hperm := List.perm_cons_erase hx
  have hsame : (xs.erase x).countP q = (xs.erase x).countP p :=
    List.countP_congr fun y hy => by rw [hothers y (hnd.mem_erase_iff.1 hy).1]
  rw [hperm.countP_eq, hperm.countP_eq, List.countP_cons_of_neg (by simp [hq]), List.countP_cons_of_pos hp, hsame]

/-- Among ids that are counted once, those of the includes that it is given among them, a pass leaves fewer waiting by as many as it
resolves. -/
theorem Passes.count_ids (h : Passes node scope verdict kind P sites a tally b) {ids : List NodeId} (hnd : ids.Nodup)
    (hsites : ∀ site ∈ sites, node site ∈ ids) :
    tally.resolved + ids.countP (b.awaits kind) = ids.countP (a.awaits kind) := by
  induction h with
  | done a => exact Nat.zero_add _
  | skipped _ _ _ ih => exact ih fun s hs => hsites s (List.mem_cons_of_mem _ hs)
  | @attached site rest a m b tally target hv hw hm hsite hothers h ih =>
    have hrest := ih fun s hs => hsites s (List.mem_cons_of_mem _ hs)
    have hone := countP_add_one hnd (hsites site List.mem_cons_self) hw hsite hothers
    simp only
    omega
  | waiting _ _ _ ih => exact ih fun s hs => hsites s (List.mem_cons_of_mem _ hs)
  | missing _ _ _ ih => exact ih fun s hs => hsites s (List.mem_cons_of_mem _ hs)

/-! ## What a pass reports -/

/-- The include that waits by the verdict of a state. -/
def waitingAt (scope : ι → String) (verdict : Arena → ι → Except Fault Verdict) (a : Arena) (site : ι) : Option Unsettled :=
  match verdict a site with
  | .ok (.waiting reference) => some ⟨scope site, reference⟩
  | _ => none

/-- The include that refers to nothing by the verdict of a state. -/
def missingAt (scope : ι → String) (verdict : Arena → ι → Except Fault Verdict) (a : Arena) (site : ι) : Option Unsettled :=
  match verdict a site with
  | .ok (.missing reference) => some ⟨scope site, reference⟩
  | _ => none

/-- A pass that resolves nothing changes nothing, attaches nothing, and reports what the verdicts of its first state are. -/
theorem Passes.idle (h : Passes node scope verdict kind P sites a tally b) (h0 : tally.resolved = 0) :
    b = a ∧ tally.waiting = sites.filterMap (waitingAt scope verdict a) ∧
      tally.missing = sites.filterMap (missingAt scope verdict a) ∧
      ∀ site ∈ sites, ∀ target, verdict a site ≠ .ok (.attached target) := by
  induction h with
  | done a => exact ⟨rfl, rfl, rfl, nofun⟩
  | @skipped site rest a b tally hv hw h ih =>
    obtain ⟨hb, hwait, hmiss, hno⟩ := ih h0
    exact ⟨hb, by simp [waitingAt, hv, hwait], by simp [missingAt, hv, hmiss], List.forall_mem_cons.2 ⟨by simp [hv], hno⟩⟩
  | attached => exact absurd h0 (Nat.succ_ne_zero _)
  | @waiting site rest a b tally reference hv hw h ih =>
    obtain ⟨hb, hwait, hmiss, hno⟩ := ih h0
    exact ⟨hb, by simp [waitingAt, hv, hwait], by simp [missingAt, hv, hmiss], List.forall_mem_cons.2 ⟨by simp [hv], hno⟩⟩
  | @missing site rest a b tally reference hv hw h ih =>
    obtain ⟨hb, hwait, hmiss, hno⟩ := ih h0
    exact ⟨hb, by simp [waitingAt, hv, hwait], by simp [missingAt, hv, hmiss], List.forall_mem_cons.2 ⟨by simp [hv], hno⟩⟩

/-- Where resolution does not change what misses its target, a pass reports what did so in its first state. -/
theorem Passes.missing_eq (h : Passes node scope verdict kind P sites a tally b)
    (hsame : ∀ site ∈ sites, ∀ m, ResolvesBy P a m → missingAt scope verdict m site = missingAt scope verdict a site) :
    tally.missing = sites.filterMap (missingAt scope verdict a) := by
  induction h with
  | done a => rfl
  | @skipped site rest a b tally hv hw h ih =>
    simp [missingAt, hv, ih fun s hs => hsame s (List.mem_cons_of_mem _ hs)]
  | @attached site rest a m b tally target hv hw hm hsite hothers h ih =>
    have hrest : ∀ s ∈ rest, missingAt scope verdict m s = missingAt scope verdict a s :=
      fun s hs => hsame s (List.mem_cons_of_mem _ hs) m hm
    rw [List.filterMap_cons_none (by simp [missingAt, hv]), ← List.filterMap_congr hrest]
    exact ih fun s hs n hn => (hsame s (List.mem_cons_of_mem _ hs) n (hm.trans hn)).trans (hrest s hs).symm
  | @waiting site rest a b tally reference hv hw h ih =>
    simp [missingAt, hv, ih fun s hs => hsame s (List.mem_cons_of_mem _ hs)]
  | @missing site rest a b tally reference hv hw h ih =>
    simp [missingAt, hv, ih fun s hs => hsame s (List.mem_cons_of_mem _ hs)]

/-- After a pass that reports nothing, no include waits. -/
theorem Passes.settled (h : Passes node scope verdict kind P sites a tally b) (hw : tally.waiting = [])
    (hm : tally.missing = []) : ∀ site ∈ sites, b.awaits kind (node site) = false := by
  induction h with
  | done a => exact nofun
  | skipped hv hsite h ih =>
    intro s hs
    rcases List.mem_cons.1 hs with rfl | hs
    · exact h.resolvesBy.awaits_eq_false hsite
    · exact ih hw hm s hs
  | attached hv _ _ hsite _ h ih =>
    intro s hs
    rcases List.mem_cons.1 hs with rfl | hs
    · exact h.resolvesBy.awaits_eq_false hsite
    · exact ih hw hm s hs
  | waiting => exact absurd hw (List.cons_ne_nil _ _)
  | missing => exact absurd hm (List.cons_ne_nil _ _)

/-- An include that waits after a pass was passed over: in some state on the way its verdict was neither to skip nor to attach it. -/
theorem Passes.passed_over (h : Passes node scope verdict kind P sites a tally b) {site : ι} (hsite : site ∈ sites)
    (hw : b.awaits kind (node site) = true) :
    ∃ m reference, ResolvesBy P a m ∧ (verdict m site = .ok (.waiting reference) ∨ verdict m site = .ok (.missing reference)) := by
  induction h with
  | done a => exact absurd hsite List.not_mem_nil
  | skipped _ hskip h ih =>
    rcases List.mem_cons.1 hsite with rfl | hsite
    · rw [h.resolvesBy.awaits_eq_false hskip] at hw
      cases hw
    · exact ih hsite hw
  | attached _ _ hm hdone _ h ih =>
    rcases List.mem_cons.1 hsite with rfl | hsite
    · rw [h.resolvesBy.awaits_eq_false hdone] at hw
      cases hw
    · obtain ⟨n, reference, hn, hv⟩ := ih hsite hw
      exact ⟨n, reference, hm.trans hn, hv⟩
  | @waiting site rest a b tally reference hv _ h ih =>
    rcases List.mem_cons.1 hsite with rfl | hsite
    · exact ⟨a, reference, .refl P a, .inl hv⟩
    · exact ih hsite hw
  | @missing site rest a b tally reference hv _ h ih =>
    rcases List.mem_cons.1 hsite with rfl | hsite
    · exact ⟨a, reference, .refl P a, .inr hv⟩
    · exact ih hsite hw

/-- Where a pass reports an include as missing its target, that was its verdict in some state on the way. -/
theorem Passes.exists_missing (h : Passes node scope verdict kind P sites a tally b) (hm : tally.missing ≠ []) :
    ∃ site ∈ sites, ∃ m reference, ResolvesBy P a m ∧ ResolvesBy P m b ∧ verdict m site = .ok (.missing reference) ∧
      m.awaits kind (node site) = true := by
  induction h with
  | done a => exact absurd rfl hm
  | skipped _ _ _ ih =>
    obtain ⟨s, hs, hrest⟩ := ih hm
    exact ⟨s, List.mem_cons_of_mem _ hs, hrest⟩
  | attached _ _ hstep _ _ _ ih =>
    obtain ⟨s, hs, m, reference, ham, hrest⟩ := ih hm
    exact ⟨s, List.mem_cons_of_mem _ hs, m, reference, hstep.trans ham, hrest⟩
  | waiting _ _ _ ih =>
    obtain ⟨s, hs, hrest⟩ := ih hm
    exact ⟨s, List.mem_cons_of_mem _ hs, hrest⟩
  | missing hv hw h => exact ⟨_, List.mem_cons_self, _, _, .refl P _, h.resolvesBy, hv, hw⟩

/-- A pass reports no include as waiting when no verdict says so. -/
theorem Passes.waiting_eq_nil (h : Passes node scope verdict kind P sites a tally b)
    (hv : ∀ a site reference, verdict a site ≠ .ok (.waiting reference)) : tally.waiting = [] := by
  induction h with
  | done => rfl
  | skipped _ _ _ ih => exact ih
  | attached _ _ _ _ _ _ ih => exact ih
  | waiting hw => exact absurd hw (hv _ _ _)
  | missing _ _ _ ih => exact ih

/-- A pass reports no include as missing its target when no verdict says so. -/
theorem Passes.missing_eq_nil (h : Passes node scope verdict kind P sites a tally b)
    (hv : ∀ a site reference, verdict a site ≠ .ok (.missing reference)) : tally.missing = [] := by
  induction h with
  | done => rfl
  | skipped _ _ _ ih => exact ih
  | attached _ _ _ _ _ _ ih => exact ih
  | waiting _ _ _ ih => exact ih
  | missing hm => exact absurd hm (hv _ _ _)

/-- Where a pass reports an include, one waited in some state on the way and was not attached, and the pass went on from there. -/
theorem Passes.exists_reported (h : Passes node scope verdict kind P sites a tally b)
    (hleft : tally.waiting ≠ [] ∨ tally.missing ≠ []) :
    ∃ site ∈ sites, ∃ m rest later, ResolvesBy P a m ∧ m.awaits kind (node site) = true ∧
      (∀ target, verdict m site ≠ .ok (.attached target)) ∧ rest ⊆ sites ∧
      Passes node scope verdict kind P rest m later b ∧ later.resolved ≤ tally.resolved := by
  induction h with
  | done a => exact absurd hleft (by simp)
  | skipped _ _ _ ih =>
    obtain ⟨site, hsite, m, rest, later, hm, hw, hv, hrest, hlater⟩ := ih hleft
    exact ⟨site, List.mem_cons_of_mem _ hsite, m, rest, later, hm, hw, hv, List.subset_cons_of_subset _ hrest, hlater⟩
  | attached _ _ hstep _ _ _ ih =>
    obtain ⟨site, hsite, m, rest, later, hm, hw, hv, hrest, hlater, hle⟩ := ih hleft
    exact ⟨site, List.mem_cons_of_mem _ hsite, m, rest, later, hstep.trans hm, hw, hv, List.subset_cons_of_subset _ hrest, hlater,
      Nat.le_succ_of_le hle⟩
  | @waiting site rest a b tally reference hv hw h =>
    refine ⟨site, List.mem_cons_self, a, rest, tally, .refl P a, hw, fun target ht => ?_, List.subset_cons_self _ _, h, Nat.le_refl _⟩
    cases hv.symm.trans ht
  | @missing site rest a b tally reference hv hw h =>
    refine ⟨site, List.mem_cons_self, a, rest, tally, .refl P a, hw, fun target ht => ?_, List.subset_cons_self _ _, h, Nat.le_refl _⟩
    cases hv.symm.trans ht

/-- An include that a pass reports waited when the pass began. -/
theorem Passes.exists_awaits (h : Passes node scope verdict kind P sites a tally b)
    (hleft : tally.waiting ≠ [] ∨ tally.missing ≠ []) : ∃ site ∈ sites, a.awaits kind (node site) = true := by
  obtain ⟨site, hsite, m, -, -, hm, hw, -⟩ := h.exists_reported hleft
  exact ⟨site, hsite, hm.awaits hw⟩

/-! ## How far a pass comes -/

/-- A pass that resolves one include attaches it in its first state, and leaves the others as they were. -/
theorem Passes.single (h : Passes node scope verdict kind P sites a tally b) (h1 : tally.resolved = 1) :
    ∃ site ∈ sites, (∃ target, verdict a site = .ok (.attached target)) ∧
      ∀ id, id ≠ node site → b.awaits kind id = a.awaits kind id := by
  induction h with
  | done a => cases h1
  | skipped _ _ _ ih =>
    obtain ⟨site, hsite, hrest⟩ := ih h1
    exact ⟨site, List.mem_cons_of_mem _ hsite, hrest⟩
  | attached hv _ _ _ hothers h =>
    obtain ⟨rfl, -⟩ := h.idle (Nat.succ.inj h1)
    exact ⟨_, List.mem_cons_self, ⟨_, hv⟩, hothers⟩
  | waiting _ _ _ ih =>
    obtain ⟨site, hsite, hrest⟩ := ih h1
    exact ⟨site, List.mem_cons_of_mem _ hsite, hrest⟩
  | missing _ _ _ ih =>
    obtain ⟨site, hsite, hrest⟩ := ih h1
    exact ⟨site, List.mem_cons_of_mem _ hsite, hrest⟩

/-- A pass that reports an include, and after which none waits, resolves two, where a state attaches an include by all of its sites or
by none. -/
theorem Passes.two_le (h : Passes node scope verdict kind P sites a tally b) (hleft : tally.waiting ≠ [] ∨ tally.missing ≠ [])
    (hnone : ∀ site ∈ sites, b.awaits kind (node site) = false)
    (hsame : ∀ m, ResolvesBy P a m → ∀ site ∈ sites, ∀ other ∈ sites, node other = node site →
      (∃ target, verdict m other = .ok (.attached target)) → ∃ target, verdict m site = .ok (.attached target)) :
    2 ≤ tally.resolved := by
  obtain ⟨site, hsite, m, rest, later, hm, hw, hno, hrest, hlater, hle⟩ := h.exists_reported hleft
  by_contra hlt
  obtain h0 | h1 : later.resolved = 0 ∨ later.resolved = 1 := by omega
  · obtain ⟨rfl, -⟩ := hlater.idle h0
    rw [hnone site hsite] at hw
    cases hw
  · obtain ⟨other, hother, hattached, hkept⟩ := hlater.single h1
    by_cases heq : node other = node site
    · obtain ⟨target, ht⟩ := hsame m hm site hsite other (hrest hother) heq hattached
      exact hno target ht
    · rw [← hkept (node site) (Ne.symm heq), hnone site hsite] at hw
      cases hw

end Resolution

end GrammarLinker
