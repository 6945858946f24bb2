import GrammarLinker.Proofs.InterGrammar.Order
import GrammarLinker.Proofs.LinkedSet.Sift

/-!
# What resolution resolves in the end

Some grammars resolve their own references, and some of them the references between each other, in any order and as often as one
likes. What becomes of an include in the end can be said before any of it (`Linker.Due`): it is resolved to the list of its own grammar
that it refers to, or to the list that it denotes in the set, if that is supported. A list is supported (`Arena.Supported`) when one
comes from it to a solid list by going from an include to a list which it stands for, or is there to stand for. Resolution turns the
one into the other, so what is due does not change on the way (`Linker.Due.of_resolvesBy`), and nothing else is ever resolved.

When own references were resolved, and then the ones between the grammars, all that is due has been resolved
(`Linker.not_pending_of_due`).
-/

namespace GrammarLinker

open Arena InterGrammar

/-! ## Supported lists -/

namespace Arena

variable {a b : Arena} {E F : NodeId → ListId → Prop} {list : ListId}

/-- One comes from a list to a solid one by going from includes to lists as a relation says. -/
inductive Supported (a : Arena) (E : NodeId → ListId → Prop) : ListId → Prop where
  | solid {list : ListId} (h : a.Solid list) : Supported a E list
  | through {list target : ListId} {items : List NodeId} {id : NodeId} (hl : a.list list = .ok items) (hid : id ∈ items)
      (he : E id target) (h : Supported a E target) : Supported a E list

/-- What one may come to by fewer ways one may come to by more. -/
theorem Supported.mono (h : a.Supported E list) (hEF : ∀ id target, E id target → F id target) : a.Supported F list := by
  induction h with
  | solid hs => exact .solid hs
  | through hl hid he _ ih => exact .through hl hid (hEF _ _ he) ih

/-- Which lists are solid does not change by resolution. -/
theorem Supported.of_resolvesBy {P : NodeId → ListId → Prop} (hr : ResolvesBy P a b) (h : b.Supported E list) :
    a.Supported E list := by
  induction h with
  | solid hs => exact .solid (hr.solid.1 hs)
  | through hl hid he _ ih => exact .through ((hr.list _).symm.trans hl) hid he ih

/-- What is grounded is supported by the resolved includes. -/
theorem Grounded.supported (h : a.Grounded list) (hE : ∀ id target, a.StandsFor id target → E id target) : a.Supported E list := by
  induction h with
  | solid hs => exact .solid hs
  | through hl _ ih =>
    obtain ⟨items, hitems, id, hid, hs⟩ := hl
    exact .through hitems hid (hE id _ hs) ih

/-- Where nothing may be resolved, nothing is. -/
theorem ResolvesBy.eq_of_forall_not {P : NodeId → ListId → Prop} (h : ResolvesBy P a b) (hP : ∀ id target, ¬P id target) : b = a :=
  h.eq_of_exhausted (.refl P a) (fun _ _ _ hp => absurd hp (hP _ _)) (fun _ _ hp => absurd hp (hP _ _))
    fun _ _ hp => absurd hp (hP _ _)

end Arena

/-! ## Some of the grammars of a set -/

namespace InterGrammar

variable {gs hs : List Grammar} {base : Option String} {a : Arena} {g : Grammar} {id : NodeId} {list : ListId}

/-- Some of the grammars that can be resolved can be resolved. -/
theorem Ready.subperm (h : Ready gs a) (hsub : hs.Subperm gs) : Ready hs a := by
  obtain ⟨l, hp, hl⟩ := hsub
  exact (h.sublist hl).perm hp

section

variable (hnd : (gs.map Grammar.scopeName).Nodup) (hsub : hs ⊆ gs)
include hnd hsub

/-- What a reference denotes in a part of a set it denotes in the set. -/
theorem target_of_subset {reference : Reference} (ht : target hs base a g reference = .ok (some list)) :
    target gs base a g reference = .ok (some list) := by
  have hnamed : ∀ {scope k}, named hs scope = some k → named gs scope = some k := fun hk =>
    (named_eq_some hnd).2 ⟨hsub (mem_of_named hk), scopeName_of_named hk⟩
  have hroot : ∀ {scope}, (named hs scope).map Grammar.root = some list → (named gs scope).map Grammar.root = some list := by
    intro scope hl
    obtain ⟨k, hk, rfl⟩ := Option.map_eq_some_iff.1 hl
    rw [hnamed hk]
    rfl
  cases reference with
  | entry name => cases ht
  | self => cases ht
  | base =>
    cases base with
    | none => exact ht
    | some scope => exact congrArg Except.ok (hroot (Except.ok.inj ht))
  | foreign scope => exact congrArg Except.ok (hroot (Except.ok.inj ht))
  | foreignEntry scope name =>
    cases hk : named hs scope with
    | none => simp [target, hk] at ht
    | some k => simpa only [target, hk, hnamed hk] using ht

/-- What an include denotes among some grammars it denotes among more of distinct scopes. -/
theorem Designates.of_subset (hl : Designates hs base a id list) : Designates gs base a id list := by
  obtain ⟨g, hg, hid, reference, hp, hk, ht⟩ := hl
  exact ⟨g, hsub hg, hid, reference, hp, hk, target_of_subset hnd hsub ht⟩

end

end InterGrammar

namespace Linker

variable {ls gs hs : List Grammar} {base : Option String} {a m n b : Arena} {id : NodeId} {list t : ListId} {P : NodeId → ListId → Prop}

/-! ## Own references -/

/-- An include that refers to a list of its own grammar after resolution did so before. -/
theorem OwnOf.of_resolvesBy (hr : ResolvesBy P a b) (h : OwnOf ls b id list) : OwnOf ls a id list := by
  obtain ⟨g, hg, ho⟩ := h
  exact ⟨g, hg, own_of_resolvesBy hr ho⟩

/-- What an include refers to it refers to as long as it waits. -/
theorem own_of_pending {g : Grammar} (hr : ResolvesBy P a b) {reference : Reference} (hp : b.pending? id = some reference)
    (h : g.Own a id list) : g.Own b id list := by
  refine ⟨h.1, h.2.imp ?_ fun hs => ⟨?_, hs.2⟩⟩
  · rintro ⟨text, declared, name, hi, ht⟩
    exact ⟨text, declared, name, (hr.inclusion_of_pending hp).trans hi, (Registry.entryTarget_congr hr.repositories _ _ _).trans ht⟩
  · rw [hp, ← (hr.node_of_pending hp).2]
    exact hs.1

/-- An include that still waits refers to the list of its own grammar that it referred to. -/
theorem OwnOf.of_pending (hr : ResolvesBy P a b) {reference : Reference} (hp : b.pending? id = some reference)
    (h : OwnOf ls a id list) : OwnOf ls b id list := by
  obtain ⟨g, hg, ho⟩ := h
  exact ⟨g, hg, own_of_pending hr hp ho⟩

/-- An include refers to one list of its own grammar at most. -/
theorem OwnOf.unique (hd : DisjointRegistries ls) (h : OwnOf ls a id list) (h' : OwnOf ls a id t) : list = t := by
  obtain ⟨g, hg, ho⟩ := h
  obtain ⟨k, hk, ho'⟩ := h'
  obtain rfl := hd.unique hg hk ho.1 ho'.1
  exact ho.unique ho'

/-- An include that refers to a list of its own grammar waits, and for no other grammar. -/
theorem OwnOf.pending? (h : OwnOf ls a id list) : ∃ reference, a.pending? id = some reference ∧ reference.isCrossGrammar = false := by
  obtain ⟨g, hg, hid, hnames | ⟨hp, -⟩⟩ := h
  · obtain ⟨name, hp⟩ := hnames.pending?
    exact ⟨_, hp, rfl⟩
  · exact ⟨_, hp, rfl⟩

/-- No include refers to a list of its own grammar and to one of another. -/
theorem OwnOf.not_designates (h : OwnOf ls a id list) : ¬Designates gs base a id t := by
  rintro ⟨g, -, -, reference, hp, hcross, -⟩
  obtain ⟨reference', hp', hown⟩ := h.pending?
  rw [hp', Option.some.injEq] at hp
  subst hp
  exact Bool.false_ne_true (hown.symm.trans hcross)

/-- An include refers to one list of its grammar at most, or denotes one in the set. -/
theorem meant_unique (hls : DisjointRegistries ls) (hgs : DisjointRegistries gs)
    (h : OwnOf ls a id list ∨ Designates gs base a id list) (h' : OwnOf ls a id t ∨ Designates gs base a id t) : list = t := by
  rcases h with ho | hd <;> rcases h' with ho' | hd'
  · exact ho.unique hls ho'
  · exact absurd hd' ho.not_designates
  · exact absurd hd ho'.not_designates
  · exact hd.unique hgs hd'

/-- An include that is there to stand for a list waits. -/
theorem pending?_of_meant (h : OwnOf ls a id list ∨ Designates gs base a id list) : ∃ reference, a.pending? id = some reference := by
  rcases h with ho | ⟨-, -, -, reference, hp, -⟩
  · obtain ⟨reference, hp, -⟩ := ho.pending?
    exact ⟨reference, hp⟩
  · exact ⟨reference, hp⟩

/-! ## What is due -/

/-- An include stands for a list, or is there to do so: it refers to the list in its own grammar, or denotes it in the set. -/
def Edge (ls gs : List Grammar) (base : Option String) (a : Arena) (id : NodeId) (list : ListId) : Prop :=
  a.StandsFor id list ∨ OwnOf ls a id list ∨ Designates gs base a id list

/-- An include is to be resolved to a list, where own references are resolved of the grammars `ls` and references between each other of
the grammars `gs`. -/
def Due (ls gs : List Grammar) (base : Option String) (a : Arena) (id : NodeId) (list : ListId) : Prop :=
  OwnOf ls a id list ∨
    Designates gs base a id list ∧ (OwnRootAt base a id ∨ a.Supported (Edge ls gs base a) list)

/-- What an include is to be resolved to it refers to or denotes. -/
theorem Due.meant (h : Due ls gs base a id list) : OwnOf ls a id list ∨ Designates gs base a id list := h.imp_right And.left

/-- An include that is to be resolved to a list is there to stand for it. -/
theorem Due.edge (h : Due ls gs base a id list) : Edge ls gs base a id list := .inr h.meant

/-- Resolution makes no edges other than those that are there. -/
theorem Edge.of_resolvesBy (hr : ResolvesBy P a b) (hP : ∀ id list, P id list → Edge ls gs base a id list)
    (h : Edge ls gs base b id list) : Edge ls gs base a id list := by
  rcases h with hs | ho | hd
  · rcases hr.standsFor_before hs with hs | ⟨hp, -⟩
    · exact .inl hs
    · exact hP id list hp
  · exact .inr (.inl (ho.of_resolvesBy hr))
  · exact .inr (.inr (hd.of_resolvesBy hr))

/-- What is due on the way was due from the start. -/
theorem Due.of_resolvesBy (hr : ResolvesBy P a b) (hP : ∀ id list, P id list → Edge ls gs base a id list)
    (h : Due ls gs base b id list) : Due ls gs base a id list := by
  rcases h with ho | ⟨hd, hwhy⟩
  · exact .inl (ho.of_resolvesBy hr)
  · refine .inr ⟨hd.of_resolvesBy hr, hwhy.imp ?_ fun hs => ?_⟩
    · rintro ⟨reference, hp, hown⟩
      exact ⟨reference, (hr.node_of_pending hp).2, hown⟩
    · exact (hs.of_resolvesBy hr).mono fun _ _ he => he.of_resolvesBy hr hP

/-- What an include is to be resolved to is there. -/
theorem Due.hasList (hls : Ready ls a) (hgs : Ready gs a) (h : Due ls gs base a id list) : a.HasList list := by
  rcases h with ho | ⟨hd, -⟩
  · exact ho.hasList hls
  · exact hgs.hasList_of_designates hd

/-- There is one list at most to which an include is to be resolved. -/
theorem Due.unique (hls : DisjointRegistries ls) (hgs : DisjointRegistries gs) (h : Due ls gs base a id list)
    (h' : Due ls gs base a id t) : list = t := meant_unique hls hgs h.meant h'.meant

/-- A run between some of the grammars resolves what is due. -/
theorem due_of_earns (hnd : (gs.map Grammar.scopeName).Nodup) (hsub : hs ⊆ gs) (h : Earns hs base a id list) :
    Due ls gs base a id list := by
  refine .inr ⟨h.1.of_subset hnd hsub, h.2.imp_right fun hg => ?_⟩
  have hshot := resolvesBy_resolveAll a (designated? hs base a)
  refine (hg.supported fun _ _ hs => hs).of_resolvesBy hshot |>.mono fun id t hs => ?_
  rcases hshot.standsFor_before hs with hs | ⟨hd, -⟩
  · exact .inl hs
  · exact .inr (.inr ((designates_of_designated? hd).of_subset hnd hsub))

/-! ## The end of resolution -/

/-- Every include that refers to a list of its own grammar has been resolved. -/
def OwnSettled (ls : List Grammar) (a : Arena) : Prop := ∀ id list, ¬OwnOf ls a id list

/-- Own references that have been resolved stay so. -/
theorem OwnSettled.of_resolvesBy (h : OwnSettled ls a) (hr : ResolvesBy P a b) : OwnSettled ls b :=
  fun id list ho => h id list (ho.of_resolvesBy hr)

/-- Without grammars there are no own references. -/
theorem ownSettled_nil (a : Arena) : OwnSettled [] a := fun _ _ ⟨_, hg, _⟩ => absurd hg List.not_mem_nil

/-- After local resolution no include refers to a list of its own grammar any more. -/
theorem ownSettled_cons {g : Grammar} {Q : NodeId → ListId → Prop} (hr : ResolvesBy P a m)
    (hall : ∀ id list, g.Own a id list → m.pending? id = none) (hb : ResolvesBy Q m b) (h : OwnSettled ls b) : OwnSettled (g :: ls) b := by
  rintro id list ⟨k, hk, ho⟩
  rcases List.mem_cons.1 hk with rfl | hk
  · have hm := own_of_resolvesBy hb ho
    obtain ⟨reference, hp, -⟩ := OwnOf.pending? ⟨k, List.mem_singleton_self k, hm⟩
    rw [hall id list (own_of_resolvesBy hr hm)] at hp
    cases hp
  · exact h id list ⟨k, hk, ho⟩

/-- An include that could be attached to the list that it denotes has been attached. -/
def Stuck (gs : List Grammar) (base : Option String) (a : Arena) : Prop :=
  ∀ id list, Designates gs base a id list → ¬OwnRootAt base a id ∧ ¬a.Grounded list

/-- A run that ends leaves no include that it could attach. -/
theorem stuck_of_ends {earlier : Report} {answer : Except LinkError Report} (h : Ready gs a)
    (he : Ends gs base (Earns gs base a) a earlier answer b) : Stuck gs base b :=
  fun _ _ hl => he.stable h hl

/-- In a state that is stuck no run between some of the grammars resolves anything. -/
theorem Stuck.not_earns (h : Stuck gs base a) (hnd : (gs.map Grammar.scopeName).Nodup) (hsub : hs ⊆ gs) :
    ¬Earns hs base a id list := by
  rintro ⟨hd, hown | hg⟩
  · exact (h id list (hd.of_subset hnd hsub)).1 hown
  · refine (h id list (hd.of_subset hnd hsub)).2 ?_
    have hshot := resolvesBy_resolveAll a (designated? hs base a)
    clear hd
    induction hg with
    | solid hs => exact .solid (hshot.solid.1 hs)
    | @through list target hl _ ih =>
      obtain ⟨items, hitems, id, hid, hs⟩ := hl
      rcases hshot.standsFor_before hs with hs | ⟨hd, -⟩
      · exact .through ⟨items, (hshot.list _).symm.trans hitems, id, hid, hs⟩ ih
      · exact absurd ih (h id target ((designates_of_designated? hd).of_subset hnd hsub)).2

section

variable (hls : DisjointRegistries ls) (hgs : DisjointRegistries gs) (hr : ResolvesBy (Due ls gs base a) a b)
  (hown : OwnSettled ls b) (hstuck : Stuck gs base b)
include hls hgs hr hown hstuck

/-- What is supported is grounded when nothing is left that could be resolved. -/
theorem grounded_of_supported (h : a.Supported (Edge ls gs base a) list) : b.Grounded list := by
  induction h with
  | solid hs => exact .solid (hr.solid.2 hs)
  | @through list target items id hl hid he _ ih =>
    refine .through ⟨items, (hr.list list).trans hl, id, hid, ?_⟩ ih
    rcases he with hs | he
    · exact hr.standsFor hs
    -- an include that is there to stand for the target waits no more, and was resolved to it
    · have hwaits : b.pending? id = none := by
        cases hp : b.pending? id with
        | none => rfl
        | some reference =>
          rcases he with ho | hd
          · exact absurd (ho.of_pending hr hp) (hown id target)
          · exact absurd ih (hstuck id target (hd.of_pending hr hp)).2
      obtain ⟨reference, hp⟩ := pending?_of_meant he
      exact hr.standsFor_resolved (fun t ht => meant_unique hls hgs ht.meant he) hwaits hp

/-- When nothing is left that could be resolved, all that was due has been. -/
theorem not_pending_of_due (h : Due ls gs base a id list) : b.pending? id = none := by
  cases hp : b.pending? id with
  | none => rfl
  | some reference =>
    rcases h with ho | ⟨hd, ⟨r, hpa, hroot⟩ | hs⟩
    · exact absurd (ho.of_pending hr hp) (hown id list)
    · rw [(hr.node_of_pending hp).2, Option.some.injEq] at hpa
      subst hpa
      exact absurd ⟨reference, hp, hroot⟩ (hstuck id list (hd.of_pending hr hp)).1
    · exact absurd (grounded_of_supported hls hgs hr hown hstuck hs) (hstuck id list (hd.of_pending hr hp)).2

/-- When nothing is left that could be resolved, an include is resolved to the list to which it was due. -/
theorem node_of_due {node : Node} (hn : a.node id = .ok node) (h : Due ls gs base a id list) :
    b.node id = .ok (node.resolvedTo list) :=
  hr.node_resolved (fun _ hd => hd.unique hls hgs h) (not_pending_of_due hls hgs hr hown hstuck h) hn

end

/-- Own references are resolved first, and then those between some of the grammars. -/
theorem resolvesBy_due_of_ends {answer : Except LinkError Report} (h : Ready ls a) (hnames : (ls.map Grammar.scopeName).Nodup)
    (hsub : gs.Sublist ls) (hown : ResolvesBy (OwnOf ls a) a m) (hsettled : OwnSettled ls m)
    (he : Ends gs base (Earns gs base m) m {} answer b) :
    ResolvesBy (Due ls gs base a) a b ∧ OwnSettled ls b ∧ Stuck gs base b := by
  have hm : Ready gs m := (h.of_resolvesBy (fun _ _ ho => ho.hasList h) hown).sublist hsub
  have hdue : ResolvesBy (Due ls gs base a) a m := hown.mono fun _ _ ho => .inl ho
  refine ⟨hdue.trans (he.resolvesBy.mono fun _ _ hd => ?_), hsettled.of_resolvesBy he.resolvesBy, stuck_of_ends hm he⟩
  exact (due_of_earns (hnames.sublist (hsub.map _)) (List.Subset.refl _) hd).of_resolvesBy hdue fun _ _ hd => hd.edge

end Linker

end GrammarLinker
