import Mathlib.Data.List.Nodup
import Mathlib.Logic.Relation
import GrammarLinker.Arena.Walk
import GrammarLinker.Proofs.Arena.Forest

/-!
# Inlining lists

What the walk through a list should yield, said by recursion on lists (`Arena.Inlined`): a list is marked as entered, and its items are
gone through in order. A rule is yielded, a resolved include is replaced by what its target yields unless that was entered before, and a
pending include is left out.

The walk itself has no such recursion: what is left of the lists that it is in stands in one row. So what is shown of it is said of any
items at the front of the row (`Arena.Inlines.walkFrom`): it yields what they are inlined to, and then goes on with the rest of the row,
with those lists left that the inlining has not entered.

Everything else is read off the inlining, by induction on it: what is yielded are the rules among the nodes that it meets
(`Arena.Inlines.mem_iff`), and the lists that it enters are those to which resolved includes lead (`Arena.Inlines.mem_entered`). If no node
is held twice, none is yielded twice (`Arena.Inlines.nodup`).
-/

namespace GrammarLinker

open Arena

/-- The walk that yields some rules before another one. -/
def Walk.after (ids : List NodeId) (w : Walk) : Walk := { w with yielded := ids ++ w.yielded }

/-- Rules may be put before a walk in two goes. -/
theorem Walk.after_append (ids others : List NodeId) (w : Walk) : w.after (ids ++ others) = (w.after others).after ids :=
  congrArg (Walk.mk · w.fault?) (List.append_assoc _ _ _)

namespace Arena

variable {a : Arena} {entered entered' : List ListId} {items rest out : List NodeId} {id x : NodeId} {list target : ListId}

/-! ## What a node is -/

/-- A rule has a list of children. -/
theorem IsRule.body (h : a.IsRule id) : ∃ node children, a.node id = .ok node ∧ node.body = .rule children := by
  obtain ⟨⟨name, rule, parent, body⟩, hn, hr⟩ := h
  cases body with
  | rule children => exact ⟨_, children, hn, rfl⟩
  | inclusion i => cases hr

/-- An include that stands for a list has it as its target. -/
theorem StandsFor.body (h : a.StandsFor id target) :
    ∃ node i, a.node id = .ok node ∧ node.body = .inclusion i ∧ i.target? = some target := by
  obtain ⟨i, hi, ht⟩ := h
  obtain ⟨node, hn, hb⟩ := inclusion_eq_some.1 hi
  exact ⟨node, i, hn, hb, ht⟩

/-- An include stands for its target. -/
theorem standsFor_of_target {id : NodeId} {node : Node} {i : Include} {target : ListId} (hn : a.node id = .ok node)
    (hb : node.body = .inclusion i) (ht : i.target? = some target) : a.StandsFor id target :=
  ⟨i, inclusion_eq_some.2 ⟨node, hn, hb⟩, ht⟩

/-- An include stands for one list at most. -/
theorem StandsFor.unique {target' : ListId} (h : a.StandsFor id target) (h' : a.StandsFor id target') : target = target' := by
  obtain ⟨i, hi, ht⟩ := h
  obtain ⟨j, hj, ht'⟩ := h'
  cases hi.symm.trans hj
  exact Option.some.inj (ht.symm.trans ht')

/-- A node is a rule, or a resolved include, or a pending one. -/
theorem HasNode.cases (h : a.HasNode id) :
    a.IsRule id ∨ (∃ target, a.StandsFor id target) ∨ ∃ reference, a.pending? id = some reference := by
  obtain ⟨⟨name, rule, parent, body⟩, hn⟩ := h.node_ok
  cases body with
  | rule children => exact .inl ⟨_, hn, rfl⟩
  | inclusion i =>
    obtain ⟨text, declared, state⟩ := i
    cases state with
    | resolved target => exact .inr (.inl ⟨target, standsFor_of_target hn rfl rfl⟩)
    | pending reference => exact .inr (.inr ⟨reference, pending?_eq_some.2 ⟨_, hn, Node.pending?_eq_some.2 ⟨text, declared, rfl⟩⟩⟩)

section

variable {reference : Reference} (h : a.pending? id = some reference)
include h

/-- A pending include has no target. -/
theorem body_of_pending : ∃ node i, a.node id = .ok node ∧ node.body = .inclusion i ∧ i.target? = none := by
  obtain ⟨node, hn, hp⟩ := pending?_eq_some.1 h
  obtain ⟨text, declared, hb⟩ := Node.pending?_eq_some.1 hp
  exact ⟨node, _, hn, hb, rfl⟩

/-- A pending include is no rule. -/
theorem not_isRule_of_pending : ¬a.IsRule id := by
  intro hr
  obtain ⟨node, i, hn, hb, -⟩ := body_of_pending h
  obtain ⟨node', children, hn', hb'⟩ := hr.body
  cases hn.symm.trans hn'
  cases hb.symm.trans hb'

/-- A pending include stands for no list. -/
theorem not_standsFor_of_pending : ¬a.StandsFor id target := by
  intro hs
  obtain ⟨node, i, hn, hb, ht⟩ := body_of_pending h
  obtain ⟨node', j, hn', hb', ht'⟩ := hs.body
  cases hn.symm.trans hn'
  cases hb.symm.trans hb'
  cases ht.symm.trans ht'

end

/-! ## Inlining -/

/-- What items are inlined to when some lists were entered before, with the lists that were entered then. -/
inductive Inlines (a : Arena) : List ListId → List NodeId → List NodeId → List ListId → Prop where
  | done (entered : List ListId) : Inlines a entered [] [] entered
  | rule {entered entered' : List ListId} {id : NodeId} {rest out : List NodeId} (h : a.IsRule id)
      (hr : Inlines a entered rest out entered') : Inlines a entered (id :: rest) (id :: out) entered'
  | pending {entered entered' : List ListId} {id : NodeId} {rest out : List NodeId} {reference : Reference}
      (h : a.pending? id = some reference) (hr : Inlines a entered rest out entered') : Inlines a entered (id :: rest) out entered'
  | again {entered entered' : List ListId} {id : NodeId} {rest out : List NodeId} {target : ListId} (h : a.StandsFor id target)
      (hold : target ∈ entered) (hr : Inlines a entered rest out entered') : Inlines a entered (id :: rest) out entered'
  | enter {entered between entered' : List ListId} {id : NodeId} {items rest inside out : List NodeId} {target : ListId}
      (h : a.StandsFor id target) (hnew : target ∉ entered) (hl : a.list target = .ok items)
      (hin : Inlines a (target :: entered) items inside between) (hr : Inlines a between rest out entered') :
      Inlines a entered (id :: rest) (inside ++ out) entered'

/-- What a list is inlined to. -/
def Inlined (a : Arena) (list : ListId) (out : List NodeId) : Prop :=
  ∃ items entered, a.list list = .ok items ∧ Inlines a [list] items out entered

/-- What was entered stays so. -/
theorem Inlines.subset (h : a.Inlines entered items out entered') : entered ⊆ entered' := by
  induction h with
  | done entered => exact List.Subset.refl _
  | rule _ _ ih => exact ih
  | pending _ _ ih => exact ih
  | again _ _ _ ih => exact ih
  | enter _ _ _ _ _ ihin ih => exact fun l hl => ih (ihin (List.mem_cons_of_mem _ hl))

/-! ## The lists that are left -/

/-- The lists that were not entered. -/
def unentered (a : Arena) (entered : List ListId) : List ListId := a.listIds.filter (· ∉ entered)

/-- A list was not entered if it is there and not among those that were. -/
theorem mem_unentered : list ∈ a.unentered entered ↔ a.HasList list ∧ list ∉ entered := by
  simp only [unentered, List.mem_filter, mem_listIds, decide_eq_true_eq]

/-- Entering one more list leaves one less. -/
theorem unentered_cons (a : Arena) (target : ListId) (entered : List ListId) :
    a.unentered (target :: entered) = (a.unentered entered).erase target := by
  have hnd : (a.unentered entered).Nodup := (nodup_listIds a).filter _
  rw [hnd.erase_eq_filter, unentered, unentered, List.filter_filter]
  refine List.filter_congr fun list _ => ?_
  simp [bne, beq_eq_decide]

/-- A walk that starts with one list has entered that list alone. -/
theorem listIds_erase (a : Arena) (list : ListId) : a.listIds.erase list = a.unentered [list] := by
  rw [unentered_cons, unentered, List.filter_eq_self.2 fun l _ => by simp]

/-- Where one more list was entered, at least, fewer are left. -/
theorem length_unentered_lt (hl : a.HasList target) (hnew : target ∉ entered) (hsub : target :: entered ⊆ entered') :
    (a.unentered entered').length < (a.unentered entered).length := by
  have hmem : target ∈ a.unentered entered := mem_unentered.2 ⟨hl, hnew⟩
  have hle : (a.unentered entered').length ≤ (a.unentered (target :: entered)).length := by
    refine (List.monotone_filter_right _ fun l hl => ?_).length_le
    rw [decide_eq_true_eq] at hl ⊢
    exact fun h => hl (hsub h)
  rw [unentered_cons, List.length_erase_of_mem hmem] at hle
  have := List.length_pos_of_mem hmem
  omega

/-! ## Every list can be inlined -/

/-- Items can be inlined, whatever was entered before. The induction is on the lists that are left: a target that is entered leaves fewer
of them, for its own items and for the items after the include too. -/
theorem Closed.exists_inlines (hc : a.Closed) (entered : List ListId) (items : List NodeId) (hitems : ∀ item ∈ items, a.HasNode item) :
    ∃ out entered', a.Inlines entered items out entered' := by
  induction hn : (a.unentered entered).length using Nat.strongRecOn generalizing entered items with
  | _ n ihn =>
    induction items with
    | nil => exact ⟨[], entered, .done entered⟩
    | cons id rest ih =>
      obtain ⟨hid, hrest⟩ := List.forall_mem_cons.1 hitems
      rcases hid.cases with hr | ⟨target, hs⟩ | ⟨reference, hp⟩
      · obtain ⟨out, entered', h⟩ := ih hrest
        exact ⟨_, _, .rule hr h⟩
      · by_cases hnew : target ∈ entered
        · obtain ⟨out, entered', h⟩ := ih hrest
          exact ⟨_, _, .again hs hnew h⟩
        · have htarget := hc.lists_standsFor hid hs
          obtain ⟨targets, hl⟩ := htarget.list_ok
          obtain ⟨inside, between, hin⟩ := ihn _ (hn ▸ length_unentered_lt htarget hnew (List.Subset.refl _)) _ targets
            (fun item hi => hc.hasNode_item hl hi) rfl
          obtain ⟨out, entered', h⟩ := ihn _ (hn ▸ length_unentered_lt htarget hnew hin.subset) _ rest hrest rfl
          exact ⟨_, _, .enter hs hnew hl hin h⟩
      · obtain ⟨out, entered', h⟩ := ih hrest
        exact ⟨_, _, .pending hp h⟩

/-! ## The walk inlines -/

/-- The walk yields a rule and goes on behind it. -/
theorem walkFrom_rule {fresh : List ListId} {id : NodeId} {rest : List NodeId} {node : Node} {children : ListId}
    (hn : a.node id = .ok node) (hb : node.body = .rule children) :
    a.walkFrom fresh (id :: rest) = (a.walkFrom fresh rest).yielding id := by
  rw [walkFrom]
  simp only [hn, hb]

/-- The walk passes over a pending include. -/
theorem walkFrom_pending {fresh : List ListId} {id : NodeId} {rest : List NodeId} {node : Node} {i : Include}
    (hn : a.node id = .ok node) (hb : node.body = .inclusion i) (ht : i.target? = none) :
    a.walkFrom fresh (id :: rest) = a.walkFrom fresh rest := by
  rw [walkFrom]
  simp only [hn, hb, ht]

/-- The walk goes through the target of an include if it was not entered, and passes over it otherwise. -/
theorem walkFrom_target {fresh : List ListId} {id : NodeId} {rest items : List NodeId} {node : Node} {i : Include} {target : ListId}
    (hn : a.node id = .ok node) (hb : node.body = .inclusion i) (ht : i.target? = some target) (hl : a.list target = .ok items) :
    a.walkFrom fresh (id :: rest) =
      if target ∈ fresh then a.walkFrom (fresh.erase target) (items ++ rest) else a.walkFrom fresh rest := by
  rw [walkFrom]
  simp only [hn, hb, ht, hl]
  split <;> rfl

/-- The walk yields what the items at the front are inlined to, and then goes on. -/
theorem Inlines.walkFrom (hc : a.Closed) (h : a.Inlines entered items out entered') (rest : List NodeId) :
    a.walkFrom (a.unentered entered) (items ++ rest) = (a.walkFrom (a.unentered entered') rest).after out := by
  induction h generalizing rest with
  | done entered => rfl
  | rule h _ ih =>
    obtain ⟨node, children, hn, hb⟩ := h.body
    rw [List.cons_append, walkFrom_rule hn hb, ih rest]
    rfl
  | pending h _ ih =>
    obtain ⟨node, i, hn, hb, ht⟩ := body_of_pending h
    rw [List.cons_append, walkFrom_pending hn hb ht, ih rest]
  | again h hold _ ih =>
    obtain ⟨node, i, hn, hb, ht⟩ := h.body
    obtain ⟨items, hl⟩ := (hc.lists_standsFor h.hasNode h).list_ok
    rw [List.cons_append, walkFrom_target hn hb ht hl, if_neg fun hmem => (mem_unentered.1 hmem).2 hold, ih rest]
  | @enter entered between entered' id items others inside out target h hnew hl hin hr ihin ih =>
    obtain ⟨node, i, hn, hb, ht⟩ := h.body
    rw [List.cons_append, walkFrom_target hn hb ht hl, if_pos (mem_unentered.2 ⟨hasList_of_list hl, hnew⟩), ← unentered_cons,
      ihin (others ++ rest), ih rest, Walk.after_append]

/-- A walk yields what its list is inlined to. -/
theorem Inlined.walk (hc : a.Closed) (h : a.Inlined list out) : a.walk list = .ok ⟨out, none⟩ := by
  obtain ⟨items, entered, hl, h⟩ := h
  have hrun := h.walkFrom hc []
  rw [List.append_nil, Arena.walkFrom] at hrun
  rw [Arena.walk, hl, listIds_erase, Except.map, hrun]
  simp only [Walk.after, Walk.finished, List.append_nil]

/-- The concrete patterns of a list are what it is inlined to. -/
theorem Inlined.concretePatterns (hc : a.Closed) (h : a.Inlined list out) : a.concretePatterns list = .ok out := by
  rw [Arena.concretePatterns, h.walk hc]
  rfl

/-- Every list of a closed arena is inlined to something. -/
theorem Closed.exists_inlined (hc : a.Closed) (hl : a.HasList list) : ∃ out, a.Inlined list out := by
  obtain ⟨items, hitems⟩ := hl.list_ok
  obtain ⟨out, entered, h⟩ := hc.exists_inlines [list] items fun item hi => hc.hasNode_item hitems hi
  exact ⟨out, items, entered, hitems, h⟩

/-! ## What is met -/

/-- A node is one of the items, or stands in a list that was entered meanwhile. -/
def Met (a : Arena) (entered : List ListId) (items : List NodeId) (entered' : List ListId) (id : NodeId) : Prop :=
  id ∈ items ∨ ∃ list ∈ entered', list ∉ entered ∧ a.Holds list id

/-- No node is met where there are no items. -/
theorem not_met_nil : ¬a.Met entered [] entered x := by
  rintro (h | ⟨list, hl, hno, -⟩)
  · exact List.not_mem_nil h
  · exact hno hl

/-- The first item is met, and what the rest meets. -/
theorem met_cons : a.Met entered (id :: rest) entered' x ↔ x = id ∨ a.Met entered rest entered' x := by
  unfold Met
  rw [List.mem_cons, or_assoc]

/-- What is met when an include is inlined is the include, what its target meets, and what is met after that. -/
theorem met_enter {between : List ListId} (hl : a.list target = .ok items) (hnew : target ∉ entered)
    (hin : target :: entered ⊆ between) (hsub : between ⊆ entered') :
    a.Met entered (id :: rest) entered' x ↔
      x = id ∨ a.Met (target :: entered) items between x ∨ a.Met between rest entered' x := by
  rw [met_cons]
  refine or_congr_right ⟨?_, ?_⟩
  · rintro (h | ⟨list, hlist, hno, hh⟩)
    · exact .inr (.inl h)
    · by_cases hb : list ∈ between
      · refine .inl ?_
        by_cases heq : list = target
        · subst heq
          obtain ⟨items', hl', hx⟩ := hh
          cases hl.symm.trans hl'
          exact .inl hx
        · exact .inr ⟨list, hb, List.not_mem_cons_of_ne_of_not_mem heq hno, hh⟩
      · exact .inr (.inr ⟨list, hlist, hb, hh⟩)
  · rintro ((h | ⟨list, hlist, hno, hh⟩) | h | ⟨list, hlist, hno, hh⟩)
    · exact .inr ⟨target, hsub (hin List.mem_cons_self), hnew, items, hl, h⟩
    · exact .inr ⟨list, hsub hlist, fun h => hno (List.mem_cons_of_mem _ h), hh⟩
    · exact .inl h
    · exact .inr ⟨list, hlist, fun h => hno (hin (List.mem_cons_of_mem _ h)), hh⟩

/-- A node that is no rule may be left out where rules are looked for. -/
theorem isRule_and_or_iff (h : ¬a.IsRule id) {p : Prop} : a.IsRule x ∧ (x = id ∨ p) ↔ a.IsRule x ∧ p := by
  refine and_congr_right fun hx => or_iff_right ?_
  rintro rfl
  exact h hx

/-- The rules that are met are yielded, and nothing else is. -/
theorem Inlines.mem_iff (h : a.Inlines entered items out entered') : x ∈ out ↔ a.IsRule x ∧ a.Met entered items entered' x := by
  induction h with
  | done entered => exact iff_of_false List.not_mem_nil fun h => not_met_nil h.2
  | rule h _ ih =>
    rw [List.mem_cons, ih, met_cons]
    constructor
    · rintro (rfl | ⟨hx, hm⟩)
      · exact ⟨h, .inl rfl⟩
      · exact ⟨hx, .inr hm⟩
    · rintro ⟨hx, rfl | hm⟩
      · exact .inl rfl
      · exact .inr ⟨hx, hm⟩
  | pending h _ ih => rw [ih, met_cons, isRule_and_or_iff (not_isRule_of_pending h)]
  | again h _ _ ih => rw [ih, met_cons, isRule_and_or_iff h.not_isRule]
  | enter h hnew hl hin hr ihin ih =>
    rw [List.mem_append, ihin, ih, met_enter hl hnew hin.subset hr.subset, isRule_and_or_iff h.not_isRule, and_or_left]

/-- What the nodes stand for that are met is entered. -/
theorem Inlines.mem_entered_of_met (h : a.Inlines entered items out entered') (hm : a.Met entered items entered' x)
    (hx : a.StandsFor x list) : list ∈ entered' := by
  induction h with
  | done entered => exact absurd hm not_met_nil
  | rule h _ ih =>
    rcases met_cons.1 hm with rfl | hm
    · exact absurd h hx.not_isRule
    · exact ih hm
  | pending h _ ih =>
    rcases met_cons.1 hm with rfl | hm
    · exact absurd hx (not_standsFor_of_pending h)
    · exact ih hm
  | again h hold hr ih =>
    rcases met_cons.1 hm with rfl | hm
    · exact hr.subset (h.unique hx ▸ hold)
    · exact ih hm
  | enter h hnew hl hin hr ihin ih =>
    rcases (met_enter hl hnew hin.subset hr.subset).1 hm with rfl | hm | hm
    · exact hr.subset (hin.subset (h.unique hx ▸ List.mem_cons_self))
    · exact hr.subset (ihin hm)
    · exact ih hm

/-- Only those lists are entered to which resolved includes lead from the items. -/
theorem Inlines.reached (h : a.Inlines entered items out entered') {R : ListId → Prop} (hR : ∀ l t, R l → a.Leads l t → R t)
    (hitems : ∀ item ∈ items, ∀ t, a.StandsFor item t → R t) : ∀ l ∈ entered', l ∈ entered ∨ R l := by
  induction h with
  | done entered => exact fun l hl => .inl hl
  | rule _ _ ih => exact ih (List.forall_mem_cons.1 hitems).2
  | pending _ _ ih => exact ih (List.forall_mem_cons.1 hitems).2
  | again _ _ _ ih => exact ih (List.forall_mem_cons.1 hitems).2
  | @enter entered between entered' id items rest inside out target h hnew hl hin hr ihin ih =>
    obtain ⟨hid, hrest⟩ := List.forall_mem_cons.1 hitems
    have htarget : R target := hid target h
    intro l hmem
    rcases ih hrest l hmem with hb | hR'
    · rcases ihin (fun item hi t ht => hR target t htarget ⟨items, hl, item, hi, ht⟩) l hb with hc | hR'
      · rcases List.mem_cons.1 hc with rfl | hold
        · exact .inr htarget
        · exact .inl hold
      · exact .inr hR'
    · exact .inr hR'

/-- When a list is inlined, the lists are entered to which resolved includes lead from it. -/
theorem Inlines.mem_entered {start : ListId} (hl : a.list start = .ok items) (h : a.Inlines [start] items out entered') :
    list ∈ entered' ↔ Relation.ReflTransGen a.Leads start list := by
  constructor
  · intro hmem
    have hreached := h.reached (R := Relation.ReflTransGen a.Leads start) (fun l t hsl hlt => hsl.tail hlt)
      (fun item hi t ht => .single ⟨items, hl, item, hi, ht⟩) list hmem
    rcases hreached with hstart | hR
    · exact List.mem_singleton.1 hstart ▸ .refl
    · exact hR
  · intro hR
    induction hR with
    | refl => exact h.subset List.mem_cons_self
    | @tail l t _ hlt ih =>
      obtain ⟨items', hl', item, hi, ht⟩ := hlt
      refine h.mem_entered_of_met ?_ ht
      by_cases heq : l = start
      · subst heq
        cases hl.symm.trans hl'
        exact .inl hi
      · exact .inr ⟨l, ih, fun hm => heq (List.mem_singleton.1 hm), items', hl', hi⟩

/-- A list is inlined to the rules of the lists to which resolved includes lead from it. -/
theorem Inlined.mem_iff (h : a.Inlined list out) :
    x ∈ out ↔ a.IsRule x ∧ ∃ l, Relation.ReflTransGen a.Leads list l ∧ a.Holds l x := by
  obtain ⟨items, entered, hl, h⟩ := h
  rw [h.mem_iff]
  refine and_congr_right fun _ => ⟨?_, ?_⟩
  · rintro (hx | ⟨l, hmem, -, hh⟩)
    · exact ⟨list, .refl, items, hl, hx⟩
    · exact ⟨l, (h.mem_entered hl).1 hmem, hh⟩
  · rintro ⟨l, hR, hh⟩
    by_cases heq : l = list
    · subst heq
      obtain ⟨items', hl', hx⟩ := hh
      cases hl.symm.trans hl'
      exact .inl hx
    · exact .inr ⟨l, (h.mem_entered hl).2 hR, fun hm => heq (List.mem_singleton.1 hm), hh⟩

/-! ## Nothing is yielded twice -/

section

variable (ho : a.HoldsOnce)
include ho

/-- Two lists that hold one node are one list. -/
theorem HoldsOnce.eq_of_holds {l l' : ListId} (h : a.Holds l id) (h' : a.Holds l' id) : l = l' :=
  ho.apart l l' id h.hasList h'.hasList h h'

/-- What a list holds that was entered before is met among the items alone. -/
theorem Met.mem_items (hm : a.Met entered items entered' x) (hl : list ∈ entered) (hh : a.Holds list x) : x ∈ items := by
  rcases hm with h | ⟨l, -, hno, hh'⟩
  · exact h
  · exact absurd (ho.eq_of_holds hh hh' ▸ hl) hno

/-- Items that one list holds are inlined to rules each of which is yielded once. -/
theorem Inlines.nodup (h : a.Inlines entered items out entered') {home : ListId} (hhome : home ∈ entered)
    (hitems : ∀ item ∈ items, a.Holds home item) (hnd : items.Nodup) : out.Nodup := by
  induction h generalizing home with
  | done entered => exact List.nodup_nil
  | rule h hr ih =>
    obtain ⟨hid, hrest⟩ := List.forall_mem_cons.1 hitems
    obtain ⟨hno, hnd⟩ := List.nodup_cons.1 hnd
    refine List.nodup_cons.2 ⟨fun hmem => hno ?_, ih hhome hrest hnd⟩
    exact (hr.mem_iff.1 hmem).2.mem_items ho hhome hid
  | pending _ _ ih => exact ih hhome (List.forall_mem_cons.1 hitems).2 (List.nodup_cons.1 hnd).2
  | again _ _ _ ih => exact ih hhome (List.forall_mem_cons.1 hitems).2 (List.nodup_cons.1 hnd).2
  | @enter entered between entered' id items rest inside out target h hnew hl hin hr ihin ih =>
    obtain ⟨-, hrest⟩ := List.forall_mem_cons.1 hitems
    have hinside := ihin List.mem_cons_self (fun item hi => ⟨items, hl, hi⟩) (ho.once target items (hasList_of_list hl) hl)
    have hout := ih (hin.subset (List.mem_cons_of_mem _ hhome)) hrest (List.nodup_cons.1 hnd).2
    refine List.nodup_append'.2 ⟨hinside, hout, fun x hx hx' => ?_⟩
    -- the list that holds what is yielded inside was not entered before
    obtain ⟨l, hlb, hno, hh⟩ : ∃ l ∈ between, l ∉ entered ∧ a.Holds l x := by
      rcases (hin.mem_iff.1 hx).2 with hitem | ⟨l, hlb, hno, hh⟩
      · exact ⟨target, hin.subset List.mem_cons_self, hnew, items, hl, hitem⟩
      · exact ⟨l, hlb, fun h => hno (List.mem_cons_of_mem _ h), hh⟩
    have hitem := (hr.mem_iff.1 hx').2.mem_items ho hlb hh
    exact hno (ho.eq_of_holds (hrest x hitem) hh ▸ hhome)

/-- No rule is yielded twice where no node stands in two lists. -/
theorem Inlined.nodup (h : a.Inlined list out) : out.Nodup := by
  obtain ⟨items, entered, hl, h⟩ := h
  exact h.nodup ho List.mem_cons_self (fun item hi => ⟨items, hl, hi⟩) (ho.once list items (hasList_of_list hl) hl)

end

end Arena

end GrammarLinker
