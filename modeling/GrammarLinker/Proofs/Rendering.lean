import Mathlib.Data.List.Forall2
import GrammarLinker.Arena.Walk
import GrammarLinker.Proofs.Arena.Grounding
import GrammarLinker.Proofs.Expansion

/-!
# Walks that render expansions

An arena renders a set of files when nodes stand for records and lists for groups, an include for what its record denotes, and no two
groups have one list (`Renders`). In such an arena a walk yields rules for just the records to which the files expand
(`Renders.concretePatterns`). The lists that a walk may still enter are those of the groups that the expansion has not entered.
-/

namespace GrammarLinker

open Arena

/-- A node is the rule of a record. -/
def Arena.ShowsRule (a : Arena) (r : Record) (id : NodeId) : Prop :=
  ∃ node, a.node id = .ok node ∧ node.isRule = true ∧ node.name = r.name ∧ node.rule = r.rule

variable {files : List GrammarFile} {base : Option String} {a : Arena} {shows : Placed → NodeId → Prop}
  {hosts : Group → ListId → Prop}

/-- A node renders a record: a rule record as its rule, and an include record as an include that stands for the list of the group
that the record denotes. -/
inductive RendersRecord (files : List GrammarFile) (base : Option String) (a : Arena) (hosts : Group → ListId → Prop) (p : Placed)
    (id : NodeId) : Prop where
  | rule (h : p.record.reference = none) (hs : a.ShowsRule p.record id) : RendersRecord files base a hosts p id
  | inclusion {text : String} {reference : Reference} {group : Group} {target : ListId} (h : p.record.reference = some text)
      (hp : Reference.parse text = .ok reference) (hd : p.denoted? files base reference = some group) (hh : hosts group target)
      (hs : a.StandsFor id target) : RendersRecord files base a hosts p id

/-- Nodes render the records that they show, and lists the groups that they host, each of which has its own list. -/
structure Renders (files : List GrammarFile) (base : Option String) (a : Arena) (shows : Placed → NodeId → Prop)
    (hosts : Group → ListId → Prop) : Prop where
  record : ∀ p id, shows p id → RendersRecord files base a hosts p id
  items : ∀ group list, hosts group list → ∃ ids, a.list list = .ok ids ∧ List.Forall₂ shows group.items ids
  eq_iff : ∀ group list group' list', hosts group list → hosts group' list' → (group = group' ↔ list = list')

/-- The lists that a walk may enter are those of the groups that were not entered. -/
def Unentered (hosts : Group → ListId → Prop) (fresh : List ListId) (entered : List Group) : Prop :=
  ∀ group list, hosts group list → (list ∈ fresh ↔ group ∉ entered)

/-- Entering a list enters its group. -/
theorem Renders.unentered_erase (h : Renders files base a shows hosts) {fresh : List ListId} {entered : List Group}
    (hf : Unentered hosts fresh entered) (hnd : fresh.Nodup) {group : Group} {list : ListId} (hh : hosts group list) :
    Unentered hosts (fresh.erase list) (group :: entered) := by
  intro other l hl
  rw [hnd.mem_erase_iff, hf other l hl, List.mem_cons, not_or, h.eq_iff other l group list hl hh]

theorem RendersRecord.node_ok {p : Placed} {id : NodeId} (h : RendersRecord files base a hosts p id) :
    ∃ node, a.node id = .ok node := by
  cases h with
  | rule _ hs =>
    obtain ⟨node, hn, -⟩ := hs
    exact ⟨node, hn⟩
  | inclusion _ _ _ _ hs =>
    obtain ⟨i, hi, -⟩ := hs
    obtain ⟨node, hn, -⟩ := inclusion_eq_ok.1 hi
    exact ⟨node, hn⟩

/-- What renders a record as a rule is the rule of the record. -/
theorem RendersRecord.of_isRule {p : Placed} {id : NodeId} (h : RendersRecord files base a hosts p id) (hr : a.IsRule id) :
    p.record.reference = none ∧ a.ShowsRule p.record id := by
  cases h with
  | rule h hs => exact ⟨h, hs⟩
  | inclusion _ _ _ _ hs => exact absurd hr hs.not_isRule

/-- What renders a record as an include stands for the list of the group that the record denotes. -/
theorem RendersRecord.of_inclusion {p : Placed} {id : NodeId} {i : Include} (h : RendersRecord files base a hosts p id)
    (hi : a.inclusion id = .ok (some i)) :
    ∃ text reference group target, p.record.reference = some text ∧ Reference.parse text = .ok reference ∧
      p.denoted? files base reference = some group ∧ hosts group target ∧ i.target? = some target := by
  cases h with
  | rule _ hs =>
    obtain ⟨node, hn, hrule, -⟩ := hs
    obtain ⟨node', hn', hbody⟩ := inclusion_eq_some.1 hi
    cases hn.symm.trans hn'
    rw [Node.isRule, hbody] at hrule
    cases hrule
  | @inclusion text reference group target h hp hd hh hs =>
    obtain ⟨j, hj, ht⟩ := hs
    cases hi.symm.trans hj
    exact ⟨text, reference, group, target, h, hp, hd, hh, ht⟩

/-- The records of the group are shown in the list. -/
theorem Renders.of_inclusion (h : Renders files base a shows hosts) {p : Placed} {id : NodeId} {node : Node} {i : Include}
    (hp : shows p id) (hn : a.node id = .ok node) (hb : node.body = .inclusion i) :
    ∃ text reference group target ids, p.record.reference = some text ∧ Reference.parse text = .ok reference ∧
      p.denoted? files base reference = some group ∧ hosts group target ∧ i.target? = some target ∧ a.list target = .ok ids ∧
        List.Forall₂ shows group.items ids := by
  obtain ⟨text, reference, group, target, href, hparse, hd, hh, ht⟩ :=
    (h.record p id hp).of_inclusion (inclusion_eq_some.2 ⟨node, hn, hb⟩)
  obtain ⟨ids, hids, hitems⟩ := h.items group target hh
  exact ⟨text, reference, group, target, ids, href, hparse, hd, hh, ht, hids, hitems⟩

/-- A walk through nodes that show records comes to an end, and yields the rules of the records to which these expand. -/
theorem Renders.walkFrom (h : Renders files base a shows hosts) (fresh : List ListId) (ids : List NodeId) :
    ∀ (entered : List Group) (items : List Placed), fresh.Nodup → Unentered hosts fresh entered → List.Forall₂ shows items ids →
      ∃ out, Expands files base entered items out ∧ (a.walkFrom fresh ids).fault? = none ∧
        List.Forall₂ a.ShowsRule out (a.walkFrom fresh ids).yielded := by
  induction fresh, ids using Arena.walkFrom.induct a with
  | case1 fresh =>
    intro entered items _ _ hshow
    cases hshow
    rw [Arena.walkFrom]
    exact ⟨[], .done entered, rfl, .nil⟩
  | case2 fresh id rest fault hn =>
    intro entered items _ _ hshow
    obtain _ | ⟨hp, -⟩ := hshow
    obtain ⟨node, hnode⟩ := (h.record _ id hp).node_ok
    rw [hn] at hnode
    cases hnode
  | case3 fresh id rest node hn children hb ih =>
    intro entered items hnd hf hshow
    obtain _ | ⟨hp, hrest⟩ := hshow
    obtain ⟨href, hrule⟩ := (h.record _ id hp).of_isRule ⟨node, hn, by simp only [Node.isRule, hb]⟩
    obtain ⟨out, hout, hfault, hyield⟩ := ih entered _ hnd hf hrest
    rw [Arena.walkFrom]
    simp only [hn, hb]
    exact ⟨_, .rule href hout, hfault, .cons hrule hyield⟩
  | case4 fresh id rest node hn i hb ht ih =>
    intro entered items _ _ hshow
    obtain _ | ⟨hp, -⟩ := hshow
    obtain ⟨_, _, _, _, _, -, -, -, -, htarget, -⟩ := h.of_inclusion hp hn hb
    rw [ht] at htarget
    cases htarget
  | case5 fresh id rest node hn i hb target ht fault hl =>
    intro entered items _ _ hshow
    obtain _ | ⟨hp, -⟩ := hshow
    obtain ⟨_, _, _, _, ids, -, -, -, -, htarget, hids, -⟩ := h.of_inclusion hp hn hb
    cases ht.symm.trans htarget
    rw [hl] at hids
    cases hids
  | case6 fresh id rest node hn i hb target ht ids hl hmem ih =>
    intro entered items hnd hf hshow
    obtain _ | ⟨hp, hrest⟩ := hshow
    obtain ⟨text, reference, group, _, ids', href, hparse, hd, hh, htarget, hids, hitems⟩ := h.of_inclusion hp hn hb
    cases ht.symm.trans htarget
    cases hl.symm.trans hids
    obtain ⟨out, hout, hfault, hyield⟩ :=
      ih (group :: entered) _ (hnd.erase target) (h.unentered_erase hf hnd hh) (List.rel_append hitems hrest)
    rw [Arena.walkFrom]
    simp only [hn, hb, ht, hl, dif_pos hmem]
    exact ⟨out, .enter href hparse hd ((hf group target hh).1 hmem) hout, hfault, hyield⟩
  | case7 fresh id rest node hn i hb target ht ids hl hmem ih =>
    intro entered items hnd hf hshow
    obtain _ | ⟨hp, hrest⟩ := hshow
    obtain ⟨text, reference, group, _, _, href, hparse, hd, hh, htarget, -⟩ := h.of_inclusion hp hn hb
    cases ht.symm.trans htarget
    have hold : group ∈ entered := by
      by_contra hnew
      exact hmem ((hf group target hh).2 hnew)
    obtain ⟨out, hout, hfault, hyield⟩ := ih entered _ hnd hf hrest
    rw [Arena.walkFrom]
    simp only [hn, hb, ht, hl, dif_neg hmem]
    exact ⟨out, .again href hparse hd hold hout, hfault, hyield⟩

/-- The walk through the list of a group yields the rules of the records to which the group expands. -/
theorem Renders.concretePatterns (h : Renders files base a shows hosts) {group : Group} {list : ListId} (hh : hosts group list) :
    ∃ ids out, a.concretePatterns list = .ok ids ∧ Expands files base [group] group.items out ∧
      List.Forall₂ a.ShowsRule out ids := by
  obtain ⟨ids, hids, hitems⟩ := h.items group list hh
  have hall : Unentered hosts a.listIds [] := fun other l hl => by
    obtain ⟨_, hl', -⟩ := h.items other l hl
    exact iff_of_true (mem_listIds.2 (hasList_of_list hl')) List.not_mem_nil
  have hnd := a.nodup_listIds
  obtain ⟨out, hout, hfault, hyield⟩ := h.walkFrom (a.listIds.erase list) ids [group] group.items (hnd.erase list)
    (h.unentered_erase hall hnd hh) hitems
  refine ⟨_, out, ?_, hout, hyield⟩
  simp only [Arena.concretePatterns, Arena.walk, hids, Except.map, bind, Except.bind, Walk.all, hfault]

end GrammarLinker
