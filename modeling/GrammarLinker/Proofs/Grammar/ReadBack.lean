import Mathlib
import GrammarLinker.Proofs.Arena.Forest
import GrammarLinker.Proofs.Grammar.Scoping

/-!
# Reading a grammar back

The records of a list are read off the arena again (`Arena.records`): an include node is an include record with its reference and its
name, and a rule node a rule record with its name, what it matches, and the records of its children. Of a grammar that was built this
gives the records of its file, but for what stands nowhere in the tree (`Record.outline`): the root gives the patterns, and the entries of
the repository give what the entries of the file stand for (`Grammar.build_faithful`).

A list is read through a number of levels. That they are enough is seen from the ids: what is in a rule is younger than the rule, so that
the levels that are left are at least as many as the nodes from here on (`Record.LaysItems.recordsWithin`).
-/

namespace GrammarLinker

open Arena

/-! ## Outlines -/

namespace Record

mutual

/-- A record without its own repository and those of the records in it, and an include without all but its reference and its name. -/
def outline : Record → Record
  | ⟨some text, name, _, _, _⟩ => { reference := some text, name }
  | ⟨none, name, rule, patterns, _⟩ => { name, rule, patterns := outlines patterns }

/-- The outlines of records. -/
def outlines : List Record → List Record
  | [] => []
  | r :: rest => r.outline :: outlines rest

end

/-- Records are outlined one by one. -/
theorem outlines_eq_map (records : List Record) : outlines records = records.map outline := by
  induction records with
  | nil => rfl
  | cons r rest ih => rw [outlines, ih, List.map_cons]

end Record

/-! ## Reading records -/

namespace Arena

/-- The records of a list, read through at most `levels` lists one inside the other. -/
def recordsWithin (a : Arena) : (levels : Nat) → ListId → Except Fault (List Record)
  | 0, _ => .error .endless
  | levels + 1, list => do
    (← a.list list).mapM fun id => do
      let node ← a.node id
      match node.body with
      | .rule children => return { name := node.name, rule := node.rule, patterns := ← a.recordsWithin levels children }
      | .inclusion i => return { reference := some i.reference, name := node.name }

/-- The records of a list. More rules, each among the children of the one before, than there are nodes have one among them twice. -/
def records (a : Arena) (list : ListId) : Except Fault (List Record) :=
  a.recordsWithin (a.nodes.size + 1) list

/-- The record of a node, with at most `levels` lists one inside the other below it. -/
def recordWithin (a : Arena) (levels : Nat) (id : NodeId) : Except Fault Record := do
  let node ← a.node id
  match node.body with
  | .rule children => return { name := node.name, rule := node.rule, patterns := ← a.recordsWithin levels children }
  | .inclusion i => return { reference := some i.reference, name := node.name }

/-- Reading a list back reads its nodes back, one level further in. -/
theorem recordsWithin_succ {a : Arena} {list : ListId} {items : List NodeId} (hl : a.list list = .ok items) (levels : Nat) :
    a.recordsWithin (levels + 1) list = items.mapM (a.recordWithin levels) := by
  rw [recordsWithin, hl]
  rfl

end Arena

section

variable {a : Arena} {ρ : Region} {leaf : List Enclosure → String → NodeId → Prop} {Γ : List Enclosure}

/-- A node that is laid out for an include is read as the outline of the include. -/
theorem Arena.LaysInclude.recordWithin {name : Option String} {text : String} {id : NodeId} (h : a.LaysInclude ρ name text Γ id)
    (levels : Nat) : a.recordWithin levels id = .ok { reference := some text, name } := by
  obtain ⟨-, node, state, hn, rfl, hb⟩ := h
  simp only [Arena.recordWithin, hn, hb, bind, Except.bind]
  rfl

/-- A node that is laid out for a rule is read as the rule with the records of its children. -/
theorem Arena.LaysRule.recordWithin {name : Option String} {rule : MatchRule} {id : NodeId} {items : List NodeId} {levels : Nat}
    {patterns : List Record} (h : a.LaysRule ρ name rule id items) (hitems : items.mapM (a.recordWithin levels) = .ok patterns) :
    a.recordWithin (levels + 1) id = .ok { name, rule, patterns } := by
  obtain ⟨-, node, children, hn, rfl, rfl, hb, -, hl⟩ := h
  simp only [Arena.recordWithin, hn, hb, bind, Except.bind, recordsWithin_succ hl, hitems]
  rfl

/-- What is laid out for the children of a rule is laid out for them within some repositories. -/
theorem Record.LaysBody.exists_laysItems {patterns : List Record} {nested : List (String × Record)} {items : List NodeId}
    (h : Record.LaysBody a ρ leaf patterns nested Γ items) : ∃ Γ', Record.LaysItems a ρ leaf patterns Γ' items := by
  unfold Record.LaysBody at h
  split at h
  · exact ⟨Γ, h⟩
  · obtain ⟨e, -, -, hitems⟩ := h
    exact ⟨e :: Γ, hitems⟩

/-- The children of a rule are younger than the rule. -/
theorem Arena.LaysRule.later {name : Option String} {rule : MatchRule} {id : NodeId} {items : List NodeId}
    (h : a.LaysRule ρ name rule id items) (hf : a.ForestIn ρ) : ∀ item ∈ items, id.index + 1 ≤ item.index := by
  obtain ⟨hid, node, children, hn, -, -, hb, hchildren, hl⟩ := h
  exact fun item hi => hf.later children item id hchildren hid ⟨items, hl, hi⟩ ⟨node, hn, hb⟩

mutual

/-- A node that is laid out for a record is read as the outline of the record. -/
theorem Record.Lays.recordWithin (hf : a.ForestIn ρ) : ∀ {r : Record} {Γ : List Enclosure} {id : NodeId} {levels : Nat}, r.Lays a ρ leaf Γ id →
    a.nodes.size ≤ id.index + levels → a.recordWithin levels id = .ok r.outline
  | ⟨some text, name, rule, patterns, nested⟩, Γ, id, levels, h, _ => by
    rw [Record.Lays] at h
    rw [Record.outline]
    exact h.1.recordWithin levels
  | ⟨none, name, rule, patterns, nested⟩, Γ, id, levels, h, hlevels => by
    obtain ⟨items, hrule, hbody⟩ := Record.lays_rule.1 h
    obtain ⟨Γ', hitems⟩ := hbody.exists_laysItems
    have hid : id.index < a.nodes.size := by
      obtain ⟨-, node, _, hn, -⟩ := hrule
      exact hasNode_of_node hn
    obtain ⟨levels, rfl⟩ : ∃ l, levels = l + 1 := ⟨levels - 1, by omega⟩
    rw [Record.outline]
    exact hrule.recordWithin (Record.LaysItems.recordsWithin hf hitems (hrule.later hf) (by omega))

/-- Nodes that are laid out for records are read as their outlines, if there are enough levels for the nodes that are left. -/
theorem Record.LaysItems.recordsWithin (hf : a.ForestIn ρ) : ∀ {records : List Record} {Γ : List Enclosure} {items : List NodeId}
    {levels first : Nat}, Record.LaysItems a ρ leaf records Γ items → (∀ item ∈ items, first ≤ item.index) → a.nodes.size ≤ first + levels →
    items.mapM (a.recordWithin levels) = .ok (Record.outlines records)
  | [], Γ, items, levels, first, h, _, _ => by
    rw [Record.LaysItems] at h
    rw [h]
    rfl
  | r :: rest, Γ, items, levels, first, h, hfirst, hlevels => by
    rw [Record.LaysItems] at h
    obtain ⟨id, ids, rfl, hr, hrest⟩ := h
    obtain ⟨hid, hids⟩ := List.forall_mem_cons.1 hfirst
    rw [List.mapM_cons, Record.Lays.recordWithin hf hr (by omega), Record.LaysItems.recordsWithin hf hrest hids hlevels, Record.outlines]
    rfl

end

/-- A list that is laid out for records is read as their outlines. -/
theorem Record.LaysItems.records {records : List Record} {list : ListId} {items : List NodeId}
    (h : Record.LaysItems a ρ leaf records Γ items) (hf : a.ForestIn ρ) (hl : a.list list = .ok items) :
    a.records list = .ok (records.map Record.outline) := by
  rw [Arena.records, recordsWithin_succ hl, ← Record.outlines_eq_map]
  exact Record.LaysItems.recordsWithin hf h (fun item _ => Nat.zero_le item.index) (Nat.le_add_left _ _)

end

namespace Grammar

variable {g : Grammar} {file : GrammarFile} {a b : Arena}

/-- A grammar that was built is read back as its file: its root gives the outlines of the file's patterns, and its repository has, in the
order of the file, the keys of the file's repository, with a list each that gives the outlines of what the entry stands for. Of a key that
is repeated the last entry counts. -/
theorem build_faithful (hrun : (build file).start a = .ok (.ok g, b)) :
    b.records g.root = .ok (file.patterns.map Record.outline) ∧
    ∃ r, b.repository g.repository = .ok r ∧ Keyed.Related (fun entry list => b.records list = .ok (entry.members.map Record.outline))
      (Keyed.ofPairs file.repository) r.entries := by
  obtain ⟨-, -, -, hbuilt, -⟩ := LinkM.outcome (build_ok file a) hrun
  have hg := hbuilt g rfl
  have hf := hg.sound.forest
  obtain ⟨lists, items, ⟨-, hrepository⟩, hentries, ⟨-, hroot⟩, hitems⟩ := hg.layout
  refine ⟨hitems.records hf hroot, _, hrepository, hentries.related.ofPairs.imp fun entry list h => ⟨h.1, ?_⟩⟩
  obtain ⟨-, members, ⟨-, hlist⟩, hmembers⟩ := h
  exact hmembers.records hf hlist

/-- A file with an include that has patterns of its own, a rule with a repository and a rule in it, an entry that is a bare group and one
that is not. -/
def assorted : GrammarFile where
  scopeName := "s"
  patterns := [{ reference := some "#pair", name := some "x", patterns := [.including "$nobody"] },
    { name := some "rule", rule := { beginExpr := some "a", endExpr := some "b" }, patterns := [.including "#inner",
      .group [.including "$self"]], repository := [("inner", .matching "i" "y")] }]
  repository := [("pair", .group [.matching "p" "1", .matching "q" "2"]), ("single", { name := some "c", patterns := [.including "t"] })]

/-- What is read back of this file: an include has lost its patterns, a rule its repository, and entries stand for one record or several.
-/
theorem build_faithful_assorted : ∃ g b, (build assorted).start {} = .ok (.ok g, b) ∧
    b.records g.root = .ok [{ reference := some "#pair", name := some "x" },
      { name := some "rule", rule := { beginExpr := some "a", endExpr := some "b" },
        patterns := [.including "#inner", .group [.including "$self"]] }] ∧
    ∃ r pair single, b.repository g.repository = .ok r ∧ r.entries = [("pair", pair), ("single", single)] ∧
      b.records pair = .ok [.matching "p" "1", .matching "q" "2"] ∧
      b.records single = .ok [{ name := some "c", patterns := [.including "t"] }] := by
  have hread : ((build assorted).start {}).map (fun p => p.1.map Grammar.scopeName) = .ok (.ok "s") := by cbv
  cases hrun : (build assorted).start {} with
  | error fault => rw [hrun] at hread; cases hread
  | ok p =>
    obtain ⟨answer, b⟩ := p
    rw [hrun] at hread
    cases answer with
    | error e => cases hread
    | ok g =>
      obtain ⟨hroot, ⟨entries, parent⟩, hr, hentries⟩ := build_faithful hrun
      obtain _ | ⟨⟨hpair, hpairRecords⟩, _ | ⟨⟨hsingle, hsingleRecords⟩, _ | _⟩⟩ := hentries
      rename_i pair single
      obtain ⟨key, pair⟩ := pair
      obtain ⟨key', single⟩ := single
      obtain rfl : key = "pair" := hpair
      obtain rfl : key' = "single" := hsingle
      exact ⟨g, b, rfl, hroot, _, pair, single, hr, rfl, hpairRecords, hsingleRecords⟩

end Grammar

end GrammarLinker
