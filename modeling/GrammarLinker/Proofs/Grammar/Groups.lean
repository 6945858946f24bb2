import GrammarLinker.Proofs.Grammar.Build
import GrammarLinker.Proofs.Keyed

/-!
# The groups of a grammar

A grammar that shows a file has a list for each group that stands in the file itself, the root and the entries of the repository
(`Grammar.Hosts`). The list shows the records of the group, and no two groups share one.
-/

namespace GrammarLinker

open Arena

namespace Grammar

variable {g : Grammar} {file : GrammarFile} {a : Arena} {group group' : Group} {list list' : ListId}

/-- A list is the one that a grammar has for a group of its file. -/
inductive Hosts (g : Grammar) (file : GrammarFile) (a : Arena) : Group → ListId → Prop where
  | root : Hosts g file a (.root file) g.root
  | entry {r : Repository} {key : String} {content : Record} {list : ListId} (hr : a.repository g.repository = .ok r)
      (hc : Keyed.find? key (Keyed.ofPairs file.repository) = some content) (hl : Keyed.find? key r.entries = some list) :
      Hosts g file a (.entry file [file.repository] key content) list

/-- A record in the file itself, shown by a node. -/
structure ShowsAt (g : Grammar) (file : GrammarFile) (a : Arena) (p : Placed) (id : NodeId) : Prop where
  file_eq : p.file = file
  repositories_eq : p.repositories = [file.repository]
  node : a.Shows (some g.repository) p.record id

/-- A key denotes a group of the file when the repository of the grammar has a list for it, which is the list of the group. -/
theorem Shows.hosts_lookup (h : g.Shows file a) {key : String} (hl : a.lookup g.repository key = .ok (some list)) :
    ∃ group, file.entry? key [file.repository] = some group ∧ g.Hosts file a group list := by
  obtain ⟨pairs, hshow, -, hr⟩ := h.entries
  rw [lookup_outermost hr rfl, Except.ok.injEq] at hl
  have hrelated : Keyed.Related (fun r list => a.ShowsAll (some g.repository) r.members list) file.repository pairs := hshow
  rcases hrelated.ofPairs.find?_iff key with ⟨-, hnone⟩ | ⟨content, w, hc, -, -⟩
  · rw [hnone] at hl
    cases hl
  · exact ⟨.entry file [file.repository] key content, by simp only [GrammarFile.entry?, hc], .entry hr hc hl⟩

/-- The list of a group shows the records of the group. -/
theorem Hosts.items (hh : g.Hosts file a group list) (h : g.Shows file a) :
    ∃ items, a.list list = .ok items ∧ List.Forall₂ (g.ShowsAt file a) group.items items := by
  cases hh with
  | root =>
    obtain ⟨items, hitems, hshow⟩ := h.patterns
    exact ⟨items, hitems, List.forall₂_map_left_iff.2 (hshow.imp fun r id hid => ⟨rfl, rfl, hid⟩)⟩
  | @entry r key content list hr hc hl =>
    obtain ⟨pairs, hentries, -, hr'⟩ := h.entries
    rw [hr, Except.ok.injEq] at hr'
    subst hr'
    have hrelated : Keyed.Related (fun r list => a.ShowsAll (some g.repository) r.members list) file.repository pairs := hentries
    rcases hrelated.ofPairs.find?_iff key with ⟨hnone, -⟩ | ⟨v, w, hv, hw, items, hitems, hshow⟩
    · rw [hnone] at hc
      cases hc
    · cases hv.symm.trans hc
      cases hw.symm.trans hl
      exact ⟨items, hitems, List.forall₂_map_left_iff.2 (hshow.imp fun r id hid => ⟨rfl, rfl, hid⟩)⟩

/-- Two groups have the same list only if they are the same, and a group has one list. -/
theorem Hosts.eq_iff (hh : g.Hosts file a group list) (hh' : g.Hosts file a group' list') (h : g.Shows file a) :
    group = group' ↔ list = list' := by
  obtain ⟨pairs, -, hnd, hread⟩ := h.entries
  have hmem : ∀ {r key list}, a.repository g.repository = .ok r → Keyed.find? key r.entries = some list →
      (key, list) ∈ pairs := by
    intro r key list hr hl
    rw [hr, Except.ok.injEq] at hread
    subst hread
    exact Keyed.mem_of_mem_ofPairs (Keyed.mem_of_find? hl)
  have hroot : ∀ {r key list}, a.repository g.repository = .ok r → Keyed.find? key r.entries = some list → g.root ≠ list :=
    fun hr hl heq => (List.nodup_cons.1 hnd).1 (heq ▸ List.mem_map_of_mem (f := Prod.snd) (hmem hr hl))
  cases hh with
  | root =>
    cases hh' with
    | root => exact iff_of_true rfl rfl
    | entry hr hc hl => exact iff_of_false nofun (hroot hr hl)
  | @entry r key content list hr hc hl =>
    cases hh' with
    | root => exact iff_of_false nofun (hroot hr hl).symm
    | @entry r' key' content' list' hr' hc' hl' =>
      cases hr.symm.trans hr'
      constructor
      · rintro ⟨⟩
        exact Option.some.inj (hl.symm.trans hl')
      · rintro rfl
        have hkey : (key, list) = (key', list) :=
          List.inj_on_of_nodup_map (List.nodup_cons.1 hnd).2 (hmem hr hl) (hmem hr' hl') rfl
        cases hkey
        cases hc.symm.trans hc'
        rfl

end Grammar

end GrammarLinker
