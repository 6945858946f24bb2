import Mathlib.Data.List.Nodup
import Mathlib.Data.List.Pairwise
import GrammarLinker.InterGrammar
import GrammarLinker.Proofs.Resolution.Pass

/-!
# What includes between grammars denote

Which list an include denotes is settled before anything is resolved (`InterGrammar.Designates`): a pass changes neither the
repositories nor the references of the includes that it leaves waiting. When no two grammars share a registered include, an include
denotes one list at most, and `InterGrammar.designated?` gives it.
-/

namespace GrammarLinker

open Arena

/-- A reference that only another grammar of the set can satisfy. -/
def Reference.isCrossGrammar (reference : Reference) : Bool := reference.kind.isCrossGrammar

/-- What a grammar refers to is in an arena. -/
structure Grammar.HeldBy (g : Grammar) (a : Arena) : Prop where
  root : a.HasList g.root
  repository : a.HasRepository g.repository
  includes : ∀ id ∈ g.registry.includes, a.HasNode id

/-- A grammar that is in an arena is in one with more objects. -/
theorem Grammar.HeldBy.of_within {g : Grammar} {a b : Arena} (h : g.HeldBy a) (hw : a.region.Within b.region) : g.HeldBy b :=
  ⟨hw.lists _ h.root, hw.repositories _ h.repository, fun id hid => hw.nodes id (h.includes id hid)⟩

/-- A grammar that is in an arena is there after resolution. -/
theorem Grammar.HeldBy.of_resolvesBy {g : Grammar} {a b : Arena} {P : NodeId → ListId → Prop} (h : g.HeldBy a)
    (hr : ResolvesBy P a b) : g.HeldBy b :=
  h.of_within ⟨fun _ => hr.hasNode.2, fun _ => hr.hasList.2, fun _ => hr.hasRepository.2⟩

/-- What a grammar refers to lies in a region. -/
structure Grammar.LiesIn (g : Grammar) (ρ : Region) : Prop where
  root : ρ.lists g.root
  repository : ρ.repositories g.repository
  includes : ∀ id ∈ g.registry.includes, ρ.nodes id

/-- A grammar that is in an arena lies in the region of all its objects. -/
theorem Grammar.HeldBy.liesIn {g : Grammar} {a : Arena} (h : g.HeldBy a) : g.LiesIn a.region :=
  ⟨h.root, h.repository, h.includes⟩

namespace InterGrammar

variable {gs : List Grammar} {base : Option String} {a b : Arena} {g h : Grammar} {id : NodeId} {reference : Reference}
  {list t : ListId}

/-! ## The grammars of a set -/

/-- A grammar that is found by its scope is one of the set. -/
theorem mem_of_named {scope : String} (hn : named gs scope = some g) : g ∈ gs :=
  List.mem_reverse.1 (List.mem_of_find?_eq_some hn)

/-- A grammar that is found by its scope has that scope. -/
theorem scopeName_of_named {scope : String} (hn : named gs scope = some g) : g.scopeName = scope := by
  have hfound := List.find?_some hn
  exact eq_of_beq hfound

/-- When no two items of a list have one name, an item is found by its name. -/
theorem find?_name_eq_some {ι : Type} {items : List ι} {name : ι → String} (hnd : (items.map name).Nodup) {item : ι}
    {scope : String} : items.find? (fun item => name item == scope) = some item ↔ item ∈ items ∧ name item = scope := by
  constructor
  · intro h
    exact ⟨List.mem_of_find?_eq_some h, by simpa using List.find?_some h⟩
  · rintro ⟨hmem, hname⟩
    have hsome : (items.find? fun item => name item == scope).isSome = true :=
      List.find?_isSome.2 ⟨item, hmem, by simpa using hname⟩
    obtain ⟨other, hother⟩ := Option.isSome_iff_exists.1 hsome
    have hscope : name other = scope := by simpa using List.find?_some hother
    rw [hother, List.inj_on_of_nodup_map hnd (List.mem_of_find?_eq_some hother) hmem (hscope.trans hname.symm)]

/-- With distinct scope names, the grammar of a scope name is the one that has it. -/
theorem named_eq_some (hnd : (gs.map Grammar.scopeName).Nodup) {scope : String} :
    named gs scope = some g ↔ g ∈ gs ∧ g.scopeName = scope := by
  have hreverse : (gs.reverse.map Grammar.scopeName).Nodup := by
    rw [List.map_reverse]
    exact List.nodup_reverse.2 hnd
  unfold named
  rw [find?_name_eq_some hreverse, List.mem_reverse]

/-- The includes of a set are the registered ones of its grammars. -/
theorem mem_sites {site : Grammar × NodeId} : site ∈ sites gs ↔ site.1 ∈ gs ∧ site.2 ∈ site.1.registry.includes := by
  simp only [sites, List.mem_flatMap, List.mem_map]
  constructor
  · rintro ⟨g, hg, id, hid, rfl⟩
    exact ⟨hg, hid⟩
  · rintro ⟨hg, hid⟩
    exact ⟨site.1, hg, site.2, hid, rfl⟩

/-- Two grammars share no registered include. -/
def Apart (g h : Grammar) : Prop := List.Disjoint g.registry.includes h.registry.includes

instance : Std.Symm Apart := ⟨fun _ _ h _ hi hj => h hj hi⟩

/-- No two grammars of a set share a registered include. -/
def DisjointRegistries (gs : List Grammar) : Prop := gs.Pairwise Apart

/-- A registered include belongs to one grammar. -/
theorem DisjointRegistries.unique (hd : DisjointRegistries gs) (hg : g ∈ gs) (hh : h ∈ gs)
    (hig : id ∈ g.registry.includes) (hih : id ∈ h.registry.includes) : g = h := by
  by_contra hne
  exact hd.forall hg hh hne hig hih

/-- The includes of a set are those that its grammars have registered. -/
theorem map_snd_sites (gs : List Grammar) : (sites gs).map Prod.snd = gs.flatMap fun g => g.registry.includes := by
  simp [sites, List.map_flatMap, Function.comp_def]

/-- Grammars that share no registered include, and register none twice, register no include twice together. -/
theorem nodup_sites (hd : DisjointRegistries gs) (hnd : ∀ g ∈ gs, g.registry.includes.Nodup) :
    ((sites gs).map Prod.snd).Nodup := by
  rw [map_snd_sites]
  exact List.nodup_flatMap.2 ⟨hnd, hd⟩

/-! ## Targets -/

/-- The list that a reference denotes is read from the repositories alone. -/
theorem target_congr (hr : b.repositories = a.repositories) (g : Grammar) (reference : Reference) :
    target gs base b g reference = target gs base a g reference := by
  cases reference with
  | foreignEntry scope name =>
    simp only [target]
    cases named gs scope with
    | none => rfl
    | some h => exact lookup_congr hr h.repository name
  | _ => rfl

/-- What a reference denotes can be read, and it is a list that is there. -/
theorem target_ok (hc : a.Closed) (hf : a.FiniteChains) (hgs : ∀ g ∈ gs, g.HeldBy a) (hg : g ∈ gs) (base : Option String)
    (reference : Reference) :
    ∃ found, target gs base a g reference = .ok found ∧ ∀ list, found = some list → a.HasList list := by
  have hnamed : ∀ scope list, (named gs scope).map Grammar.root = some list → a.HasList list := by
    intro scope list hl
    obtain ⟨h, hh, rfl⟩ := Option.map_eq_some_iff.1 hl
    exact (hgs h (mem_of_named hh)).root
  cases reference with
  | entry name => exact ⟨none, rfl, nofun⟩
  | self => exact ⟨none, rfl, nofun⟩
  | base =>
    cases base with
    | none => exact ⟨some g.root, rfl, fun list hl => Option.some.inj hl ▸ (hgs g hg).root⟩
    | some scope => exact ⟨_, rfl, hnamed scope⟩
  | foreign scope => exact ⟨_, rfl, hnamed scope⟩
  | foreignEntry scope name =>
    cases hn : named gs scope with
    | none => exact ⟨none, by simp only [target, hn], nofun⟩
    | some h =>
      obtain ⟨found, hfound⟩ := lookup_ok hf (hgs h (mem_of_named hn)).repository name
      exact ⟨found, by simp only [target, hn, hfound], fun list hl =>
        hc.lists_lookup (hgs h (mem_of_named hn)).repository (hl ▸ hfound)⟩

/-! ## Designated lists -/

/-- A registered include that waits for another grammar denotes a list. -/
def Designates (gs : List Grammar) (base : Option String) (a : Arena) (id : NodeId) (list : ListId) : Prop :=
  ∃ g ∈ gs, id ∈ g.registry.includes ∧ ∃ reference, a.pending? id = some reference ∧
    reference.kind.isCrossGrammar = true ∧ target gs base a g reference = .ok (some list)

/-- An include denotes one list at most. -/
theorem Designates.unique (hd : DisjointRegistries gs) (hl : Designates gs base a id list)
    (ht : Designates gs base a id t) : list = t := by
  obtain ⟨g, hg, hig, r, hr, -, hlist⟩ := hl
  obtain ⟨h, hh, hih, r', hr', -, ht⟩ := ht
  obtain rfl := hd.unique hg hh hig hih
  rw [hr, Option.some.injEq] at hr'
  subst hr'
  rw [hlist, Except.ok.injEq, Option.some.injEq] at ht
  exact ht

/-- The list that a registered include of a grammar denotes. -/
def designation (gs : List Grammar) (base : Option String) (a : Arena) (site : Grammar × NodeId) : Option ListId :=
  match a.pending? site.2 with
  | some reference =>
    if reference.kind.isCrossGrammar then
      match target gs base a site.1 reference with
      | .ok found => found
      | .error _ => none
    else none
  | none => none

/-- What a registered include denotes is the target of the reference that it waits for. -/
theorem designation_eq_some {site : Grammar × NodeId} :
    designation gs base a site = some list ↔ ∃ reference, a.pending? site.2 = some reference ∧
      reference.kind.isCrossGrammar = true ∧ target gs base a site.1 reference = .ok (some list) := by
  unfold designation
  cases a.pending? site.2 with
  | none => simp
  | some reference =>
    cases hk : reference.kind.isCrossGrammar with
    | false => simp [hk]
    | true => cases ht : target gs base a site.1 reference <;> simp [hk, ht]

/-- The list that an include denotes, if it is registered and denotes one. -/
def designated? (gs : List Grammar) (base : Option String) (a : Arena) (id : NodeId) : Option ListId :=
  (sites gs).findSome? fun site => if site.2 = id then designation gs base a site else none

/-- A list that is found for an include is one that it denotes. -/
theorem designates_of_designated? (hl : designated? gs base a id = some list) : Designates gs base a id list := by
  obtain ⟨site, hsite, hl⟩ := List.exists_of_findSome?_eq_some hl
  split at hl
  · rename_i hid
    obtain ⟨hg, hi⟩ := mem_sites.1 hsite
    exact ⟨site.1, hg, hid ▸ hi, hid ▸ designation_eq_some.1 hl⟩
  · cases hl

/-- With disjoint registries, the function finds what an include denotes. -/
theorem designated?_eq_some (hd : DisjointRegistries gs) :
    designated? gs base a id = some list ↔ Designates gs base a id list := by
  refine ⟨designates_of_designated?, ?_⟩
  intro hl
  cases hf : designated? gs base a id with
  | some t => rw [(designates_of_designated? hf).unique hd hl]
  | none =>
    obtain ⟨g, hg, hi, hdes⟩ := hl
    have hnone := List.findSome?_eq_none_iff.1 hf (g, id) (mem_sites.2 ⟨hg, hi⟩)
    rw [if_pos rfl, designation_eq_some.2 hdes] at hnone
    cases hnone

end InterGrammar

end GrammarLinker
