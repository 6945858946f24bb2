import GrammarLinker.Proofs.Arena.Closed

/-!
# Chains of enclosing repositories

`Arena.Chain a start ids` says that the chain which starts at `start` is finite and passes through `ids`, innermost first. A chain
passes through no repository twice, so an arena has at least as many repositories as the chain is long, and a lookup always answers
(`Arena.lookup_ok`). In an arena in which every repository is enclosed by an earlier one, all chains are finite
(`Arena.Nested.finiteChains`). No repository has a key twice (`Arena.KeyedIn`), whatever is added or written.
-/

namespace GrammarLinker.Arena

variable {a b : Arena}

/-- The chain of enclosing repositories that starts at a repository, or at none, is finite and passes through these. -/
inductive Chain (a : Arena) : Option RepositoryId → List RepositoryId → Prop where
  | outermost : Chain a none []
  | enclosed {id : RepositoryId} {r : Repository} {outer : List RepositoryId} (hr : a.repository id = .ok r)
      (h : Chain a r.parent outer) : Chain a (some id) (id :: outer)

/-- The chain of every repository is finite. -/
def FiniteChains (a : Arena) : Prop := ∀ id, a.HasRepository id → ∃ ids, a.Chain (some id) ids

/-- The chain of every repository of a region is finite. -/
def FiniteIn (a : Arena) (ρ : Region) : Prop := ∀ id, ρ.repositories id → ∃ ids, a.Chain (some id) ids

/-- If all chains of repositories end, those of a region do. -/
theorem FiniteChains.finiteIn (h : a.FiniteChains) {ρ : Region} (hρ : ρ.Within a.region) : a.FiniteIn ρ :=
  fun id hid => h id (hρ.repositories id hid)

/-- Every repository is enclosed by an earlier one, if by any. -/
def Nested (a : Arena) : Prop :=
  ∀ id r p, a.repository id = .ok r → r.parent = some p → p.index < id.index

/-- A start has one chain. -/
theorem Chain.unique {start : Option RepositoryId} {ids ids' : List RepositoryId} (h : a.Chain start ids)
    (h' : a.Chain start ids') : ids = ids' := by
  induction h generalizing ids' with
  | outermost => cases h'; rfl
  | enclosed hr _ ih =>
    cases h' with
    | enclosed hr' h' =>
      rw [hr, Except.ok.injEq] at hr'
      subst hr'
      rw [ih h']

/-- A chain is read from the repositories alone. -/
theorem Chain.congr (hr : b.repositories = a.repositories) {start : Option RepositoryId} {ids : List RepositoryId}
    (h : a.Chain start ids) : b.Chain start ids := by
  induction h with
  | outermost => exact .outermost
  | enclosed hread _ ih => exact .enclosed ((repository_congr hr _).trans hread) ih

/-- Every repository of a chain starts a chain of its own, which ends the chain. -/
theorem Chain.suffix {start : Option RepositoryId} {ids : List RepositoryId} (h : a.Chain start ids) :
    ∀ id ∈ ids, ∃ outer, a.Chain (some id) (id :: outer) ∧ outer.length < ids.length := by
  induction h with
  | outermost => intro id hid; exact absurd hid List.not_mem_nil
  | @enclosed id r outer hr h ih =>
    intro m hm
    rcases List.mem_cons.1 hm with rfl | hm
    · exact ⟨outer, .enclosed hr h, by simp⟩
    · obtain ⟨inner, hc, hlen⟩ := ih m hm
      exact ⟨inner, hc, by simp only [List.length_cons]; omega⟩

/-- A chain passes through no repository twice. -/
theorem Chain.nodup {start : Option RepositoryId} {ids : List RepositoryId} (h : a.Chain start ids) : ids.Nodup := by
  induction h with
  | outermost => exact List.nodup_nil
  | @enclosed id r outer hr h ih =>
    refine List.nodup_cons.2 ⟨?_, ih⟩
    intro hid
    obtain ⟨inner, hc, hlen⟩ := h.suffix id hid
    have heq := hc.unique (.enclosed hr h)
    rw [List.cons.injEq] at heq
    rw [heq.2] at hlen
    exact Nat.lt_irrefl _ hlen

/-- The repositories of a chain are there. -/
theorem Chain.hasRepository {start : Option RepositoryId} {ids : List RepositoryId} (h : a.Chain start ids) :
    ∀ id ∈ ids, a.HasRepository id := by
  induction h with
  | outermost => intro id hid; exact absurd hid List.not_mem_nil
  | enclosed hr _ ih =>
    intro m hm
    rcases List.mem_cons.1 hm with rfl | hm
    · exact hasRepository_of_repository hr
    · exact ih m hm

/-- A chain is at most as long as there are repositories. -/
theorem Chain.length_le {start : Option RepositoryId} {ids : List RepositoryId} (h : a.Chain start ids) :
    ids.length ≤ a.repositories.size :=
  length_repositories_le h.nodup h.hasRepository

/-! ## Lookup -/

/-- The list that a repository itself has for a name. -/
def entry? (a : Arena) (name : String) (id : RepositoryId) : Option ListId :=
  a.repositories[id.index]?.bind fun r => Keyed.find? name r.entries

/-- An entry is looked up in the repository that is read. -/
theorem entry?_of_repository {id : RepositoryId} {r : Repository} (hr : a.repository id = .ok r) (name : String) :
    a.entry? name id = Keyed.find? name r.entries := by
  unfold entry?
  rw [repository_eq_ok.1 hr, Option.bind_some]

/-- Entries depend on the repositories alone. -/
theorem entry?_congr (hr : b.repositories = a.repositories) (name : String) (id : RepositoryId) :
    b.entry? name id = a.entry? name id := by
  unfold entry?
  rw [hr]

/-- A lookup that may take as many steps as its chain is long finds what the first repository has that has the name. -/
theorem Chain.lookupWithin_eq {start : Option RepositoryId} {ids : List RepositoryId} (h : a.Chain start ids)
    (name : String) {steps : Nat} (hs : ids.length ≤ steps) :
    a.lookupWithin name steps start = .ok (ids.findSome? (a.entry? name)) := by
  induction h generalizing steps with
  | outermost => cases steps <;> rfl
  | @enclosed id r outer hr h ih =>
    obtain ⟨steps, rfl⟩ : ∃ n, steps = n + 1 := ⟨steps - 1, by simp only [List.length_cons] at hs; omega⟩
    simp only [lookupWithin, hr, bind, Except.bind, List.findSome?_cons, entry?_of_repository hr]
    cases hf : Keyed.find? name r.entries with
    | some list => rfl
    | none => exact ih (Nat.le_of_succ_le_succ hs)

/-- A lookup along a finite chain finds what the first repository has that has the name. -/
theorem Chain.lookup_eq {id : RepositoryId} {ids : List RepositoryId} (h : a.Chain (some id) ids) (name : String) :
    a.lookup id name = .ok (ids.findSome? (a.entry? name)) :=
  h.lookupWithin_eq name h.length_le

/-- In an arena with finite chains a lookup always answers. -/
theorem lookup_ok (h : a.FiniteChains) {id : RepositoryId} (hid : a.HasRepository id) (name : String) :
    ∃ found, a.lookup id name = .ok found := by
  obtain ⟨ids, hc⟩ := h id hid
  exact ⟨_, hc.lookup_eq name⟩

/-- A lookup in an outermost repository reads its entries. -/
theorem lookup_outermost {id : RepositoryId} {r : Repository} (hr : a.repository id = .ok r) (hp : r.parent = none)
    (name : String) : a.lookup id name = .ok (Keyed.find? name r.entries) := by
  obtain ⟨n, hn⟩ := Nat.exists_eq_add_one_of_ne_zero (Nat.ne_zero_of_lt (hasRepository_of_repository hr))
  unfold lookup
  rw [hn, lookupWithin]
  simp only [hr, bind, Except.bind]
  cases hf : Keyed.find? name r.entries with
  | some list => rfl
  | none =>
    simp only [hp]
    cases n <;> rfl

/-- A lookup that starts in a region whose repositories refer into it finds a list of the region. -/
theorem lists_lookup {ρ : Region} (h : ∀ id r, a.repository id = .ok r → ρ.repositories id → r.RefersInto ρ) {id : RepositoryId}
    (hid : ρ.repositories id) {name : String} {list : ListId} (hl : a.lookup id name = .ok (some list)) : ρ.lists list := by
  have key : ∀ (steps : Nat) (start : Option RepositoryId), (∀ r, start = some r → ρ.repositories r) →
      a.lookupWithin name steps start = .ok (some list) → ρ.lists list := by
    intro steps
    induction steps with
    | zero =>
      intro start _ hl
      cases start with
      | none => cases hl
      | some r => cases hr : a.repository r <;> simp [lookupWithin, hr, bind, Except.bind] at hl
    | succ steps ih =>
      intro start hstart hl
      cases start with
      | none => cases hl
      | some r =>
        cases hr : a.repository r with
        | error fault => simp [lookupWithin, hr, bind, Except.bind] at hl
        | ok repository =>
          have hrefers := h r repository hr (hstart r rfl)
          simp only [lookupWithin, hr, bind, Except.bind] at hl
          cases hf : Keyed.find? name repository.entries with
          | some found =>
            simp only [hf, pure, Except.pure, Except.ok.injEq, Option.some.injEq] at hl
            exact hrefers.2 (name, list) (hl ▸ Keyed.mem_of_find? hf)
          | none =>
            simp only [hf] at hl
            exact ih repository.parent hrefers.1 hl
  exact key _ _ (fun r hr => Option.some.inj hr ▸ hid) hl

/-- A name that is found in a closed region denotes a list of the region. -/
theorem ClosedIn.lists_lookup {ρ : Region} (h : a.ClosedIn ρ) {id : RepositoryId} (hid : ρ.repositories id) {name : String}
    {list : ListId} (hl : a.lookup id name = .ok (some list)) : ρ.lists list :=
  Arena.lists_lookup h.repository hid hl

/-- A lookup reads repositories only. -/
theorem lookup_congr (h : b.repositories = a.repositories) (id : RepositoryId) (name : String) :
    b.lookup id name = a.lookup id name := by
  have hr : b.repository = a.repository := by
    funext r
    simp only [Arena.repository, h]
  have hw : ∀ (steps : Nat) (start : Option RepositoryId),
      b.lookupWithin name steps start = a.lookupWithin name steps start := by
    intro steps
    induction steps with
    | zero => intro start; cases start <;> simp only [lookupWithin, hr]
    | succ steps ih => intro start; cases start <;> simp only [lookupWithin, hr, ih]
  simp only [lookup, h, hw]

/-! ## Repositories that are enclosed by earlier ones -/

/-- In a closed arena where every repository is enclosed by an earlier one, all chains are finite. -/
theorem Nested.finiteChains (h : a.Nested) (hc : a.Closed) : a.FiniteChains := by
  have key : ∀ (n : Nat) (id : RepositoryId), id.index < n → a.HasRepository id → ∃ ids, a.Chain (some id) ids := by
    intro n
    induction n with
    | zero => intro id hid; exact absurd hid (Nat.not_lt_zero _)
    | succ n ih =>
      intro id hid hhas
      obtain ⟨r, hr⟩ := hhas.repository_ok
      cases hp : r.parent with
      | none => exact ⟨[id], .enclosed hr (hp ▸ .outermost)⟩
      | some p =>
        have hlt := h id r p hr hp
        obtain ⟨ids, hids⟩ := ih p (by omega) (hc.hasRepository_parent hr hp)
        exact ⟨id :: ids, .enclosed hr (hp ▸ hids)⟩
  exact fun id hid => key (id.index + 1) id (Nat.lt_succ_self _) hid

/-- Nesting depends on the repositories alone. -/
theorem Nested.congr (h : a.Nested) (hr : b.repositories = a.repositories) : b.Nested := by
  intro id r p hread hpar
  rw [repository_congr hr] at hread
  exact h id r p hread hpar

/-- A new repository inside one that was there is nested. -/
theorem Nested.allocRepository (h : a.Nested) {parent : Option RepositoryId} (hp : ∀ p, parent = some p → a.HasRepository p) :
    (a.allocRepository parent).2.Nested := by
  intro id r p hr hpar
  rcases repository_allocRepository.1 hr with hr | ⟨rfl, rfl⟩
  · exact h id r p hr hpar
  · exact hp p hpar

/-- An entry does not change how repositories are nested. -/
theorem Nested.insertEntry (h : a.Nested) {id : RepositoryId} {key : String} {list : ListId}
    (hb : a.insertEntry id key list = .ok b) : b.Nested := by
  obtain ⟨-, -, -, old, hold, hrepo⟩ := insertEntry_eq_ok hb
  intro m r p hread hpar
  rw [hrepo] at hread
  split at hread
  · rename_i heq
    cases hread
    exact h m old p (heq ▸ hold) hpar
  · exact h m r p hread hpar

/-! ## Repositories that have a key once -/

/-- No repository of a region has two entries of one key. -/
def KeyedIn (a : Arena) (ρ : Region) : Prop :=
  ∀ id r, a.repository id = .ok r → ρ.repositories id → (Keyed.keys r.entries).Nodup

variable {ρ σ : Region}

section

variable (h : a.KeyedIn ρ) (hσ : ∀ id, a.HasRepository id → σ.repositories id → ρ.repositories id)
include h hσ

/-- Which keys there are depends on the repositories alone. -/
theorem KeyedIn.congr (hr : b.repositories = a.repositories) : b.KeyedIn σ := by
  intro id r hread hid
  rw [repository_congr hr] at hread
  exact h id r hread (hσ id (hasRepository_of_repository hread) hid)

/-- A repository that is added has no entries. -/
theorem KeyedIn.allocRepository (parent : Option RepositoryId) : (a.allocRepository parent).2.KeyedIn σ := by
  intro id r hread hid
  rcases repository_allocRepository.1 hread with hold | ⟨rfl, rfl⟩
  · exact h id r hold (hσ id (hasRepository_of_repository hold) hid)
  · exact List.nodup_nil

/-- A key is given a list once. -/
theorem KeyedIn.insertEntry {id : RepositoryId} {key : String} {list : ListId} (hb : a.insertEntry id key list = .ok b) :
    b.KeyedIn σ := by
  obtain ⟨-, -, -, old, hold, hput⟩ := insertEntry_eq_ok hb
  intro m r hread hm
  rw [hput] at hread
  split at hread
  · rename_i heq
    cases hread
    exact Keyed.keys_put_nodup _ _ (h m old (heq ▸ hold) (hσ m (heq ▸ hasRepository_of_repository hold) hm))
  · exact h m r hread (hσ m (hasRepository_of_repository hread) hm)

end

/-- What was there keeps its keys, so that it is enough to look at what was added. -/
theorem KeyedIn.of_since (h : a.KeyedIn a.region) (hx : a.Extends b) (hs : b.KeyedIn (b.since a)) : b.KeyedIn b.region := by
  intro id r hr hid
  by_cases ha : a.HasRepository id
  · obtain ⟨old, ho⟩ := ha.repository_ok
    rw [hx.repository id old ho, Except.ok.injEq] at hr
    exact hr ▸ h id old ho ha
  · exact hs id r hr ⟨ha, hid⟩

end GrammarLinker.Arena
