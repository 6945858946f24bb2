import Mathlib
import GrammarLinker.Proofs.Keyed
import GrammarLinker.Record.Json

/-!
# Keys of files

In a file no repository has a key twice, at any depth (`GrammarFile.Distinct`), and no map of captures either (`GrammarFile.KeysOnce`):
these are maps, and what is read of a text is made one (`GrammarFile.keysOnce_of_ofJson`).
-/

namespace GrammarLinker

namespace Record

mutual

/-- No repository in a record has a key twice. -/
def Distinct : Record → Prop
  | ⟨_, _, _, patterns, repository⟩ => DistinctItems patterns ∧ DistinctEntries repository

/-- No repository in records has a key twice. -/
def DistinctItems : List Record → Prop
  | [] => True
  | r :: rest => r.Distinct ∧ DistinctItems rest

/-- No key of a repository stands for two entries, and so in every repository inside. -/
def DistinctEntries : List (String × Record) → Prop
  | [] => True
  | (key, r) :: rest => key ∉ Keyed.keys rest ∧ r.Distinct ∧ DistinctEntries rest

end

end Record

/-- No repository of a file has a key twice. -/
def GrammarFile.Distinct (file : GrammarFile) : Prop :=
  Record.DistinctItems file.patterns ∧ Record.DistinctEntries file.repository

/-! ## Captures -/

/-- No map of captures of a rule has a key twice. -/
structure MatchRule.KeysOnce (rule : MatchRule) : Prop where
  captures : (Keyed.keys rule.captures).Nodup
  beginCaptures : (Keyed.keys rule.beginCaptures).Nodup
  endCaptures : (Keyed.keys rule.endCaptures).Nodup
  whileCaptures : (Keyed.keys rule.whileCaptures).Nodup

namespace Record

mutual

/-- No map in a record has a key twice, be it a repository or one of captures. -/
def KeysOnce : Record → Prop
  | ⟨_, _, rule, patterns, repository⟩ =>
    rule.KeysOnce ∧ KeysOnceItems patterns ∧ (Keyed.keys repository).Nodup ∧ KeysOnceEntries repository

/-- No map in records has a key twice. -/
def KeysOnceItems : List Record → Prop
  | [] => True
  | r :: rest => r.KeysOnce ∧ KeysOnceItems rest

/-- No map in the entries of a repository has a key twice. -/
def KeysOnceEntries : List (String × Record) → Prop
  | [] => True
  | (_, r) :: rest => r.KeysOnce ∧ KeysOnceEntries rest

end

/-- No map in records has a key twice exactly when this holds of each of them. -/
theorem keysOnceItems_iff {records : List Record} : KeysOnceItems records ↔ ∀ r ∈ records, r.KeysOnce := by
  induction records with
  | nil => simp [KeysOnceItems]
  | cons r rest ih => rw [KeysOnceItems, ih, List.forall_mem_cons]

/-- No map in entries has a key twice exactly when this holds of what each of them stands for. -/
theorem keysOnceEntries_iff {entries : List (String × Record)} : KeysOnceEntries entries ↔ ∀ entry ∈ entries, entry.2.KeysOnce := by
  induction entries with
  | nil => simp [KeysOnceEntries]
  | cons entry rest ih => rw [KeysOnceEntries, ih, List.forall_mem_cons]

/-- What it takes for no map in a record to have a key twice. -/
theorem keysOnce_iff {r : Record} : r.KeysOnce ↔ r.rule.KeysOnce ∧ (∀ p ∈ r.patterns, p.KeysOnce) ∧
    (Keyed.keys r.repository).Nodup ∧ ∀ entry ∈ r.repository, entry.2.KeysOnce := by
  obtain ⟨reference, name, rule, patterns, repository⟩ := r
  rw [KeysOnce, keysOnceItems_iff, keysOnceEntries_iff]

mutual

/-- If no map in a record has a key twice, no repository in it does. -/
theorem KeysOnce.distinct : {r : Record} → r.KeysOnce → r.Distinct
  | ⟨_, _, _, patterns, repository⟩, h => by
    rw [KeysOnce] at h
    rw [Distinct]
    exact ⟨KeysOnceItems.distinct h.2.1, KeysOnceEntries.distinct h.2.2.1 h.2.2.2⟩

/-- So it is with records. -/
theorem KeysOnceItems.distinct : {records : List Record} → KeysOnceItems records → DistinctItems records
  | [], _ => by rw [DistinctItems]; trivial
  | r :: rest, h => by
    rw [KeysOnceItems] at h
    rw [DistinctItems]
    exact ⟨h.1.distinct, KeysOnceItems.distinct h.2⟩

/-- So it is with entries whose keys are distinct. -/
theorem KeysOnceEntries.distinct : {entries : List (String × Record)} → (Keyed.keys entries).Nodup → KeysOnceEntries entries →
    DistinctEntries entries
  | [], _, _ => by rw [DistinctEntries]; trivial
  | (_, r) :: rest, hkeys, h => by
    rw [KeysOnceEntries] at h
    rw [DistinctEntries]
    obtain ⟨hnew, hkeys⟩ := List.nodup_cons.1 hkeys
    exact ⟨hnew, h.1.distinct, KeysOnceEntries.distinct hkeys h.2⟩

end

end Record

/-- No map in a file has a key twice. -/
def GrammarFile.KeysOnce (file : GrammarFile) : Prop :=
  Record.KeysOnceItems file.patterns ∧ (Keyed.keys file.repository).Nodup ∧ Record.KeysOnceEntries file.repository

/-- No map in a file has a key twice exactly when this holds of its patterns, of its repository and of what is in that. -/
theorem GrammarFile.keysOnce_iff {file : GrammarFile} : file.KeysOnce ↔ (∀ p ∈ file.patterns, p.KeysOnce) ∧
    (Keyed.keys file.repository).Nodup ∧ ∀ entry ∈ file.repository, entry.2.KeysOnce := by
  rw [KeysOnce, Record.keysOnceItems_iff, Record.keysOnceEntries_iff]

/-- If no map in a file has a key twice, no repository in it does. -/
theorem GrammarFile.KeysOnce.distinct {file : GrammarFile} (h : file.KeysOnce) : file.Distinct :=
  ⟨h.1.distinct, h.2.2.distinct h.2.1⟩

/-! ## Files that are read -/

/-- A map that is made of pairs has no key twice. -/
theorem Keyed.keys_ofPairs_nodup {α : Type} (pairs : List (String × α)) : (keys (ofPairs pairs)).Nodup := by
  have hfold : ∀ entries : List (String × α), (keys entries).Nodup →
      (keys (pairs.foldl (fun entries pair => put pair.1 pair.2 entries) entries)).Nodup := by
    induction pairs with
    | nil => exact fun _ h => h
    | cons pair rest ih => exact fun entries h => ih _ (keys_put_nodup _ _ h)
  exact hfold [] List.nodup_nil

namespace Json

variable {α : Type} {item : Json → Option α} {v : Option Json} {P : α → Prop}

/-- What holds of every item that is read holds of all that are. -/
theorem forall_of_mapM {items : List Json} {xs : List α} (h : items.mapM item = some xs) (hp : ∀ j x, item j = some x → P x) :
    ∀ x ∈ xs, P x := by
  induction items generalizing xs with
  | nil =>
    cases h
    exact nofun
  | cons j rest ih =>
    rw [List.mapM_cons] at h
    obtain ⟨x, hx, h⟩ := Option.bind_eq_some_iff.1 h
    obtain ⟨others, hothers, h⟩ := Option.bind_eq_some_iff.1 h
    cases h
    exact List.forall_mem_cons.2 ⟨hp j x hx, ih hothers⟩

/-- What holds of every item that can be read holds of the items of a list. -/
theorem forall_of_list? {xs : List α} (h : list? item v = some xs) (hp : ∀ j x, item j = some x → P x) : ∀ x ∈ xs, P x := by
  unfold list? at h
  split at h
  · cases h
    exact nofun
  · exact forall_of_mapM h hp
  · cases h

/-- What holds of every value that is read holds of all entries that are. -/
theorem forall_of_entries? {members : List (Option String × Json)} {entries : List (String × α)}
    (h : entries? item members = some entries) (hp : ∀ j x, item j = some x → P x) : ∀ entry ∈ entries, P entry.2 := by
  induction members generalizing entries with
  | nil =>
    cases h
    exact nofun
  | cons member rest ih =>
    obtain ⟨name, j⟩ := member
    cases name with
    | none => cases h
    | some key =>
      rw [entries?] at h
      obtain ⟨x, hx, h⟩ := Option.bind_eq_some_iff.1 h
      obtain ⟨others, hothers, h⟩ := Option.bind_eq_some_iff.1 h
      cases h
      exact List.forall_mem_cons.2 ⟨hp j x hx, ih hothers⟩

/-- What is read as a map has no key twice, and what holds of every value that can be read holds of its values. -/
theorem forall_of_map? {entries : List (String × α)} (h : map? item v = some entries) (hp : ∀ j x, item j = some x → P x) :
    (Keyed.keys entries).Nodup ∧ ∀ entry ∈ entries, P entry.2 := by
  unfold map? at h
  split at h
  · cases h
    exact ⟨List.nodup_nil, nofun⟩
  · obtain ⟨pairs, hpairs, rfl⟩ := Option.map_eq_some_iff.1 h
    exact ⟨Keyed.keys_ofPairs_nodup pairs, fun entry he => forall_of_entries? hpairs hp entry (Keyed.mem_of_mem_ofPairs he)⟩
  · cases h

/-- What holds of every item that is read with less nesting holds of the list. -/
theorem forall_of_listWithin {limit : Nat} {read : Nat → Json → Option α} {xs : List α} (h : listWithin limit read v = some xs)
    (hp : ∀ inner < limit, ∀ j x, read inner j = some x → P x) : ∀ x ∈ xs, P x := by
  unfold listWithin at h
  split at h
  · cases h
    exact nofun
  · cases limit with
    | zero => cases h
    | succ limit => exact forall_of_list? h (hp limit (Nat.lt_succ_self limit))

/-- A map is read with distinct keys, and what holds of every value that is read with less nesting holds of its entries. -/
theorem forall_of_mapWithin {limit : Nat} {read : Nat → Json → Option α} {entries : List (String × α)}
    (h : mapWithin limit read v = some entries) (hp : ∀ inner < limit, ∀ j x, read inner j = some x → P x) :
    (Keyed.keys entries).Nodup ∧ ∀ entry ∈ entries, P entry.2 := by
  unfold mapWithin at h
  split at h
  · cases h
    exact ⟨List.nodup_nil, nofun⟩
  · cases limit with
    | zero => cases h
    | succ limit => exact forall_of_map? h (hp limit (Nat.lt_succ_self limit))

end Json

namespace Record

/-- The lists and the maps of a record are read as every list and every map, also when no container is left for them. -/
theorem ofJson_succ (limit : Nat) (value : Json) : ofJson (limit + 1) value = (do
    let fields ← Json.fields? fieldNames value
    return {
      reference := ← Json.optionalString? (Keyed.find? "include" fields)
      name := ← Json.optionalString? (Keyed.find? "name" fields)
      rule := ← ruleOfFields limit fields
      patterns := ← Json.listWithin limit Record.ofJson (Keyed.find? "patterns" fields)
      repository := ← Json.mapWithin limit Record.ofJson (Keyed.find? "repository" fields) }) := by
  cases limit with
  | zero =>
    have hlist : ∀ o, Json.listWithin 0 (fun _ _ => none) o = Json.listWithin 0 Record.ofJson o := by rintro (_ | _) <;> rfl
    have hmap : ∀ o, Json.mapWithin 0 (fun _ _ => none) o = Json.mapWithin 0 Record.ofJson o := by rintro (_ | _) <;> rfl
    simp only [ofJson, hlist, hmap]
  | succ limit =>
    have hlist : ∀ o, Json.list? (Record.ofJson limit) o = Json.listWithin (limit + 1) Record.ofJson o := by rintro (_ | _) <;> rfl
    have hmap : ∀ o, Json.map? (Record.ofJson limit) o = Json.mapWithin (limit + 1) Record.ofJson o := by rintro (_ | _) <;> rfl
    rw [ofJson]
    simp only [hlist, hmap]

/-- No map of captures in a rule that is read has a key twice. -/
theorem keysOnce_of_ruleOfFields {limit : Nat} {fields : List (String × Json)} {rule : MatchRule}
    (h : ruleOfFields limit fields = some rule) : rule.KeysOnce := by
  simp only [ruleOfFields, Option.bind_eq_bind, Option.bind_eq_some_iff] at h
  obtain ⟨_, -, _, -, _, -, _, -, _, -, captures, hc, beginCaptures, hb, endCaptures, he, whileCaptures, hw, h⟩ := h
  cases h
  have hkeys : ∀ {o : Option Json} {entries}, Json.mapWithin limit Capture.ofJson o = some entries → (Keyed.keys entries).Nodup :=
    fun h => (Json.forall_of_mapWithin (P := fun _ => True) h fun _ _ _ _ _ => trivial).1
  exact ⟨hkeys hc, hkeys hb, hkeys he, hkeys hw⟩

/-- No map in a record that is read has a key twice. -/
theorem keysOnce_of_ofJson (limit : Nat) : ∀ v r, ofJson limit v = some r → r.KeysOnce := by
  induction limit using Nat.strongRecOn with
  | _ limit ih =>
    intro v r h
    match limit with
    | 0 =>
      rw [ofJson] at h
      cases h
    | limit + 1 =>
      rw [ofJson_succ] at h
      obtain ⟨fields, -, h⟩ := Option.bind_eq_some_iff.1 h
      obtain ⟨reference, -, h⟩ := Option.bind_eq_some_iff.1 h
      obtain ⟨name, -, h⟩ := Option.bind_eq_some_iff.1 h
      obtain ⟨rule, hrule, h⟩ := Option.bind_eq_some_iff.1 h
      obtain ⟨patterns, hpatterns, h⟩ := Option.bind_eq_some_iff.1 h
      obtain ⟨repository, hrepository, h⟩ := Option.bind_eq_some_iff.1 h
      cases h
      have hinner : ∀ inner < limit, ∀ v r, ofJson inner v = some r → r.KeysOnce := fun inner h => ih inner (Nat.lt_succ_of_lt h)
      exact keysOnce_iff.2 ⟨keysOnce_of_ruleOfFields hrule, Json.forall_of_listWithin hpatterns hinner,
        Json.forall_of_mapWithin hrepository hinner⟩

end Record

/-- No map in a file that is read has a key twice. -/
theorem GrammarFile.keysOnce_of_ofJson {limit : Nat} {v : Json} {file : GrammarFile} (h : ofJson limit v = some file) :
    file.KeysOnce := by
  cases limit with
  | zero => cases h
  | succ limit =>
    obtain ⟨fields, -, h⟩ := Option.bind_eq_some_iff.1 h
    obtain ⟨scopeName, -, h⟩ := Option.bind_eq_some_iff.1 h
    obtain ⟨name, -, h⟩ := Option.bind_eq_some_iff.1 h
    obtain ⟨fileTypes, -, h⟩ := Option.bind_eq_some_iff.1 h
    obtain ⟨patterns, hpatterns, h⟩ := Option.bind_eq_some_iff.1 h
    obtain ⟨repository, hrepository, h⟩ := Option.bind_eq_some_iff.1 h
    cases h
    have hrecords : ∀ inner < limit, ∀ v r, Record.ofJson inner v = some r → r.KeysOnce := fun inner _ =>
      Record.keysOnce_of_ofJson inner
    exact keysOnce_iff.2 ⟨Json.forall_of_listWithin hpatterns hrecords, Json.forall_of_mapWithin hrepository hrecords⟩

/-- No repository of a file that is read has a key twice. -/
theorem GrammarFile.distinct_of_ofText? {text : String} {file : GrammarFile} (h : ofText? text = some file) : file.Distinct := by
  obtain ⟨v, -, h⟩ := Option.bind_eq_some_iff.1 h
  exact (keysOnce_of_ofJson h).distinct

end GrammarLinker
