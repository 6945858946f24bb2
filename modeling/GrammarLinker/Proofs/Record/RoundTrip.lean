import GrammarLinker.Proofs.Record.Edits

/-!
# Written and read again

What is written of a grammar file is read as that file (`GrammarFile.ofJson_toJson`), with every map in its order, when the reader may
open as many containers as the written form nests (`Json.depth`). This is so after any edits of the written form too
(`GrammarFile.ofJson_edited`).
-/

namespace GrammarLinker

namespace Json

/-! ## Containers -/

mutual

/-- How many containers a value nests. -/
def depth : Json → Nat
  | .array items => depthOfItems items + 1
  | .object members => depthOfMembers members + 1
  | _ => 0

/-- How many containers one of some values nests at most. -/
def depthOfItems : List Json → Nat
  | [] => 0
  | v :: rest => max v.depth (depthOfItems rest)

/-- How many containers the value of a member nests at most. -/
def depthOfMembers : List (Option String × Json) → Nat
  | [] => 0
  | (_, v) :: rest => max v.depth (depthOfMembers rest)

end

/-- One of some values nests no more containers than they do at most. -/
theorem depth_le_depthOfItems {v : Json} {items : List Json} (h : v ∈ items) : v.depth ≤ depthOfItems items := by
  induction items with
  | nil => cases h
  | cons w rest ih =>
    rw [depthOfItems]
    rcases List.mem_cons.1 h with rfl | h
    · exact Nat.le_max_left _ _
    · exact (ih h).trans (Nat.le_max_right _ _)

/-- The value of a member nests no more containers than the members do at most. -/
theorem depth_le_depthOfMembers {name : Option String} {v : Json} {members : List (Option String × Json)} (h : (name, v) ∈ members) :
    v.depth ≤ depthOfMembers members := by
  induction members with
  | nil => cases h
  | cons member rest ih =>
    obtain ⟨name', w⟩ := member
    rw [depthOfMembers]
    rcases List.mem_cons.1 h with h | h
    · cases h
      exact Nat.le_max_left _ _
    · exact (ih h).trans (Nat.le_max_right _ _)

/-- A list nests one container more than each of its items. -/
theorem depth_lt_of_mem {v : Json} {items : List Json} (h : v ∈ items) : v.depth < (array items).depth := by
  rw [depth]
  exact Nat.lt_succ_of_le (depth_le_depthOfItems h)

/-- An object nests one container more than each of its fields. -/
theorem depth_lt_of_mem_fields {name : String} {v : Json} {fields : List (String × Json)} (h : (name, v) ∈ fields) :
    v.depth < (ofFields fields).depth := by
  rw [ofFields, depth]
  exact Nat.lt_succ_of_le (depth_le_depthOfMembers (List.mem_map.2 ⟨_, h, rfl⟩))

/-! ## Written parts -/

/-- A text that may be missing is read back. -/
theorem optionalString?_ofString? (text : Option String) : optionalString? (some (ofString? text)) = some text := by
  cases text <;> rfl

/-- The fields of an object that is written with them. -/
theorem fields?_ofFields {names : List String} {fields : List (String × Json)} (h : Keyed.keys fields = names) (hnodup : names.Nodup) :
    fields? names (ofFields fields) = some fields := by
  have hsome : ∀ member ∈ fields.map fun field => (some field.1, field.2), member.1.isSome := by
    intro member hmem
    obtain ⟨field, -, rfl⟩ := List.mem_map.1 hmem
    rfl
  have hfields : ∀ field ∈ fields, (field? names ∘ fun field => (some field.1, field.2)) field = some field := by
    intro field hfield
    exact if_pos (h ▸ List.mem_map_of_mem hfield)
  have hfilter : (fields.map fun field => (some field.1, field.2)).filterMap (field? names) = fields := by
    rw [List.filterMap_map, List.filterMap_congr hfields, List.filterMap_some]
  exact knownMembers_eq_some_iff.2 ⟨hsome, hfilter, h ▸ hnodup⟩

variable {α : Type} {write : α → Json}

/-- Items that are read again one by one are read again together. -/
theorem mapM_written {read : Json → Option α} {xs : List α} (h : ∀ x ∈ xs, read (write x) = some x) :
    (xs.map write).mapM read = some xs := by
  induction xs with
  | nil => rfl
  | cons x rest ih =>
    obtain ⟨hx, hrest⟩ := List.forall_mem_cons.1 h
    rw [List.map_cons, List.mapM_cons, hx, ih hrest]
    rfl

/-- Entries whose values are read again are read again, each with its key and in order. -/
theorem entries?_written {read : Json → Option α} {entries : List (String × α)}
    (h : ∀ entry ∈ entries, read (write entry.2) = some entry.2) :
    entries? read (entries.map fun entry => (some entry.1, write entry.2)) = some entries := by
  induction entries with
  | nil => rfl
  | cons entry rest ih =>
    obtain ⟨hentry, hrest⟩ := List.forall_mem_cons.1 h
    simp only [List.map_cons, entries?, hentry, ih hrest]
    rfl

variable {read : Nat → Json → Option α} {limit : Nat}

/-- A list is read again when its items are. -/
theorem listWithin_written {xs : List α} (hlimit : (array (xs.map write)).depth ≤ limit)
    (hread : ∀ x ∈ xs, ∀ inner < limit, (write x).depth ≤ inner → read inner (write x) = some x) :
    listWithin limit read (some (array (xs.map write))) = some xs := by
  cases limit with
  | zero => exact absurd hlimit (Nat.not_succ_le_zero _)
  | succ limit =>
    have hitems : ∀ x ∈ xs, read limit (write x) = some x := fun x hx =>
      hread x hx limit (Nat.lt_succ_self limit) (Nat.le_of_lt_succ ((depth_lt_of_mem (List.mem_map_of_mem hx)).trans_le hlimit))
    exact mapM_written hitems

/-- A map is read again when its values are, provided that it has no key twice. -/
theorem mapWithin_written {entries : List (String × α)}
    (hlimit : (ofFields (entries.map fun entry => (entry.1, write entry.2))).depth ≤ limit) (hkeys : (Keyed.keys entries).Nodup)
    (hread : ∀ entry ∈ entries, ∀ inner < limit, (write entry.2).depth ≤ inner → read inner (write entry.2) = some entry.2) :
    mapWithin limit read (some (ofFields (entries.map fun entry => (entry.1, write entry.2)))) = some entries := by
  cases limit with
  | zero => exact absurd hlimit (Nat.not_succ_le_zero _)
  | succ limit =>
    have hvalues : ∀ entry ∈ entries, read limit (write entry.2) = some entry.2 := fun entry hentry =>
      hread entry hentry limit (Nat.lt_succ_self limit)
        (Nat.le_of_lt_succ ((depth_lt_of_mem_fields (List.mem_map.2 ⟨entry, hentry, rfl⟩)).trans_le hlimit))
    have hentries : entries? (read limit) ((entries.map fun entry => (entry.1, write entry.2)).map fun field => (some field.1, field.2)) =
        some entries := by
      rw [List.map_map]
      exact entries?_written hvalues
    show (entries? (read limit) _).map Keyed.ofPairs = some entries
    rw [hentries, Option.map_some, Keyed.ofPairs_of_nodup hkeys]

end Json

/-! ## Captures -/

/-- A capture is read back. -/
theorem Capture.ofJson_toJson (c : Capture) {limit : Nat} (hlimit : c.toJson.depth ≤ limit) : ofJson limit c.toJson = some c := by
  cases limit with
  | zero => exact absurd hlimit (Nat.not_succ_le_zero _)
  | succ limit =>
    have hfields : Json.fields? fieldNames c.toJson = some [("name", .ofString? c.name)] := Json.fields?_ofFields rfl (by decide)
    simp only [ofJson, Json.nested, hfields, Option.bind_eq_bind, Option.bind_some, Keyed.find?, if_true,
      Json.optionalString?_ofString?]
    rfl

/-- Captures of distinct keys are read back. -/
theorem Capture.mapWithin_mapToJson {captures : List (String × Capture)} (hkeys : (Keyed.keys captures).Nodup) {limit : Nat}
    (hlimit : (mapToJson captures).depth ≤ limit) : Json.mapWithin limit ofJson (some (mapToJson captures)) = some captures :=
  Json.mapWithin_written hlimit hkeys fun entry _ _ _ => ofJson_toJson entry.2

/-! ## Records -/

namespace Record

/-- A list of records is written record by record. -/
theorem listToJson_eq_map (records : List Record) : listToJson records = records.map toJson := by
  induction records with
  | nil => rw [listToJson, List.map_nil]
  | cons r rest ih => rw [listToJson, ih, List.map_cons]

/-- The entries of a repository are written entry by entry. -/
theorem entriesToJson_eq_map (entries : List (String × Record)) :
    Json.object (entriesToJson entries) = .ofFields (entries.map fun entry => (entry.1, entry.2.toJson)) := by
  rw [Json.ofFields, List.map_map]
  induction entries with
  | nil => rw [entriesToJson, List.map_nil]
  | cons entry rest ih =>
    rw [entriesToJson, List.map_cons, Json.object.inj ih]
    rfl

/-- The fields that a record is written with. -/
def written (r : Record) : List (String × Json) :=
  [("include", .ofString? r.reference),
    ("name", .ofString? r.name),
    ("contentName", .ofString? r.rule.contentName),
    ("match", .ofString? r.rule.matchExpr),
    ("begin", .ofString? r.rule.beginExpr),
    ("end", .ofString? r.rule.endExpr),
    ("while", .ofString? r.rule.whileExpr),
    ("captures", Capture.mapToJson r.rule.captures),
    ("beginCaptures", Capture.mapToJson r.rule.beginCaptures),
    ("endCaptures", Capture.mapToJson r.rule.endCaptures),
    ("whileCaptures", Capture.mapToJson r.rule.whileCaptures),
    ("patterns", .array (r.patterns.map toJson)),
    ("repository", .ofFields (r.repository.map fun entry => (entry.1, entry.2.toJson)))]

/-- A record is written with its fields. -/
theorem toJson_eq_ofFields (r : Record) : r.toJson = .ofFields r.written := by
  obtain ⟨reference, name, rule, patterns, repository⟩ := r
  rw [toJson, written, listToJson_eq_map, entriesToJson_eq_map]

/-- What a rule matches is read back from the fields that it was written with. -/
theorem ruleOfFields_written {r : Record} (hkeys : r.rule.KeysOnce) {limit : Nat}
    (hlimit : ∀ name {v}, Keyed.find? name r.written = some v → v.depth ≤ limit) : ruleOfFields limit r.written = some r.rule := by
  have hcaptures : ∀ name {captures}, Keyed.find? name r.written = some (Capture.mapToJson captures) → (Keyed.keys captures).Nodup →
      Json.mapWithin limit Capture.ofJson (Keyed.find? name r.written) = some captures := by
    intro name captures h hkeys
    rw [h, Capture.mapWithin_mapToJson hkeys (hlimit name h)]
  have htext : ∀ name {text}, Keyed.find? name r.written = some (.ofString? text) →
      Json.optionalString? (Keyed.find? name r.written) = some text := by
    intro name text h
    rw [h, Json.optionalString?_ofString?]
  simp only [ruleOfFields, htext "contentName" rfl, htext "match" rfl, htext "begin" rfl, htext "end" rfl, htext "while" rfl,
    hcaptures "captures" rfl hkeys.captures, hcaptures "beginCaptures" rfl hkeys.beginCaptures,
    hcaptures "endCaptures" rfl hkeys.endCaptures, hcaptures "whileCaptures" rfl hkeys.whileCaptures, Option.bind_eq_bind,
    Option.bind_some, Option.pure_def]

/-- A record that is written is read again. -/
theorem ofJson_toJson (limit : Nat) : ∀ r : Record, r.KeysOnce → r.toJson.depth ≤ limit → ofJson limit r.toJson = some r := by
  -- a record is read within two containers fewer than the record that it is in
  induction limit using Nat.strongRecOn with
  | _ limit ih =>
    intro r hkeys hlimit
    obtain ⟨hrule, hpatterns, hrepositoryKeys, hrepository⟩ := keysOnce_iff.1 hkeys
    rw [toJson_eq_ofFields] at hlimit ⊢
    match limit with
    | 0 => exact absurd hlimit (Nat.not_succ_le_zero _)
    | limit + 1 =>
      have hdepth : ∀ name {v}, Keyed.find? name r.written = some v → v.depth ≤ limit := fun _ _ h =>
        Nat.le_of_lt_succ ((Json.depth_lt_of_mem_fields (Keyed.mem_of_find? h)).trans_le hlimit)
      have hfields : Json.fields? fieldNames (.ofFields r.written) = some r.written := Json.fields?_ofFields rfl (by decide)
      have hreferenceRead : Json.optionalString? (Keyed.find? "include" r.written) = some r.reference := Json.optionalString?_ofString? _
      have hnameRead : Json.optionalString? (Keyed.find? "name" r.written) = some r.name := Json.optionalString?_ofString? _
      have hpatternsRead : Json.listWithin limit ofJson (Keyed.find? "patterns" r.written) = some r.patterns :=
        Json.listWithin_written (hdepth "patterns" rfl) fun p hp inner hinner =>
          ih inner (Nat.lt_succ_of_lt hinner) p (hpatterns p hp)
      have hrepositoryRead : Json.mapWithin limit ofJson (Keyed.find? "repository" r.written) = some r.repository :=
        Json.mapWithin_written (hdepth "repository" rfl) hrepositoryKeys fun entry hentry inner hinner =>
          ih inner (Nat.lt_succ_of_lt hinner) entry.2 (hrepository entry hentry)
      have hruleRead : ruleOfFields limit r.written = some r.rule := ruleOfFields_written hrule hdepth
      rw [ofJson_succ, hfields]
      simp only [hreferenceRead, hnameRead, hruleRead, hpatternsRead, hrepositoryRead, Option.bind_eq_bind, Option.bind_some,
        Option.pure_def]
      cases r
      rfl

end Record

/-! ## Files -/

namespace GrammarFile

variable {file : GrammarFile} {limit : Nat}

/-- The fields that a file is written with. -/
def written (file : GrammarFile) : List (String × Json) :=
  [("scopeName", .ofString file.scopeName),
    ("name", .ofString? file.name),
    ("fileTypes", .array (file.fileTypes.map .ofString)),
    ("patterns", .array (file.patterns.map Record.toJson)),
    ("repository", .ofFields (file.repository.map fun entry => (entry.1, entry.2.toJson)))]

/-- A file is written with its fields. -/
theorem toJson_eq_ofFields (file : GrammarFile) : file.toJson = .ofFields file.written := by
  rw [toJson, written, Record.listToJson_eq_map, Record.entriesToJson_eq_map]

/-- A file that is written is read again. -/
theorem ofJson_toJson (hkeys : file.KeysOnce) (hlimit : file.toJson.depth ≤ limit) : ofJson limit file.toJson = some file := by
  obtain ⟨hpatterns, hrepositoryKeys, hrepository⟩ := keysOnce_iff.1 hkeys
  rw [toJson_eq_ofFields] at hlimit ⊢
  cases limit with
  | zero => exact absurd hlimit (Nat.not_succ_le_zero _)
  | succ limit =>
    have hdepth : ∀ name {v}, Keyed.find? name file.written = some v → v.depth ≤ limit := fun _ _ h =>
      Nat.le_of_lt_succ ((Json.depth_lt_of_mem_fields (Keyed.mem_of_find? h)).trans_le hlimit)
    have hfields : Json.fields? fieldNames (.ofFields file.written) = some file.written := Json.fields?_ofFields rfl (by decide)
    have hscopeRead : Json.requiredString? (Keyed.find? "scopeName" file.written) = some file.scopeName := rfl
    have hnameRead : Json.optionalString? (Keyed.find? "name" file.written) = some file.name := Json.optionalString?_ofString? _
    have htypesRead : Json.listWithin limit (fun _ => Json.text?) (Keyed.find? "fileTypes" file.written) = some file.fileTypes :=
      Json.listWithin_written (hdepth "fileTypes" rfl) fun _ _ _ _ _ => rfl
    have hpatternsRead : Json.listWithin limit Record.ofJson (Keyed.find? "patterns" file.written) = some file.patterns :=
      Json.listWithin_written (hdepth "patterns" rfl) fun p hp inner _ => Record.ofJson_toJson inner p (hpatterns p hp)
    have hrepositoryRead : Json.mapWithin limit Record.ofJson (Keyed.find? "repository" file.written) = some file.repository :=
      Json.mapWithin_written (hdepth "repository" rfl) hrepositoryKeys fun entry hentry inner _ =>
        Record.ofJson_toJson inner entry.2 (hrepository entry hentry)
    simp only [ofJson, Json.nested, hfields, hscopeRead, hnameRead, htypesRead, hpatternsRead, hrepositoryRead, Option.bind_eq_bind,
      Option.bind_some, Option.pure_def]

/-- What is written of a file that was read is read as that file. -/
theorem ofJson_toJson_of_ofJson {v : Json} (hread : ofJson limit v = some file) {limit' : Nat} (hlimit : file.toJson.depth ≤ limit') :
    ofJson limit' file.toJson = some file :=
  ofJson_toJson (keysOnce_of_ofJson hread) hlimit

/-- What is written of a file is read as that file, and so is everything that edits make of what is written: in any records, at any
depth, the fields may be permuted, defaults left out and fields of unknown names added. -/
theorem ofJson_edited (hkeys : file.KeysOnce) (hlimit : file.toJson.depth ≤ limit) :
    ofJson limit file.toJson = some file ∧
    ∀ v, Relation.ReflTransGen (Edit .file) file.toJson v → ofJson limit v = some file :=
  have hread := ofJson_toJson hkeys hlimit
  ⟨hread, fun _ h => Edit.read_of_reflTransGen h limit file hread⟩

/-- A file with a rule whose captures are not in the order of their keys. -/
def captured : GrammarFile where
  scopeName := "s"
  patterns := [{ rule := { matchExpr := some "(a)(b)", captures := [("2", { name := some "b" }), ("1", {})] } }]

/-- The members of the written file that are about no records. -/
def capturedScope : List (Option String × Json) :=
  [(some "scopeName", .ofString "s"), (some "name", .null), (some "fileTypes", .array [])]

/-- The members of the written file that are about records, of which it has one. -/
def capturedRecords (rule : Json) : List (Option String × Json) :=
  [(some "patterns", .array [rule]), (some "repository", .object [])]

/-- The members of the rule as it is written. -/
def capturedRule : List (Option String × Json) :=
  [(some "include", .null), (some "name", .null), (some "contentName", .null), (some "match", .ofString "(a)(b)"),
    (some "begin", .null), (some "end", .null), (some "while", .null),
    (some "captures", .object [(some "2", .object [(some "name", .ofString "b")]), (some "1", .object [(some "name", .null)])]),
    (some "beginCaptures", .object []), (some "endCaptures", .object []), (some "whileCaptures", .object []),
    (some "patterns", .array []), (some "repository", .object [])]

/-- The members of the rule with its captures first, of which one has no field, and without most of its defaults. -/
def capturedRuleEdited : List (Option String × Json) :=
  [(some "captures", .object [(some "2", .object [(some "name", .ofString "b")]), (some "1", .object [])]),
    (some "match", .ofString "(a)(b)"), (some "begin", .null), (some "end", .null), (some "while", .null)]

/-- The written file with its patterns first, after a comment, and without its repository. -/
def capturedEdited : Json := .object
  ((some "comment", .array [.null]) :: (some "patterns", .array [.object capturedRuleEdited]) :: capturedScope)

/-- The rule is edited step by step. -/
theorem edits_capturedRule : Relation.ReflTransGen (Edit .record) (.object capturedRule) (.object capturedRuleEdited) := by
  have hback : (capturedRule.take 8 ++ capturedRule.drop 8).Perm (capturedRule.drop 8 ++ capturedRule.take 8) := List.perm_append_comm
  refine .head (.permute hback) ?_
  refine .head (.drop "beginCaptures" .object _) <| .head (.drop "endCaptures" .object _) <| .head (.drop "whileCaptures" .object _) <|
    .head (.drop "patterns" .array _) <| .head (.drop "repository" .object _) <| .head (.drop "include" .null _) <|
    .head (.drop "name" .null _) <| .head (.drop "contentName" .null _) ?_
  have hfront : ((capturedRule.take 7).drop 3 ++ [capturedRule[7]]).Perm ([capturedRule[7]] ++ (capturedRule.take 7).drop 3) :=
    List.perm_append_comm
  refine .head (.permute hfront) ?_
  exact .single (.entry rfl "1" (.drop "name" .null []) [(some "2", .object [(some "name", .ofString "b")])] [] _)

/-- So is the file that has it. -/
theorem edits_captured : Relation.ReflTransGen (Edit .file) captured.toJson capturedEdited := by
  have hfront : (capturedScope ++ capturedRecords (.object capturedRule)).Perm (capturedRecords (.object capturedRule) ++ capturedScope) :=
    List.perm_append_comm
  have hrule := edits_capturedRule.lift (fun rule => Json.object (capturedRecords rule ++ capturedScope)) fun _ _ h =>
    (Edit.item rfl h [] [] _ : Edit .file _ _)
  refine .head (.permute hfront) (hrule.trans ?_)
  exact .head (.permute (.swap _ _ _)) <| .head (.drop "repository" .object _) <| .single (.add (by decide) _ _)

/-- The file is read back from what was written, and from the edited text as well. -/
theorem ofJson_edited_captured : captured.KeysOnce ∧ captured.toJson.depth ≤ jsonNesting ∧
    ofJson jsonNesting captured.toJson = some captured ∧ ofJson jsonNesting capturedEdited = some captured := by
  have hkeys : captured.KeysOnce :=
    ⟨⟨⟨⟨by decide, by decide, by decide, by decide⟩, trivial, by decide, trivial⟩, trivial⟩, by decide, trivial⟩
  have hlimit : captured.toJson.depth ≤ jsonNesting := by decide
  obtain ⟨hread, hedited⟩ := ofJson_edited hkeys hlimit
  exact ⟨hkeys, hlimit, hread, hedited _ edits_captured⟩

end GrammarFile

end GrammarLinker
