import GrammarLinker.Proofs.Record

/-!
# Edits that a reader tolerates

In the JSON value of a grammar file some things do not matter: the order of the fields of a record, a field that holds what it has when
it is missing, and a field of an unknown name. An edit (`Edit`) changes one of these, in the value itself or in a record at any depth
inside it. What was read before an edit is read after it (`Edit.read`), and so after any number of edits (`Edit.read_of_reflTransGen`).

The converse does not hold: an edit may leave out a field that is given twice, which is refused, or one whose value is no value of that
field.
-/

namespace GrammarLinker

/-! ## Fields that are looked up -/

namespace Keyed

variable {α : Type} {es es' : List (String × α)}

/-- Where no key is repeated, every pair is found. -/
theorem find?_eq_some_iff (h : (keys es).Nodup) {key : String} {value : α} : find? key es = some value ↔ (key, value) ∈ es := by
  refine ⟨mem_of_find?, fun hmem => ?_⟩
  induction es with
  | nil => cases hmem
  | cons e rest ih =>
    obtain ⟨k, old⟩ := e
    obtain ⟨hnew, hrest⟩ := List.nodup_cons.1 h
    rcases List.mem_cons.1 hmem with heq | hmem
    · cases heq
      exact if_pos rfl
    · have hne : k ≠ key := by
        rintro rfl
        exact hnew (List.mem_map.2 ⟨_, hmem, rfl⟩)
      exact (if_neg hne).trans (ih hrest hmem)

/-- Where no key is repeated, the order of the pairs does not matter for what is found. -/
theorem find?_perm (hperm : es.Perm es') (h : (keys es).Nodup) (key : String) : find? key es = find? key es' := by
  have h' : (keys es').Nodup := (hperm.map Prod.fst).nodup_iff.1 h
  refine Option.ext fun value => ?_
  rw [find?_eq_some_iff h, find?_eq_some_iff h', hperm.mem_iff]

/-- A key that is absent is not found. -/
theorem find?_eq_none_iff {key : String} : find? key es = none ↔ key ∉ keys es := by
  rw [← find?_isSome, Bool.not_eq_true, Option.isSome_eq_false_iff, Option.isNone_iff_eq_none]

end Keyed

namespace Json

variable {names : List String} {members members' : List (Option String × Json)} {fields : List (String × Json)}

/-- The field that a member is, if it is one. -/
def field? (names : List String) : Option String × Json → Option (String × Json)
  | (some key, value) => if key ∈ names then some (key, value) else none
  | (none, _) => none

/-- The fields among the members of an object are its members of known names, provided that every name has a text and that no field is
given twice. -/
theorem knownMembers_eq_some_iff : knownMembers names members = some fields ↔
    (∀ member ∈ members, member.1.isSome) ∧ members.filterMap (field? names) = fields ∧ (Keyed.keys fields).Nodup := by
  induction members generalizing fields with
  | nil =>
    rw [knownMembers, Option.some.injEq, List.filterMap_nil]
    refine ⟨?_, fun h => h.2.1⟩
    rintro rfl
    exact ⟨nofun, rfl, List.nodup_nil⟩
  | cons member rest ih =>
    obtain ⟨name, value⟩ := member
    cases name with
    | none => simp [knownMembers]
    | some key =>
      by_cases hkey : key ∈ names
      · have hfield : field? names (some key, value) = some (key, value) := if_pos hkey
        rw [knownMembers, List.filterMap_cons_some hfield, List.forall_mem_cons]
        simp only [hkey, if_true, Option.bind_eq_bind, Option.bind_eq_some_iff]
        constructor
        · rintro ⟨others, hothers, h⟩
          obtain ⟨hsome, rfl, hnodup⟩ := ih.1 hothers
          split at h
          · cases h
          · rename_i hnew
            cases h
            exact ⟨⟨rfl, hsome⟩, rfl, List.nodup_cons.2 ⟨hnew, hnodup⟩⟩
        · rintro ⟨⟨-, hsome⟩, rfl, hnodup⟩
          obtain ⟨hnew, hnodup⟩ := List.nodup_cons.1 hnodup
          exact ⟨_, ih.2 ⟨hsome, rfl, hnodup⟩, if_neg hnew⟩
      · have hfield : field? names (some key, value) = none := if_neg hkey
        rw [knownMembers, List.filterMap_cons_none hfield, List.forall_mem_cons]
        simp only [hkey, if_false, Option.bind_eq_bind, Option.bind_fun_some, ih, Option.isSome_some, true_and]

/-- The order of the members does not matter for the fields among them. -/
theorem knownMembers_perm (hperm : members.Perm members') (h : knownMembers names members = some fields) :
    ∃ fields', knownMembers names members' = some fields' ∧ ∀ name, Keyed.find? name fields = Keyed.find? name fields' := by
  obtain ⟨hsome, rfl, hnodup⟩ := knownMembers_eq_some_iff.1 h
  have hfields := hperm.filterMap (field? names)
  refine ⟨_, knownMembers_eq_some_iff.2 ⟨fun m hm => hsome m (hperm.mem_iff.2 hm), rfl, ?_⟩, Keyed.find?_perm hfields hnodup⟩
  exact (hfields.map Prod.fst).nodup_iff.1 hnodup

/-- A member that is no field adds nothing to the fields. -/
theorem knownMembers_cons_unknown {name : String} (hname : name ∉ names) (value : Json) :
    knownMembers names ((some name, value) :: members) = knownMembers names members := by
  simp only [knownMembers, hname, if_false, Option.bind_eq_bind, Option.bind_fun_some]

/-- The fields among a field and other members: the field, and the others, of which none has its name. -/
theorem knownMembers_cons_iff {name : String} (hname : name ∈ names) {value : Json} :
    knownMembers names ((some name, value) :: members) = some fields ↔
      ∃ others, knownMembers names members = some others ∧ Keyed.find? name others = none ∧ (name, value) :: others = fields := by
  simp only [knownMembers, hname, if_true, Option.bind_eq_bind, Option.bind_eq_some_iff, Keyed.find?_eq_none_iff]
  refine exists_congr fun others => and_congr_right fun _ => ?_
  split
  · rename_i hmem
    exact iff_of_false nofun fun h => h.1 hmem
  · rename_i hnew
    rw [Option.some.injEq, and_iff_right hnew]

/-! ## What is read -/

/-- What the first reading gives is given by the second one too. -/
def Carries {α : Type} (o o' : Option α) : Prop := ∀ x, o = some x → o' = some x

variable {α β : Type}

/-- A reading carries over to itself. -/
theorem Carries.refl (o : Option α) : Carries o o := fun _ h => h

/-- Where nothing is read there is nothing to carry over. -/
theorem Carries.none (o : Option α) : Carries none o := nofun

/-- Carrying over goes on. -/
theorem Carries.trans {o o' o'' : Option α} (h : Carries o o') (h' : Carries o' o'') : Carries o o'' :=
  fun x hx => h' x (h x hx)

/-- Readings that follow related values carry over if the values do. -/
theorem Carries.bind_of {R : α → α → Prop} {o o' : Option α} {f f' : α → Option β}
    (h : ∀ x, o = some x → ∃ x', o' = some x' ∧ R x x') (hf : ∀ x x', R x x' → Carries (f x) (f' x')) :
    Carries (o >>= f) (o' >>= f') := by
  intro y hy
  obtain ⟨x, hx, hy⟩ := Option.bind_eq_some_iff.1 hy
  obtain ⟨x', hx', hR⟩ := h x hx
  exact Option.bind_eq_some_iff.2 ⟨x', hx', hf x x' hR y hy⟩

/-- Readings that follow the same value carry over. -/
theorem Carries.bind {o o' : Option α} {f f' : α → Option β} (h : Carries o o') (hf : ∀ x, Carries (f x) (f' x)) :
    Carries (o >>= f) (o' >>= f') := by
  refine Carries.bind_of (R := Eq) (fun x hx => ⟨x, h x hx, rfl⟩) ?_
  rintro x _ rfl
  exact hf x

/-- What is made of a value carries over with it. -/
theorem Carries.map {o o' : Option α} (h : Carries o o') (f : α → β) : Carries (o.map f) (o'.map f) := by
  intro y hy
  obtain ⟨x, hx, rfl⟩ := Option.map_eq_some_iff.1 hy
  exact Option.map_eq_some_iff.2 ⟨x, h x hx, rfl⟩

/-- A list is read if one item is read that was exchanged, and the others are. -/
theorem Carries.mapM {read : Json → Option α} {v v' : Json} (h : Carries (read v) (read v')) (before after : List Json) :
    Carries ((before ++ v :: after).mapM read) ((before ++ v' :: after).mapM read) := by
  induction before with
  | nil =>
    simp only [List.nil_append, List.mapM_cons]
    exact h.bind fun _ => .refl _
  | cons w rest ih =>
    simp only [List.cons_append, List.mapM_cons]
    exact (Carries.refl _).bind fun _ => ih.bind fun _ => .refl _

/-- So it is with the entries of a map. -/
theorem Carries.entries? {read : Json → Option α} {v v' : Json} (h : Carries (read v) (read v')) (key : String)
    (before after : List (Option String × Json)) :
    Carries (entries? read (before ++ (some key, v) :: after)) (entries? read (before ++ (some key, v') :: after)) := by
  induction before with
  | nil => exact h.bind fun _ => .refl _
  | cons member rest ih =>
    obtain ⟨name, w⟩ := member
    cases name with
    | none => exact .none _
    | some key' => exact (Carries.refl _).bind fun _ => ih.bind fun _ => .refl _

end Json

/-! ## Records -/

/-- The kinds of records in a grammar file. -/
inductive RecordKind where
  | capture
  | record
  | file

namespace RecordKind

/-- The fields of the records of a kind. -/
def fieldNames : RecordKind → List String
  | capture => Capture.fieldNames
  | record => Record.fieldNames
  | file => GrammarFile.fieldNames

/-- What a record of a kind is read as. -/
def Value : RecordKind → Type
  | capture => Capture
  | record => Record
  | file => GrammarFile

/-- Reads a record of a kind. -/
def read : (kind : RecordKind) → Nat → Json → Option kind.Value
  | capture => Capture.ofJson
  | record => Record.ofJson
  | file => GrammarFile.ofJson

/-- The kind of the records in the list that a field holds, if it holds such a list. -/
def inList? : RecordKind → String → Option RecordKind
  | capture, _ => none
  | record, name => if name = "patterns" then some record else none
  | file, name => if name = "patterns" then some record else none

/-- The kind of the records in the map that a field holds, if it holds such a map. -/
def inMap? : RecordKind → String → Option RecordKind
  | capture, _ => none
  | record, name =>
    if name ∈ ["captures", "beginCaptures", "endCaptures", "whileCaptures"] then some capture
    else if name = "repository" then some record else none
  | file, name => if name = "repository" then some record else none

end RecordKind

/-- What a field has when it is missing: no text, no items or no entries. -/
inductive Json.IsDefault : Json → Prop
  | null : IsDefault .null
  | array : IsDefault (.array [])
  | object : IsDefault (.object [])

/-- One edit of the value of a record of a kind. The edits of members are edits of the first one, which may be any, since the members may
be permuted. -/
inductive Edit : RecordKind → Json → Json → Prop
  /-- The members may stand in any order. -/
  | permute {kind : RecordKind} {members members' : List (Option String × Json)} (h : members.Perm members') :
      Edit kind (.object members) (.object members')
  /-- A member that holds a default may be left out. -/
  | drop {kind : RecordKind} (name : String) {v : Json} (h : v.IsDefault) (members : List (Option String × Json)) :
      Edit kind (.object ((some name, v) :: members)) (.object members)
  /-- A member that is no field may be added. -/
  | add {kind : RecordKind} {name : String} (h : name ∉ kind.fieldNames) (v : Json) (members : List (Option String × Json)) :
      Edit kind (.object members) (.object ((some name, v) :: members))
  /-- A record in a list may be edited. -/
  | item {kind inner : RecordKind} {name : String} (hfield : kind.inList? name = some inner) {v v' : Json} (h : Edit inner v v')
      (before after : List Json) (members : List (Option String × Json)) :
      Edit kind (.object ((some name, .array (before ++ v :: after)) :: members))
        (.object ((some name, .array (before ++ v' :: after)) :: members))
  /-- A record in a map may be edited. -/
  | entry {kind inner : RecordKind} {name : String} (hfield : kind.inMap? name = some inner) (key : String) {v v' : Json}
      (h : Edit inner v v') (before after members : List (Option String × Json)) :
      Edit kind (.object ((some name, .object (before ++ (some key, v) :: after)) :: members))
        (.object ((some name, .object (before ++ (some key, v') :: after)) :: members))

/-! ## Reading after an edit -/

/-- What an edit of a record of a kind does to a field: nothing, or the field is left out and had a default, or one record in it is
changed in a way that keeps what is read of it. -/
inductive FieldChange (kind : RecordKind) (name : String) : Option Json → Option Json → Prop
  | same (o : Option Json) : FieldChange kind name o o
  | omitted {v : Json} (h : v.IsDefault) : FieldChange kind name (some v) none
  | item {inner : RecordKind} (hfield : kind.inList? name = some inner) {v v' : Json}
      (h : ∀ limit, Json.Carries (inner.read limit v) (inner.read limit v')) (before after : List Json) :
      FieldChange kind name (some (.array (before ++ v :: after))) (some (.array (before ++ v' :: after)))
  | entry {inner : RecordKind} (hfield : kind.inMap? name = some inner) {v v' : Json}
      (h : ∀ limit, Json.Carries (inner.read limit v) (inner.read limit v')) (key : String)
      (before after : List (Option String × Json)) :
      FieldChange kind name (some (.object (before ++ (some key, v) :: after))) (some (.object (before ++ (some key, v') :: after)))

namespace FieldChange

open Json

variable {kind : RecordKind} {name : String} {o o' : Option Json} {α : Type} {read : Nat → Json → Option α}

/-- A text that may be missing is read after the change as it was before. -/
theorem optionalString? (h : FieldChange kind name o o') : Carries (Json.optionalString? o) (Json.optionalString? o') := by
  cases h with
  | same => exact .refl _
  | omitted h =>
    cases h with
    | null => exact .refl _
    | array => exact .none _
    | object => exact .none _
  | item => exact .none _
  | entry => exact .none _

/-- A text that must be there is read after the change as it was before. -/
theorem requiredString? (h : FieldChange kind name o o') : Carries (Json.requiredString? o) (Json.requiredString? o') := by
  cases h with
  | same => exact .refl _
  | omitted h => cases h <;> exact .none _
  | item => exact .none _
  | entry => exact .none _

/-- A list of records is read after the change as it was before, if its records are. -/
theorem listWithin_of (h : FieldChange kind name o o')
    (hread : ∀ {inner}, kind.inList? name = some inner → ∀ {v v'}, (∀ limit, Carries (inner.read limit v) (inner.read limit v')) →
      ∀ limit, Carries (read limit v) (read limit v')) (limit : Nat) :
    Carries (Json.listWithin limit read o) (Json.listWithin limit read o') := by
  cases limit with
  | zero =>
    cases h with
    | same => exact .refl _
    | omitted => exact .none _
    | item => exact .none _
    | entry => exact .none _
  | succ limit =>
    cases h with
    | same => exact .refl _
    | omitted h =>
      cases h with
      | null => exact .none _
      | array => exact .refl _
      | object => exact .none _
    | item hfield h before after => exact (hread hfield h limit).mapM before after
    | entry => exact .none _

/-- The list of records that a field holds is read after a change. -/
theorem listWithin (h : FieldChange kind name o o') (inner : RecordKind) (hinner : kind.inList? name = some inner) (limit : Nat) :
    Carries (Json.listWithin limit inner.read o) (Json.listWithin limit inner.read o') := by
  refine h.listWithin_of (fun hfield _ _ h => ?_) limit
  cases hinner.symm.trans hfield
  exact h

/-- The map of records that a field holds is read after a change. -/
theorem mapWithin (h : FieldChange kind name o o') (inner : RecordKind) (hinner : kind.inMap? name = some inner) (limit : Nat) :
    Carries (Json.mapWithin limit inner.read o) (Json.mapWithin limit inner.read o') := by
  cases limit with
  | zero =>
    cases h with
    | same => exact .refl _
    | omitted => exact .none _
    | item => exact .none _
    | entry => exact .none _
  | succ limit =>
    cases h with
    | same => exact .refl _
    | omitted h =>
      cases h with
      | null => exact .none _
      | array => exact .none _
      | object => exact .refl _
    | item => exact .none _
    | entry hfield h key before after =>
      cases hinner.symm.trans hfield
      exact ((h limit).entries? key before after).map Keyed.ofPairs

end FieldChange

namespace RecordKind

open Json

/-- What a rule matches is read after the change as it was before. -/
theorem ruleOfFields_carries {fields fields' : List (String × Json)}
    (h : ∀ name, FieldChange .record name (Keyed.find? name fields) (Keyed.find? name fields')) (limit : Nat) :
    Carries (Record.ruleOfFields limit fields) (Record.ruleOfFields limit fields') :=
  (h "contentName").optionalString?.bind fun _ => (h "match").optionalString?.bind fun _ => (h "begin").optionalString?.bind fun _ =>
    (h "end").optionalString?.bind fun _ => (h "while").optionalString?.bind fun _ =>
      ((h "captures").mapWithin capture rfl limit).bind fun _ => ((h "beginCaptures").mapWithin capture rfl limit).bind fun _ =>
        ((h "endCaptures").mapWithin capture rfl limit).bind fun _ => ((h "whileCaptures").mapWithin capture rfl limit).bind fun _ =>
          .refl _

/-- A record whose fields are changed is read as before. -/
theorem read_carries {kind : RecordKind} {members members' : List (Option String × Json)}
    (h : ∀ fields, knownMembers kind.fieldNames members = some fields → ∃ fields', knownMembers kind.fieldNames members' = some fields' ∧
      ∀ name, FieldChange kind name (Keyed.find? name fields) (Keyed.find? name fields')) (limit : Nat) :
    Carries (kind.read limit (.object members)) (kind.read limit (.object members')) := by
  cases limit with
  | zero => cases kind <;> exact .none _
  | succ limit =>
    cases kind with
    | capture =>
      refine Carries.bind_of h fun fields fields' hfields => ?_
      exact (hfields "name").optionalString?.bind fun _ => .refl _
    | record =>
      simp only [RecordKind.read, Record.ofJson_succ]
      refine Carries.bind_of h fun fields fields' hfields => ?_
      exact (hfields "include").optionalString?.bind fun _ => (hfields "name").optionalString?.bind fun _ =>
        (ruleOfFields_carries hfields limit).bind fun _ => ((hfields "patterns").listWithin record rfl limit).bind fun _ =>
          ((hfields "repository").mapWithin record rfl limit).bind fun _ => .refl _
    | file =>
      refine Carries.bind_of h fun fields fields' hfields => ?_
      exact (hfields "scopeName").requiredString?.bind fun _ => (hfields "name").optionalString?.bind fun _ =>
        ((hfields "fileTypes").listWithin_of nofun limit).bind fun _ => ((hfields "patterns").listWithin record rfl limit).bind fun _ =>
          ((hfields "repository").mapWithin record rfl limit).bind fun _ => .refl _

/-- A field that holds records is a field. -/
theorem mem_of_inList? {kind inner : RecordKind} {name : String} (h : kind.inList? name = some inner) : name ∈ kind.fieldNames := by
  cases kind with
  | capture => cases h
  | record | file =>
    simp only [inList?, Option.ite_none_right_eq_some] at h
    obtain ⟨rfl, -⟩ := h
    decide

/-- A field that holds a map is a field of the record. -/
theorem mem_of_inMap? {kind inner : RecordKind} {name : String} (h : kind.inMap? name = some inner) : name ∈ kind.fieldNames := by
  cases kind with
  | capture => cases h
  | record =>
    rw [inMap?] at h
    split at h
    · rename_i hname
      simp only [List.mem_cons, List.not_mem_nil, or_false] at hname
      rcases hname with rfl | rfl | rfl | rfl <;> decide
    · simp only [Option.ite_none_right_eq_some] at h
      obtain ⟨rfl, -⟩ := h
      decide
  | file =>
    simp only [inMap?, Option.ite_none_right_eq_some] at h
    obtain ⟨rfl, -⟩ := h
    decide

/-- A record is read as before when its first field is changed. -/
theorem read_carries_cons {kind : RecordKind} {name : String} (hname : name ∈ kind.fieldNames) {v v' : Json}
    (h : FieldChange kind name (some v) (some v')) (members : List (Option String × Json)) (limit : Nat) :
    Carries (kind.read limit (.object ((some name, v) :: members))) (kind.read limit (.object ((some name, v') :: members))) := by
  refine read_carries (fun fields hfields => ?_) limit
  obtain ⟨others, hothers, hnone, rfl⟩ := (knownMembers_cons_iff hname).1 hfields
  refine ⟨_, (knownMembers_cons_iff hname).2 ⟨others, hothers, hnone, rfl⟩, fun other => ?_⟩
  by_cases hother : name = other
  · subst hother
    simpa only [Keyed.find?, if_true] using h
  · simp only [Keyed.find?, hother, if_false]
    exact .same _

end RecordKind

namespace Edit

open Json

variable {kind : RecordKind} {v v' : Json}

/-- What is read of the value of a record is read of it after an edit. -/
theorem read (h : Edit kind v v') : ∀ limit, Carries (kind.read limit v) (kind.read limit v') := by
  induction h with
  | permute h =>
    refine RecordKind.read_carries fun fields hfields => ?_
    obtain ⟨fields', hfields', hfind⟩ := knownMembers_perm h hfields
    exact ⟨fields', hfields', fun name => hfind name ▸ .same _⟩
  | @drop kind name v h members =>
    refine RecordKind.read_carries fun fields hfields => ?_
    by_cases hname : name ∈ kind.fieldNames
    · obtain ⟨others, hothers, hnone, rfl⟩ := (knownMembers_cons_iff hname).1 hfields
      refine ⟨others, hothers, fun other => ?_⟩
      by_cases hother : name = other
      · subst hother
        simp only [Keyed.find?, if_true, hnone]
        exact .omitted h
      · simp only [Keyed.find?, hother, if_false]
        exact .same _
    · exact ⟨fields, (knownMembers_cons_unknown hname v).symm.trans hfields, fun _ => .same _⟩
  | @add kind name h v members =>
    exact RecordKind.read_carries fun fields hfields => ⟨fields, (knownMembers_cons_unknown h v).trans hfields, fun _ => .same _⟩
  | item hfield _ before after members ih =>
    exact RecordKind.read_carries_cons (RecordKind.mem_of_inList? hfield) (.item hfield ih before after) members
  | entry hfield key _ before after members ih =>
    exact RecordKind.read_carries_cons (RecordKind.mem_of_inMap? hfield) (.entry hfield ih key before after) members

/-- What is read of the value of a record is read of it after any number of edits. -/
theorem read_of_reflTransGen (h : Relation.ReflTransGen (Edit kind) v v') (limit : Nat) :
    Carries (kind.read limit v) (kind.read limit v') := by
  induction h with
  | refl => exact .refl _
  | tail _ h ih => exact ih.trans (h.read limit)

end Edit

end GrammarLinker
