import GrammarLinker.Keyed

/-!
# Grammar files

A grammar file as its author writes it: records nested in records, before anything is linked. A record is an include, when it
has a reference, or else a rule. What a rule matches is kept as it is and never interpreted. Repositories and captures are keyed
lists (`Keyed`): their order is the order of the file.
-/

namespace GrammarLinker

/-- What is kept of a capture: the scope name given to it. -/
structure Capture where
  name : Option String := none
  deriving DecidableEq, Inhabited

/-- What a rule matches and how its captures are named; the expressions are opaque texts. -/
structure MatchRule where
  matchExpr : Option String := none
  beginExpr : Option String := none
  endExpr : Option String := none
  whileExpr : Option String := none
  contentName : Option String := none
  captures : List (String × Capture) := []
  beginCaptures : List (String × Capture) := []
  endCaptures : List (String × Capture) := []
  whileCaptures : List (String × Capture) := []
  deriving DecidableEq, Inhabited

/-- A pattern record: an include when it has a reference, else a rule with its nested patterns and repository. -/
structure Record where
  reference : Option String := none
  name : Option String := none
  rule : MatchRule := {}
  patterns : List Record := []
  repository : List (String × Record) := []
  deriving Inhabited

/-- A grammar file: its scope name, its root patterns and its repository. -/
structure GrammarFile where
  scopeName : String
  name : Option String := none
  fileTypes : List String := []
  patterns : List Record := []
  repository : List (String × Record) := []
  deriving Inhabited

namespace Record

/-! ## Construction -/

/-- The record that includes a reference. -/
def including (reference : String) : Record := { reference := some reference }

/-- The rule of one expression. -/
def matching (name expression : String) : Record :=
  { name := some name, rule := { matchExpr := some expression } }

/-- The rule that only groups patterns. -/
def group (patterns : List Record) : Record := { patterns }

/-- Gives the repository of a record an entry, in place of one of the same key. -/
def withEntry (r : Record) (key : String) (entry : Record) : Record :=
  { r with repository := Keyed.put key entry r.repository }

/-! ## Classification -/

/-- A record with a reference is an include. -/
def isInclude (r : Record) : Bool := r.reference.isSome

/-- A record that is no include, matches nothing, has no name and opens no repository only wraps its patterns. A repository
entry of this shape stands for the patterns themselves. -/
def isBareGroup (r : Record) : Bool :=
  r.reference.isNone && r.name.isNone && decide (r.rule = {}) && r.repository.isEmpty

/-! ## Equality -/

mutual

/-- Records are compared field by field. -/
def decEq : (a b : Record) → Decidable (a = b)
  | ⟨r, n, u, ps, es⟩, ⟨r', n', u', ps', es'⟩ =>
    if h : r = r' ∧ n = n' ∧ u = u' then
      match decEqList ps ps', decEqEntries es es' with
      | .isTrue hp, .isTrue he => .isTrue (by rw [h.1, h.2.1, h.2.2, hp, he])
      | .isFalse hp, _ => .isFalse (by simp [hp])
      | _, .isFalse he => .isFalse (by simp [he])
    else .isFalse (by simp only [Record.mk.injEq, not_and]; intro h₁ h₂ h₃; exact absurd ⟨h₁, h₂, h₃⟩ h)

/-- Lists of records are compared item by item. -/
def decEqList : (as bs : List Record) → Decidable (as = bs)
  | [], [] => .isTrue rfl
  | [], _ :: _ => .isFalse nofun
  | _ :: _, [] => .isFalse nofun
  | a :: as, b :: bs =>
    match decEq a b, decEqList as bs with
    | .isTrue h, .isTrue hs => .isTrue (by rw [h, hs])
    | .isFalse h, _ => .isFalse (by simp [h])
    | _, .isFalse hs => .isFalse (by simp [hs])

/-- Repositories are compared entry by entry, in order. -/
def decEqEntries : (as bs : List (String × Record)) → Decidable (as = bs)
  | [], [] => .isTrue rfl
  | [], _ :: _ => .isFalse nofun
  | _ :: _, [] => .isFalse nofun
  | (k, a) :: as, (l, b) :: bs =>
    if hk : k = l then
      match decEq a b, decEqEntries as bs with
      | .isTrue h, .isTrue hs => .isTrue (by rw [hk, h, hs])
      | .isFalse h, _ => .isFalse (by simp [h])
      | _, .isFalse hs => .isFalse (by simp [hs])
    else .isFalse (by simp [hk])

end

instance : DecidableEq Record := decEq

end Record

deriving instance DecidableEq for GrammarFile

namespace GrammarFile

/-- The file of a scope with nothing in it. -/
def empty (scopeName : String) : GrammarFile := { scopeName }

/-- Gives a file its root patterns. -/
def withPatterns (file : GrammarFile) (patterns : List Record) : GrammarFile := { file with patterns }

/-- Gives the repository of a file an entry, in place of one of the same key. -/
def withEntry (file : GrammarFile) (key : String) (entry : Record) : GrammarFile :=
  { file with repository := Keyed.put key entry file.repository }

end GrammarFile

end GrammarLinker
