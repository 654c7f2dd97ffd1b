import FiniteAutomata.Draft.Kind
import FiniteAutomata.Reading.Defect
import FiniteAutomata.Value.Limits

/-!
# Faults: why an operation gives no answer
-/

namespace FiniteAutomata

inductive Request where
  | runNfa
  | runDfa
  | determinize
  | closure
  deriving DecidableEq

/-- `found` names what was given in place of a checked automaton. -/
inductive Fault where
  | unhashable (typeName : String)
  | notIterable (typeName : String)
  | noFields (typeName : String)
  | unknownKind (v : Value)
  | malformed (defects : List Defect)
  | noInitialState
  | rejected (summary : String)
  | notChecked (request : Request) (found : String)
  | wrongKind (found : Kind)
  | unchecked
  | notPair (typeName : String)
  | tooFew (expected found : Nat)
  | tooMany (expected : Nat)
  | incomparable (relation left right : String)
  | unsupported (operator left right : String)
  | tooLarge
  | notIndex (typeName : String)
  | noLength (typeName : String)
  | reversedRange (name : String) (low high : Value)
  | probabilityOutside (low high : Value)
  | negativeCount (n : Value)
  | negativeLength (n : Value)
  | exceeded (e : Excess) (limits : Limits)

/-- A number as plain text, anything else in its written form. -/
def Value.plain : Value → String
  | text s => s
  | v => v.written

namespace Fault

def requestMessage (request : Request) (found : String) : String :=
  match request with
  | .runNfa => "run_nfa requires a ValidatedAutomaton, got " ++ found ++ "; call validate_automaton() first"
  | .runDfa => "run_dfa requires a ValidatedAutomaton, got " ++ found ++ "; call validate_automaton() first"
  | .determinize =>
    "determinize requires a ValidatedAutomaton, got " ++ found ++ "; use determinize_spec for drafts"
  | .closure => "epsilon_closure requires a ValidatedAutomaton, got " ++ found

def message : Fault → String
  | unhashable typeName => "unhashable type: '" ++ typeName ++ "'"
  | notIterable typeName => "'" ++ typeName ++ "' object is not iterable"
  | noFields typeName => "'" ++ typeName ++ "' object has no attribute 'get'"
  | unknownKind v => v.written ++ " is not a valid AutomatonKind"
  | malformed _ => ""
  | noInitialState => "Missing initial state"
  | rejected summary => "Automaton failed validation: " ++ summary
  | notChecked request found => requestMessage request found
  | wrongKind found =>
    "run_dfa requires kind 'dfa', got '" ++ found.name ++ "'; use run_nfa or determinize()"
  | unchecked => "ValidatedAutomaton instances are produced by validate_automaton()"
  | notPair typeName => "cannot unpack non-iterable " ++ typeName ++ " object"
  | tooFew expected found =>
    "not enough values to unpack (expected " ++ toString expected ++ ", got " ++ toString found ++ ")"
  | tooMany expected => "too many values to unpack (expected " ++ toString expected ++ ")"
  | incomparable relation left right =>
    "'" ++ relation ++ "' not supported between instances of '" ++ left ++ "' and '" ++ right ++ "'"
  | unsupported operator left right =>
    "unsupported operand type(s) for " ++ operator ++ ": '" ++ left ++ "' and '" ++ right ++ "'"
  | tooLarge => "int too large to convert to float"
  | notIndex typeName => "'" ++ typeName ++ "' object cannot be interpreted as an integer"
  | noLength typeName => "object of type '" ++ typeName ++ "' has no len()"
  | reversedRange name low high =>
    name ++ " is malformed: low (" ++ low.plain ++ ") must be <= high (" ++ high.plain ++ ")"
  | probabilityOutside low high =>
    "prob_range bounds must be within [0.0, 1.0], got (" ++ low.plain ++ ", " ++ high.plain ++ ")"
  | negativeCount n => "count must be >= 0, got " ++ n.plain
  | negativeLength n => "max_length must be >= 0, got " ++ n.plain
  | exceeded .digits limits =>
    "Exceeds the limit (" ++ toString limits.digits ++ " digits) for integer string conversion; " ++
      "use sys.set_int_max_str_digits() to increase the limit"
  | exceeded .calls _ => "maximum recursion depth exceeded"

end Fault

/-! ## Values as members of sets -/

def Value.checkHash (v : Value) : Except Fault Unit :=
  match v.unhashable? with
  | some typeName => .error (.unhashable typeName)
  | none => .ok ()

def checkHashes : List Value → Except Fault Unit
  | [] => .ok ()
  | v :: vs =>
    match v.checkHash with
    | .error e => .error e
    | .ok _ => checkHashes vs

def Value.members (v : Value) : Except Fault (List Value) :=
  match v.members? with
  | some xs => .ok xs
  | none => .error (.notIterable v.typeName)

theorem Value.checkHash_cases (v : Value) : (v.isHashable = true ∧ v.checkHash = .ok ()) ∨
    ∃ name, v.isHashable = false ∧ v.checkHash = .error (.unhashable name) := by
  unfold isHashable checkHash
  cases v.unhashable? with
  | none => exact Or.inl ⟨rfl, rfl⟩
  | some name => exact Or.inr ⟨name, rfl, rfl⟩

theorem Value.checkHash_eq_ok {v : Value} (h : v.isHashable = true) : v.checkHash = .ok () := by
  rcases v.checkHash_cases with ⟨_, hv⟩ | ⟨_, hv, _⟩
  · exact hv
  · rw [h] at hv; cases hv

theorem Value.checkHash_eq_error {v : Value} (h : v.isHashable = false) :
    ∃ name, v.checkHash = .error (.unhashable name) := by
  rcases v.checkHash_cases with ⟨hv, _⟩ | ⟨name, _, hv⟩
  · rw [h] at hv; cases hv
  · exact ⟨name, hv⟩

theorem checkHashes_eq_ok_iff {vs : List Value} :
    checkHashes vs = .ok () ↔ ∀ v ∈ vs, v.isHashable = true := by
  induction vs with
  | nil => simp [checkHashes]
  | cons v vs ih =>
    cases h : v.unhashable? <;> simp [checkHashes, Value.checkHash, Value.isHashable, h, ih]

end FiniteAutomata
