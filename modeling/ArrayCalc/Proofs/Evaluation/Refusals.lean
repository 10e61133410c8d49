import ArrayCalc.Proofs.Evaluation.Steps

/-! Why one lexeme can be refused. `Refuses` says it once for all lexemes, with what the table does
not grant; the reductions themselves only ever miss an operand or a bracket. -/
namespace ArrayCalc

inductive Operand.Denies (table : Table) (name : String) (namePosition : Nat) (subscript : Float)
    (position : Nat) : EvalError → Prop where
  | unknown (unknown : table.array? name = none) :
      Denies table name namePosition subscript position (.unknownVariable name .array namePosition)
  | outside {array : ArrayVariable} (known : table.array? name = some array)
      (outside : Number.slot? subscript array.size = none) :
      Denies table name namePosition subscript position
        (.indexOutOfRange name (Number.truncate subscript) array.size position)
  | tooLarge {array : ArrayVariable} {slot : Nat} (known : table.array? name = some array)
      (inside : Number.slot? subscript array.size = some slot)
      (inexact : Number.ofInt? (array.values.getD slot 0) = none) :
      Denies table name namePosition subscript position
        (.valueTooLarge name (array.values.getD slot 0) position)

theorem Operand.denies_of_element {table : Table} {name : String} {namePosition position : Nat}
    {subscript : Float} {e : EvalError}
    (h : (element table name namePosition subscript position).outcome = .error e) :
    Denies table name namePosition subscript position e := by
  simp only [element, Traced.outcome_bind_eq_error_iff, Traced.outcome_ofOption_eq_error_iff,
    Traced.outcome_ofOption_eq_ok_iff] at h
  rcases h with ⟨unknown, rfl⟩ | ⟨array, known, ⟨outside, rfl⟩ | ⟨slot, inside, rest⟩⟩
  · exact .unknown unknown
  · exact .outside known outside
  · rcases rest with ⟨inexact, rfl⟩ | ⟨value, exact, ending⟩
    · exact .tooLarge known inside inexact
    · simp at ending

namespace State

variable {passes : Operator → Bool} {truncating : Bool} {position : Nat} {operands : List Float}
  {marks : List Mark} {e : EvalError}

theorem malformed_of_reduce {op : Operator}
    (h : (reduce op truncating position operands).outcome = .error e) :
    e = .malformed .missingOperand position := by
  match operands with
  | [] | [_] => simpa [reduce, eq_comm] using h
  | right :: left :: operands => simp [reduce, Operand.combine, Except.map] at h

theorem malformed_of_reduceWhile
    (h : (reduceWhile passes truncating position operands marks).outcome = .error e) :
    e = .malformed .missingOperand position := by
  induction marks generalizing operands with
  | nil => simp [reduceWhile] at h
  | cons mark marks ih =>
    cases mark with
    | bracket => simp [reduceWhile] at h
    | operator op =>
      simp only [reduceWhile] at h
      split at h
      · rcases Traced.outcome_bind_eq_error_iff.mp h with first | ⟨between, _, rest⟩
        · exact malformed_of_reduce first
        · exact ih rest
      · simp at h

/-- A group that cannot be closed lacks an operand or its bracket. -/
theorem malformed_of_closeGroup {b : Bracket}
    (h : (closeGroup b position operands marks).outcome = .error e) :
    ∃ reason, e = .malformed reason position ∧ reason ≠ .namelessSubscript := by
  simp only [closeGroup, Traced.outcome_bind_eq_error_iff] at h
  rcases h with reducing | ⟨between, _, closing⟩
  · exact ⟨_, malformed_of_reduceWhile reducing, by simp⟩
  · split at closing
    · split at closing
      · simp at closing
      · exact ⟨_, by simpa [eq_comm] using closing, by simp⟩
    · exact ⟨_, by simpa [eq_comm] using closing, by simp⟩

inductive Refuses (table : Table) (lexeme : Lexeme) (following : Option Token) (s : State) :
    EvalError → Prop where
  | malformed (reason : Malformation) :
      Refuses table lexeme following s (.malformed reason lexeme.start)
  | integer {value : Nat} (token : lexeme.token = .integer value)
      (inexact : Number.ofInt? value = none) :
      Refuses table lexeme following s (.literalTooLarge lexeme.start)
  | oversized {digits : String} (token : lexeme.token = .oversized digits) :
      Refuses table lexeme following s (.literalTooLarge lexeme.start)
  | foreign {c : Char} (token : lexeme.token = .foreign c) :
      Refuses table lexeme following s (.unexpectedCharacter (String.singleton c) lexeme.start)
  | unknownScalar {name : String} (token : lexeme.token = .identifier name)
      (follows : following ≠ some (.opening .square)) (unknown : table.scalarValue? name = none) :
      Refuses table lexeme following s (.unknownVariable name .scalar lexeme.start)
  | scalarTooLarge {name : String} {stored : Int} (token : lexeme.token = .identifier name)
      (follows : following ≠ some (.opening .square))
      (known : table.scalarValue? name = some stored) (inexact : Number.ofInt? stored = none) :
      Refuses table lexeme following s (.valueTooLarge name stored lexeme.start)
  | element {reduced : List Operator} {operands : List Float} {marks : List Mark}
      {subscript : Float} {name : String} {namePosition : Nat} {pending : List (String × Nat)}
      {e : EvalError} (token : lexeme.token = .closing .square)
      (reduces : Reduces (fun _ => true) s.operands s.marks reduced (subscript :: operands)
        (.bracket .square :: marks))
      (waiting : s.pending = (name, namePosition) :: pending)
      (denies : Operand.Denies table name namePosition subscript lexeme.start e) :
      Refuses table lexeme following s e

theorem refuses_of_step {table : Table} {lexeme : Lexeme} {following : Option Token} {s : State}
    (h : (step table lexeme following s).outcome = .error e) :
    Refuses table lexeme following s e := by
  cases token : lexeme.token with
  | integer value =>
    simp only [step, token, Operand.literal, Traced.outcome_bind_eq_error_iff,
      Traced.outcome_ofOption_eq_error_iff, Traced.outcome_pure, reduceCtorEq, and_false,
      exists_false, or_false] at h
    obtain ⟨inexact, rfl⟩ := h
    exact .integer token inexact
  | identifier name =>
    simp only [step, token] at h
    split at h
    · simp at h
    · rename_i follows
      simp only [Operand.scalar, Traced.outcome_bind_eq_error_iff,
        Traced.outcome_ofOption_eq_error_iff, Traced.outcome_ofOption_eq_ok_iff,
        Traced.outcome_pure, reduceCtorEq, and_false, exists_false, or_false] at h
      rcases h with ⟨unknown, rfl⟩ | ⟨stored, known, inexact, rfl⟩
      · exact .unknownScalar token follows unknown
      · exact .scalarTooLarge token follows known inexact
  | operator op =>
    simp only [step, token, Traced.outcome_bind_eq_error_iff, Traced.outcome_pure, reduceCtorEq,
      and_false, exists_false, or_false] at h
    rw [malformed_of_reduceWhile h]
    exact .malformed _
  | opening b =>
    cases b with
    | paren => simp [step, token] at h
    | square =>
      simp only [step, token] at h
      split at h
      · simp at h
      · obtain rfl : _ = e := by simpa using h
        exact .malformed _
  | closing b =>
    cases b with
    | paren =>
      simp only [step, token, Traced.outcome_bind_eq_error_iff, Traced.outcome_pure, reduceCtorEq,
        and_false, exists_false, or_false] at h
      obtain ⟨reason, rfl, -⟩ := malformed_of_closeGroup h
      exact .malformed reason
    | square =>
      simp only [step, token, Traced.outcome_bind_eq_error_iff] at h
      rcases h with closing | ⟨⟨operands, marks⟩, closing, resolving⟩
      · obtain ⟨reason, rfl, -⟩ := malformed_of_closeGroup closing
        exact .malformed reason
      obtain ⟨reduced, reduces⟩ := reduces_of_closeGroup closing
      simp only [resolveSubscript] at resolving
      split at resolving
      · obtain rfl : _ = e := by simpa using resolving
        exact .malformed _
      · obtain rfl : _ = e := by simpa using resolving
        exact .malformed _
      · rename_i subscript operands name namePosition pending waiting
        simp only [Traced.outcome_bind_eq_error_iff, Traced.outcome_pure, reduceCtorEq, and_false,
          exists_false, or_false] at resolving
        exact .element token reduces waiting (Operand.denies_of_element resolving)
  | oversized digits =>
    obtain rfl : _ = e := by simpa [step, token] using h
    exact .oversized token
  | foreign c =>
    obtain rfl : _ = e := by simpa [step, token] using h
    exact .foreign token

/-- Lexemes of which one is refused, once those before it are taken in. -/
inductive Fails (table : Table) (e : EvalError) : List Lexeme → State → Prop where
  | here {lexeme : Lexeme} {rest : List Lexeme} {s : State}
      (refuses : Refuses table lexeme (rest.head?.map Lexeme.token) s e) :
      Fails table e (lexeme :: rest) s
  | later {lexeme : Lexeme} {rest : List Lexeme} {s between : State}
      (takes : Takes table lexeme (rest.head?.map Lexeme.token) s between)
      (others : Fails table e rest between) : Fails table e (lexeme :: rest) s

theorem fails_of_run {table : Table} {ls : List Lexeme} {s : State}
    (h : (run table ls s).outcome = .error e) : Fails table e ls s := by
  induction ls generalizing s with
  | nil => simp [run] at h
  | cons lexeme rest ih =>
    simp only [run, Traced.outcome_bind_eq_error_iff] at h
    rcases h with first | ⟨between, first, others⟩
    · exact .here (refuses_of_step first)
    · exact .later (takes_of_step first) (ih others)

theorem malformed_of_finish {s : State} (h : (s.finish position).outcome = .error e) :
    ∃ reason, e = .malformed reason position ∧ reason ≠ .namelessSubscript := by
  simp only [finish, Traced.outcome_bind_eq_error_iff] at h
  rcases h with reducing | ⟨⟨operands, marks⟩, _, ending⟩
  · exact ⟨_, malformed_of_reduceWhile reducing, by simp⟩
  · split at ending
    · exact ⟨_, by simpa [eq_comm] using ending, by simp⟩
    · split at ending
      · simp at ending
      · exact ⟨_, by simpa [eq_comm] using ending, by simp⟩
      · exact ⟨_, by simpa [eq_comm] using ending, by simp⟩

end State

/-- An evaluation that fails refuses a lexeme, or finds the end of the text malformed. -/
theorem evaluate_eq_error {text : String} {table : Table} {e : EvalError}
    (h : evaluate text table = .error e) :
    State.Fails table e (lexemes text) {} ∨
      ∃ reason, e = .malformed reason text.utf8ByteSize := by
  simp only [evaluate, evaluateTraced, Traced.outcome_bind_eq_error_iff] at h
  rcases h with running | ⟨s, _, ending⟩
  · exact .inl (State.fails_of_run running)
  · obtain ⟨reason, malformed, -⟩ := State.malformed_of_finish ending
    exact .inr ⟨reason, malformed⟩

end ArrayCalc
