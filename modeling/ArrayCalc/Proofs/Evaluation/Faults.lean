import ArrayCalc.Proofs.Evaluation.Pending
import ArrayCalc.Proofs.Evaluation.TreeRuns
import ArrayCalc.Proofs.Number.Conversion
import ArrayCalc.Proofs.Token.Places

/-! Faults tell the truth. Whatever the text, well formed or not, a fault of its evaluation is about
what stands in the text at the position of the fault, and about what the table holds for the
name. -/
namespace ArrayCalc

/-- A use of a name at a position: as an array if `[` follows directly, as a scalar otherwise. -/
def UsedAt (ls : List Lexeme) (name : String) (kind : VariableKind) (position : Nat) : Prop :=
  ∃ before after stop, ls = before ++ ⟨.identifier name, position, stop⟩ :: after ∧
    (kind = .array ↔ after.head?.map Lexeme.token = some (.opening .square))

def SubscriptEnds (ls : List Lexeme) (name : String) (closing : Nat) : Prop :=
  ∃ namePosition, HasSubscript ls name namePosition closing

/-- What a fault says about the text and the table that it arises from. -/
def EvalError.IsTrue (text : String) (table : Table) : EvalError → Prop
  | unknownVariable name kind position =>
    UsedAt (lexemes text) name kind position ∧ name ∉ table.namesOf kind
  | indexOutOfRange name index size position =>
    SubscriptEnds (lexemes text) name position ∧
      ∃ array subscript, table.array? name = some array ∧ array.size = size ∧
        Number.slot? subscript size = none ∧ index = Number.truncate subscript
  | malformed _ position =>
    ((∃ l ∈ lexemes text, l.start = position) ∨ position = text.utf8ByteSize) ∧
      ¬ Derivable (lexemes text)
  | unexpectedCharacter characters position =>
    ∃ c, characters = String.singleton c ∧ CharacterAt text c position ∧ IsForeign c
  | literalTooLarge position => ∃ value, DigitsAt text value position ∧ Number.exactLimit < value
  | valueTooLarge name value position =>
    Number.exactLimit < value.natAbs ∧
      ((UsedAt (lexemes text) name .scalar position ∧ table.scalarValue? name = some value) ∨
        SubscriptEnds (lexemes text) name position ∧
          ∃ slot, table.arrayValue? name slot = some value)

theorem HasSubscript.usedAt {ls : List Lexeme} {name : String} {namePosition closing : Nat}
    (h : HasSubscript ls name namePosition closing) : UsedAt ls name .array namePosition := by
  obtain ⟨before, inside, after, stop, start₁, stop₁, stop₂, -, eq⟩ := h
  exact ⟨before, _, stop, eq, by simp⟩

/-- A value that is too large is no zero that stands for a missing slot. -/
theorem ArrayVariable.getElem?_of_inexact {array : ArrayVariable} {slot : Nat}
    (inexact : Number.ofInt? (array.values.getD slot 0) = none) :
    array.values[slot]? = some (array.values.getD slot 0) := by
  rw [Number.ofInt?_eq_none_iff] at inexact
  cases held : array.values[slot]? with
  | none => simp [Array.getD_eq_getD_getElem?, held] at inexact
  | some value => simp [Array.getD_eq_getD_getElem?, held]

/-- Why an element is denied is true where its subscript ends. -/
theorem Operand.Denies.isTrue {text name : String} {table : Table} {namePosition position : Nat}
    {subscript : Float} {e : EvalError} (h : Denies table name namePosition subscript position e)
    (closes : HasSubscript (lexemes text) name namePosition position) : e.IsTrue text table := by
  cases h with
  | unknown unknown => exact ⟨closes.usedAt, Table.array?_eq_none_iff.mp unknown⟩
  | outside known outside => exact ⟨⟨_, closes⟩, _, subscript, known, rfl, outside, rfl⟩
  | @tooLarge array slot known inside inexact =>
    refine ⟨Number.ofInt?_eq_none_iff.mp inexact, .inr ⟨⟨_, closes⟩, slot, ?_⟩⟩
    simp only [Table.arrayValue?, known, Option.bind_some]
    exact ArrayVariable.getElem?_of_inexact inexact

variable {text : String} {table : Table} {e : EvalError}

theorem literalTooLarge_isTrue {l : Lexeme} (h : l ∈ lexemes text)
    (numeral : l.token.isNumeral = true)
    (large : ∀ value, l.token = .integer value → Number.exactLimit < value) :
    (EvalError.literalTooLarge l.start).IsTrue text table := by
  obtain ⟨digits, placed, token⟩ := exists_digitsAt h numeral
  refine ⟨_, placed, ?_⟩
  by_cases fits : Nat.ofDigitChars 10 digits 0 ≤ Token.integerLimit
  · exact large _ (by simp [token, Token.ofDigits, fits])
  · have wider : Number.exactLimit < Token.integerLimit := by decide
    omega

theorem not_derivable_of_malformed {reason : Malformation} {position : Nat}
    (h : evaluate text table = .error (.malformed reason position)) :
    ¬ Derivable (lexemes text) := by
  rintro ⟨tree, derives⟩
  rw [evaluate, evaluateTraced_eq_value derives] at h
  exact tree.outcome_value_ne_malformed _ _ _ _ h

theorem usedAt_of_split {ls earlier later : List Lexeme} {l : Lexeme} {name : String}
    (split : ls = earlier ++ l :: later) (token : l.token = .identifier name)
    (follows : later.head?.map Lexeme.token ≠ some (.opening .square)) :
    UsedAt ls name .scalar l.start := by
  obtain ⟨_, start, stop⟩ := l
  subst token
  exact ⟨earlier, later, stop, split, by simpa using follows⟩

/-- Why a lexeme is refused is true at the lexeme, if the stacks hold what those before it leave. -/
theorem State.Refuses.isTrue {earlier later : List Lexeme} {l : Lexeme} {s : State}
    (h : Refuses table l (later.head?.map Lexeme.token) s e)
    (split : lexemes text = earlier ++ l :: later) (follows : Follows earlier s)
    (lockstep : Lockstep (some l.token) s)
    (underivable : ∀ reason position, e = .malformed reason position →
      ¬ Derivable (lexemes text)) : e.IsTrue text table := by
  have mem : l ∈ lexemes text := by simp [split]
  cases h with
  | malformed reason => exact ⟨.inl ⟨l, mem, rfl⟩, underivable reason _ rfl⟩
  | integer token inexact =>
    refine literalTooLarge_isTrue mem (by rw [token]; rfl) ?_
    intro value same
    obtain rfl := Token.integer.inj (token.symm.trans same)
    simpa using Number.ofInt?_eq_none_iff.mp inexact
  | oversized token => exact literalTooLarge_isTrue mem (by rw [token]; rfl) (by simp [token])
  | foreign token =>
    obtain ⟨placed, foreign⟩ := characterAt_of_foreign mem token
    exact ⟨_, rfl, placed, foreign⟩
  | unknownScalar token follows unknown =>
    exact ⟨usedAt_of_split split token follows, Table.scalarValue?_eq_none_iff.mp unknown⟩
  | scalarTooLarge token follows known inexact =>
    exact ⟨Number.ofInt?_eq_none_iff.mp inexact, .inl ⟨usedAt_of_split split token follows, known⟩⟩
  | element token reduces waiting denies =>
    have other : s.afterArrayName = false := by simpa [token] using lockstep.opens
    have leaves := (follows_iff_leaves other).mp follows
    rw [reduces.marks_eq, brackets_operators, waiting] at leaves
    exact denies.isTrue (split ▸ (leaves.closingSquare token).2 later)

/-- A fault of an evaluation tells the truth about the text and the table, whether the text is well
formed or not. -/
theorem isTrue_of_evaluate_eq_error (h : evaluate text table = .error e) : e.IsTrue text table := by
  rcases evaluate_eq_error h with fails | ⟨reason, rfl⟩
  · have start : State.Follows [] {} := .none .nil
    obtain ⟨earlier, l, later, s, split, follows, lockstep, refuses⟩ :=
      fails.exists_refuses start ⟨rfl, by simp⟩
    refine refuses.isTrue split follows lockstep ?_
    rintro reason position rfl
    exact not_derivable_of_malformed h
  · exact ⟨.inr rfl, not_derivable_of_malformed h⟩

/-- The outer subscript is out of range, which is found before the group that is never closed. -/
theorem isTrue_of_evaluate_eq_error_nested :
    evaluate "(A[A[1]+ 7/2]" { arrays := [⟨"A", #[4, 5]⟩] } =
        .error (.indexOutOfRange "A" 8 2 12) ∧
      (EvalError.indexOutOfRange "A" 8 2 12).IsTrue "(A[A[1]+ 7/2]"
        { arrays := [⟨"A", #[4, 5]⟩] } := by
  have failed : evaluate "(A[A[1]+ 7/2]" { arrays := [⟨"A", #[4, 5]⟩] } =
      .error (.indexOutOfRange "A" 8 2 12) := by
    decide +kernel
  exact ⟨failed, isTrue_of_evaluate_eq_error failed⟩

end ArrayCalc
