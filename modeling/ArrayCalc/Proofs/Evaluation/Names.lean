import ArrayCalc.Proofs.Evaluation.Refusals
import ArrayCalc.Proofs.Load.Names
import ArrayCalc.Proofs.Table.Discovery

/-! The names that an evaluation needs. It finds every variable if the table knows each name as the
kinds of its uses, and it has a value only then. -/
namespace ArrayCalc

def Table.Knows (t : Table) (uses : List (String × VariableKind)) : Prop :=
  ∀ use ∈ uses, use.1 ∈ t.namesOf use.2

@[simp] theorem Table.knows_nil {t : Table} : t.Knows [] := by
  simp [Knows]

@[simp] theorem Table.knows_cons_iff {t : Table} {use : String × VariableKind}
    {uses : List (String × VariableKind)} :
    t.Knows (use :: uses) ↔ use.1 ∈ t.namesOf use.2 ∧ t.Knows uses :=
  List.forall_mem_cons

@[simp] theorem Table.knows_append_iff {t : Table} {uses later : List (String × VariableKind)} :
    t.Knows (uses ++ later) ↔ t.Knows uses ∧ t.Knows later :=
  List.forall_mem_append

theorem Operand.known_of_element {t : Table} {name : String} {namePosition position : Nat}
    {subscript value : Float}
    (h : (element t name namePosition subscript position).outcome = .ok value) :
    name ∈ t.namesOf .array := by
  simp only [element, Traced.outcome_bind_eq_ok_iff, Traced.outcome_ofOption_eq_ok_iff] at h
  obtain ⟨array, known, -⟩ := h
  exact Table.isSome_array?_iff.mp (by simp [known])

namespace State

variable {table : Table} {l : Lexeme} {ls : List Lexeme} {following : Option Token} {s s' : State}

/-- The array names that wait for the end of their subscript, as uses. -/
def awaited (s : State) : List (String × VariableKind) := s.pending.map fun p => (p.1, .array)

/-- Every array name waits for a subscript that is open, or about to be opened. -/
structure Lockstep (following : Option Token) (s : State) : Prop where
  length_eq : s.pending.length = (brackets s.marks).count .square + s.afterArrayName.toNat
  opens : s.afterArrayName = true → following = some (.opening .square)

theorem Takes.lockstep (h : Takes table l following s s') (before : Lockstep (some l.token) s) :
    Lockstep following s' := by
  obtain ⟨length_eq, opens⟩ := before
  cases h with
  | integer token | scalar token | openingParen token =>
    have other : s.afterArrayName = false := by simpa [token] using opens
    exact ⟨by simpa [other] using length_eq, by simp⟩
  | arrayName token follows =>
    have other : s.afterArrayName = false := by simpa [token] using opens
    exact ⟨by simpa [other] using length_eq, fun _ => follows⟩
  | operator token reduces | closingParen token reduces =>
    have other : s.afterArrayName = false := by simpa [token] using opens
    exact ⟨by simpa [other, reduces.marks_eq] using length_eq, by simp⟩
  | openingSquare token named => exact ⟨by simpa [named] using length_eq, by simp⟩
  | closingSquare token reduces waiting =>
    have other : s.afterArrayName = false := by simpa [token] using opens
    exact ⟨by simpa [other, reduces.marks_eq, waiting] using length_eq, by simp⟩

theorem Runs.lockstep (h : Runs table ls s s')
    (before : Lockstep (ls.head?.map Lexeme.token) s) : Lockstep none s' := by
  induction h with
  | nil => exact before
  | cons takes _ ih => exact ih (takes.lockstep before)

/-- What a lexeme needs beyond the names that the rest of a run needs is there if it is taken in. -/
theorem Takes.knows_iff (h : Takes table l (ls.head?.map Lexeme.token) s s') :
    table.Knows (s.awaited ++ identifierUses ((l :: ls).map Lexeme.token)) ↔
      table.Knows (s'.awaited ++ identifierUses (ls.map Lexeme.token)) := by
  cases h with
  | integer token | operator token | openingParen token | openingSquare token =>
    simp [awaited, identifierUses, token]
  | closingParen token => simp [awaited, identifierUses, token]
  | arrayName token follows =>
    simp [awaited, identifierUses, token, follows, and_left_comm]
  | @scalar name stored operand token follows known =>
    have mem : name ∈ table.namesOf .scalar := by
      by_contra fresh
      simp [Table.scalarValue?_eq_none_iff.mpr fresh] at known
    simp [awaited, identifierUses, token, follows, mem]
  | closingSquare token _ waiting read =>
    simp [awaited, identifierUses, token, waiting, Operand.known_of_element read]

theorem Runs.knows_iff (h : Runs table ls s s') :
    table.Knows (s.awaited ++ identifierUses (ls.map Lexeme.token)) ↔ table.Knows s'.awaited := by
  induction h with
  | nil => simp [identifierUses]
  | cons takes _ ih => rw [takes.knows_iff, ih]

theorem Refuses.not_knows {name : String} {kind : VariableKind} {position : Nat}
    (h : Refuses table l (ls.head?.map Lexeme.token) s (.unknownVariable name kind position)) :
    ¬ table.Knows (s.awaited ++ identifierUses ((l :: ls).map Lexeme.token)) := by
  intro knows
  cases h with
  | unknownScalar token follows unknown =>
    have fresh := Table.scalarValue?_eq_none_iff.mp unknown
    simp [identifierUses, token, follows, fresh] at knows
  | element token _ waiting denies =>
    cases denies with
    | unknown unknown =>
      have fresh := Table.array?_eq_none_iff.mp unknown
      simp [awaited, waiting, fresh] at knows

theorem Fails.not_knows {name : String} {kind : VariableKind} {position : Nat}
    (h : Fails table (.unknownVariable name kind position) ls s) :
    ¬ table.Knows (s.awaited ++ identifierUses (ls.map Lexeme.token)) := by
  induction h with
  | here refuses => exact refuses.not_knows
  | later takes _ ih => rwa [takes.knows_iff]

end State

variable {text : String} {t : Table}

theorem evaluate_ne_unknown (knows : t.Knows (identifierUses (tokens text))) (name : String)
    (kind : VariableKind) (position : Nat) :
    evaluate text t ≠ .error (.unknownVariable name kind position) := by
  intro failed
  rcases evaluate_eq_error failed with fails | ⟨reason, other⟩
  · exact fails.not_knows (by simpa [State.awaited, tokens] using knows)
  · simp at other

/-- No array name waits once all brackets are closed at the end of a text. -/
theorem State.Runs.pending_eq_nil {s : State} (runs : Runs t (lexemes text) {} s)
    (closed : brackets s.marks = []) : s.pending = [] := by
  obtain ⟨length_eq, opens⟩ := runs.lockstep ⟨rfl, by simp⟩
  have last : s.afterArrayName = false := by simpa using opens
  simpa [last, closed] using length_eq

theorem knows_of_evaluate {value : Float} (h : evaluate text t = .ok value) :
    t.Knows (identifierUses (tokens text)) := by
  obtain ⟨s, runs, ending⟩ := evaluate_eq_ok h
  obtain ⟨closed, -⟩ := State.finish_eq_ok ending
  have none : s.awaited = [] := by simp [State.awaited, runs.pending_eq_nil closed]
  simpa [State.awaited, none, tokens] using runs.knows_iff.mpr (by simp [none])

/-- Discovery registers the identifiers of a text that has only known tokens and no two atoms side
by side: each once, in the order of first occurrence, and as an array exactly if it stands before
`[` there. Whatever is loaded afterwards, a text that uses no name as both kinds has all its
variables, and one that does has no value. -/
theorem discover_eq_firstNames (known : ∀ token ∈ tokens text, token.isError = false)
    (separated : Separated (tokens text)) :
    (∀ kind, (discover text).namesOf kind = firstNames (identifierUses (tokens text)) kind) ∧
      ∀ t, Loads (discover text) t →
        ((∀ name, ¬ Mixed (identifierUses (tokens text)) name) → ∀ name kind position,
          evaluate text t ≠ .error (.unknownVariable name kind position)) ∧
        ((∃ name, Mixed (identifierUses (tokens text)) name) → ∀ value,
          evaluate text t ≠ .ok value) := by
  refine ⟨namesOf_discover known separated, ?_⟩
  intro t loads
  have names : ∀ kind, t.namesOf kind = firstNames (identifierUses (tokens text)) kind := by
    intro kind
    rw [loads.namesOf_eq, namesOf_discover known separated]
  constructor
  · intro pure
    refine evaluate_ne_unknown ?_
    intro use mem
    rw [names]
    exact mem_firstNames_of_mem pure mem
  · rintro ⟨name, scalar, array⟩ value h
    have asScalar := knows_of_evaluate h _ scalar
    have asArray := knows_of_evaluate h _ array
    rw [names, mem_firstNames] at asScalar asArray
    simp [asScalar] at asArray

theorem discover_eq_firstNames_mixed :
    (∀ token ∈ tokens "x+A [x]*12-A", token.isError = false) ∧
      Separated (tokens "x+A [x]*12-A") ∧
      (discover "x+A [x]*12-A").namesOf .scalar = ["x"] ∧
      (discover "x+A [x]*12-A").namesOf .array = ["A"] ∧
      ∀ source value,
        evaluate "x+A [x]*12-A" ((discover "x+A [x]*12-A").loadText source).table ≠ .ok value := by
  have read : tokens "x+A [x]*12-A" =
      [.identifier "x", .operator .add, .identifier "A", .opening .square, .identifier "x",
        .closing .square, .operator .mul, .integer 12, .operator .sub, .identifier "A"] := by
    decide
  have known : ∀ token ∈ tokens "x+A [x]*12-A", token.isError = false := by
    rw [read]
    decide
  have separated : Separated (tokens "x+A [x]*12-A") := by
    rw [read, Separated]
    decide
  obtain ⟨names, agrees⟩ := discover_eq_firstNames known separated
  refine ⟨known, separated, ?_, ?_, ?_⟩
  · rw [names, read]
    decide
  · rw [names, read]
    decide
  · intro source
    refine (agrees _ (Loads.refl.text source)).2 ⟨"A", ?_⟩
    rw [read]
    exact ⟨by decide, by decide⟩

end ArrayCalc
