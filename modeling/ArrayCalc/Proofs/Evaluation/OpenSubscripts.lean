import ArrayCalc.Proofs.Evaluation.Pending
import ArrayCalc.Proofs.Evaluation.Reached

/-! The array names that wait are those before the subscripts that are still open, in the order of
the text. Which subscripts these are is read off the lexemes, without any stack. So no `]` ever
misses a name, or takes that of another subscript. -/
namespace ArrayCalc

/-- Whether lexemes close only brackets of their own and the last `opened` ones before them. -/
def closesNone : (opened : Nat) → List Lexeme → Bool
  | _, [] => true
  | opened, l :: ls =>
    match l.token, opened with
    | .opening _, opened => closesNone (opened + 1) ls
    | .closing _, 0 => false
    | .closing _, opened + 1 => closesNone opened ls
    | _, opened => closesNone opened ls

/-- The name that a lexeme is, with its position, if the token that follows makes it that of an
array. -/
def Lexeme.arrayName? (l : Lexeme) (following : Option Token) : Option (String × Nat) :=
  match l.token with
  | .identifier name => if following = some (.opening .square) then some (name, l.start) else none
  | _ => none

/-- The names of arrays among lexemes whose subscripts these leave open, with their positions, in
order. -/
def openNames : List Lexeme → List (String × Nat)
  | [] => []
  | l :: ls =>
    ((l.arrayName? (ls.head?.map Lexeme.token)).filter fun _ => closesNone 0 ls.tail).toList ++
      openNames ls

/-- The array name that stands last among the lexemes taken in, with the bracket of its subscript
first among those to come. -/
def arrayNameAtEnd? (done rest : List Lexeme) : Option (String × Nat) :=
  done.getLast?.bind fun l => l.arrayName? (rest.head?.map Lexeme.token)

variable {ls rs : List Lexeme} {l : Lexeme} {bs : List Bracket} {names : List (String × Nat)}

theorem closesNone_append (stays : ∀ opened, closesNone opened rs = true) (opened : Nat) :
    closesNone opened (ls ++ rs) = closesNone opened ls := by
  induction ls generalizing opened with
  | nil => simp [closesNone, stays]
  | cons l ls ih =>
    obtain ⟨token, start, stop⟩ := l
    cases token <;> cases opened <;> simp [closesNone, ih]

/-- What nests closes its own brackets only. -/
theorem Nested.closesNone_append (h : Nested ls) (opened : Nat) (rs : List Lexeme) :
    closesNone opened (ls ++ rs) = closesNone opened rs := by
  induction h generalizing opened rs with
  | nil => rfl
  | @flat l _ plain _ ih =>
    obtain ⟨token, start, stop⟩ := l
    cases token <;> cases opened <;> simp_all [closesNone, Token.nesting]
  | group b start₁ stop₁ start₂ stop₂ _ _ ihl ihr => simp [closesNone, ihl, ihr]

theorem Nested.closesNone_eq_true (h : Nested ls) (opened : Nat) : closesNone opened ls = true := by
  simpa [closesNone] using h.closesNone_append opened []

@[simp] theorem Lexeme.arrayName?_opening (b : Bracket) (start stop : Nat)
    (following : Option Token) : (Lexeme.mk (.opening b) start stop).arrayName? following = none :=
  rfl

@[simp] theorem Lexeme.arrayName?_closing (b : Bracket) (start stop : Nat)
    (following : Option Token) : (Lexeme.mk (.closing b) start stop).arrayName? following = none :=
  rfl

theorem Lexeme.arrayName?_eq_none (l : Lexeme) {following : Option Token}
    (other : following ≠ some (.opening .square)) : l.arrayName? following = none := by
  unfold arrayName?
  split
  · rw [if_neg other]
  · rfl

theorem openNames_append (other : rs.head?.map Lexeme.token ≠ some (.opening .square))
    (stays : ∀ opened, closesNone opened rs = true) :
    openNames (ls ++ rs) = openNames ls ++ openNames rs := by
  induction ls with
  | nil => rfl
  | cons l ls ih =>
    cases ls with
    | nil => simp [openNames, l.arrayName?_eq_none other, l.arrayName?_eq_none]
    | cons k ls => simp_all [openNames, closesNone_append stays]

/-- What nests leaves no subscript open. -/
theorem Nested.openNames_append (h : Nested ls)
    (other : rs.head?.map Lexeme.token ≠ some (.opening .square)) :
    openNames (ls ++ rs) = openNames rs := by
  induction h generalizing rs with
  | nil => rfl
  | @flat l _ plain rest ih =>
    rw [List.cons_append, openNames, ih other]
    cases rest with
    | nil => simp [l.arrayName?_eq_none other]
    | @flat k _ plain' =>
      have other' : k.token ≠ .opening .square := by
        intro token
        simp [token, Token.nesting] at plain'
      simp [l.arrayName?_eq_none, other']
    | group b start₁ stop₁ start₂ stop₂ inside =>
      -- The bracket that follows is closed within the group.
      simp [inside.closesNone_append, closesNone]
  | group b start₁ stop₁ start₂ stop₂ inside rest ihl ihr =>
    rw [List.cons_append, List.append_assoc, openNames, ihl (by simp)]
    simp [openNames, ihr other]

theorem Nested.openNames_eq_nil (h : Nested ls) : openNames ls = [] := by
  have whole : openNames (ls ++ []) = openNames [] := h.openNames_append (by simp)
  simpa [openNames] using whole

/-- The names of the subscripts that lexemes leave open are read off the lexemes. -/
theorem Leaves.openNames_eq (h : Leaves bs names ls) : openNames ls = names.reverse := by
  induction h with
  | none h => exact h.openNames_eq_nil
  | paren start stop _ inside ih =>
    rw [openNames_append (by simp) (by simp [closesNone, inside.closesNone_eq_true]), ih]
    simp [openNames, inside.openNames_eq_nil]
  | square name start stop start₁ stop₁ _ inside ih =>
    rw [openNames_append (by simp) (by simp [closesNone, inside.closesNone_eq_true]), ih]
    simp [openNames, Lexeme.arrayName?, inside.openNames_eq_nil, inside.closesNone_eq_true]

namespace State

variable {table : Table} {text : String} {following : Option Token} {done rest : List Lexeme}
  {s s' : State} {position : Nat} {operands : List Float} {marks : List Mark}

theorem count_brackets (b : Bracket) (marks : List Mark) :
    (brackets marks).count b = marks.count (.bracket b) := by
  induction marks with
  | nil => rfl
  | cons mark marks ih => cases mark <;> simp [List.count_cons, ih]

theorem Takes.afterArrayName_eq (h : Takes table l following s s') :
    s'.afterArrayName = (l.arrayName? following).isSome := by
  cases h <;> simp_all [Lexeme.arrayName?]

/-- A `]` takes one name off. -/
theorem Takes.pending_eq_tail (h : Takes table l following s s')
    (token : l.token = .closing .square) : s'.pending = s.pending.tail := by
  cases h <;> simp_all

namespace Reached

theorem afterArrayName_eq (h : Reached table text done rest s) :
    s.afterArrayName = (arrayNameAtEnd? done rest).isSome := by
  cases h with
  | start => rfl
  | next _ taken => simp [arrayNameAtEnd?, (takes_of_step taken).afterArrayName_eq]

theorem follows (h : Reached table text done rest s) :
    Follows done s ∧ Lockstep (rest.head?.map Lexeme.token) s := by
  induction h with
  | start => exact ⟨.none .nil, rfl, by simp⟩
  | next _ taken ih =>
    have takes := takes_of_step taken
    exact ⟨takes.follows ih.2.opens ih.1, takes.lockstep ih.2⟩

/-- A name waits for each subscript that is open, and one more if its subscript opens next. -/
theorem length_pending (h : Reached table text done rest s) :
    s.pending.length =
      s.marks.count (.bracket .square) + (arrayNameAtEnd? done rest).isSome.toNat := by
  obtain ⟨-, length_eq, -⟩ := h.follows
  rw [length_eq, h.afterArrayName_eq, count_brackets]

/-- The names that wait are those before the subscripts that are open. -/
theorem reverse_pending (h : Reached table text done rest s) :
    s.pending.reverse = openNames done ++ (arrayNameAtEnd? done rest).toList := by
  obtain ⟨follows, -, opens⟩ := h.follows
  have last := h.afterArrayName_eq
  cases named : s.afterArrayName with
  | true =>
    simp only [Follows, named, ↓reduceIte] at follows
    obtain ⟨before, name, start, stop, names, rfl, waiting, leaves⟩ := follows
    have silent : openNames (before ++ [⟨.identifier name, start, stop⟩]) = openNames before := by
      rw [openNames_append (by simp) (by simp [closesNone])]
      simp [openNames, Lexeme.arrayName?]
    simp [waiting, silent, leaves.openNames_eq, arrayNameAtEnd?, Lexeme.arrayName?, opens named]
  | false =>
    rw [named, eq_comm, Option.isSome_eq_false_iff, Option.isNone_iff_eq_none] at last
    simp [last, ((follows_iff_leaves named).mp follows).openNames_eq]

/-- The name that a `]` takes stands before the bracket that it closes. -/
theorem exists_hasSubscript (h : Reached table text done (l :: rest) s)
    (token : l.token = .closing .square)
    (closing : (closeGroup .square l.start s.operands s.marks).outcome = .ok (operands, marks)) :
    ∃ name position pending, s.pending = (name, position) :: pending ∧
      HasSubscript (lexemes text) name position l.start ∧
      ∀ following s', (step table l following s).outcome = .ok s' → s'.pending = pending := by
  obtain ⟨follows, -, opens⟩ := h.follows
  have other : s.afterArrayName = false := by simpa [token] using opens
  have leaves := (follows_iff_leaves other).mp follows
  obtain ⟨reduced, reduces⟩ := reduces_of_closeGroup closing
  rw [reduces.marks_eq, brackets_operators, brackets_bracket] at leaves
  generalize waiting : s.pending = pending at leaves
  obtain _ | ⟨⟨name, position⟩, pending⟩ := pending
  · cases leaves
  · refine ⟨name, position, pending, rfl, h.append_eq ▸ (leaves.closingSquare token).2 rest, ?_⟩
    intro following s' taken
    simp [(takes_of_step taken).pending_eq_tail token, waiting]

end Reached

/-- Only a `]` that has closed its group can miss an array name. -/
theorem exists_closing_of_nameless
    (h : (step table l following s).outcome = .error (.malformed .namelessSubscript position)) :
    l.token = .closing .square ∧ s.pending = [] ∧
      ∃ operands marks, (closeGroup .square l.start s.operands s.marks).outcome =
        .ok (operands, marks) := by
  cases token : l.token with
  | integer value =>
    simp [step, token, Operand.literal, Traced.outcome_bind_eq_error_iff, -bind_pure_comp] at h
  | identifier name =>
    simp only [step, token] at h
    split at h
    · simp at h
    · simp [Operand.scalar, Traced.outcome_bind_eq_error_iff, -bind_pure_comp] at h
  | oversized | foreign => simp [step, token] at h
  | operator op =>
    simp only [step, token, Traced.outcome_bind_eq_error_iff, Traced.outcome_pure, reduceCtorEq,
      and_false, exists_false, or_false] at h
    cases malformed_of_reduceWhile h
  | opening b =>
    cases b with
    | paren => simp [step, token] at h
    | square =>
      simp only [step, token] at h
      split at h <;> simp at h
  | closing b =>
    cases b with
    | paren =>
      simp only [step, token, Traced.outcome_bind_eq_error_iff, Traced.outcome_pure, reduceCtorEq,
        and_false, exists_false, or_false] at h
      obtain ⟨reason, eq, named⟩ := malformed_of_closeGroup h
      cases eq
      contradiction
    | square =>
      simp only [step, token, Traced.outcome_bind_eq_error_iff] at h
      rcases h with fails | ⟨⟨operands, marks⟩, closing, resolving⟩
      · obtain ⟨reason, eq, named⟩ := malformed_of_closeGroup fails
        cases eq
        contradiction
      refine ⟨rfl, ?_, operands, marks, closing⟩
      simp only [resolveSubscript] at resolving
      split at resolving
      · simp at resolving
      · assumption
      · simp only [Traced.outcome_bind_eq_error_iff, Traced.outcome_pure, reduceCtorEq, and_false,
          exists_false, or_false] at resolving
        cases Operand.denies_of_element resolving

end State

/-- In every state that is reached between two lexemes, the array names that wait match the
subscripts that are open: there is one for each, and one more right after an array name, and from
the first to the last they are the names before the brackets that the lexemes leave open. So a `]`
that closes its group always finds a name, which is that before the bracket it closes, and no name
waits at the end of an evaluation that has a value. -/
theorem pending_eq_openNames (text : String) (table : Table) :
    (∀ done rest s, State.Reached table text done rest s →
      s.pending.length =
          s.marks.count (.bracket .square) + (arrayNameAtEnd? done rest).isSome.toNat ∧
        s.pending.reverse = openNames done ++ (arrayNameAtEnd? done rest).toList) ∧
    (∀ done l rest s operands marks, State.Reached table text done (l :: rest) s →
      l.token = .closing .square →
      (State.closeGroup .square l.start s.operands s.marks).outcome = .ok (operands, marks) →
      ∃ name position pending, s.pending = (name, position) :: pending ∧
        HasSubscript (lexemes text) name position l.start ∧
        ∀ following s', (State.step table l following s).outcome = .ok s' →
          s'.pending = pending) ∧
    (∀ position, evaluate text table ≠ .error (.malformed .namelessSubscript position)) ∧
    ∀ value, evaluate text table = .ok value →
      ∃ s, State.Reached table text (lexemes text) [] s ∧
        (s.finish text.utf8ByteSize).outcome = .ok value ∧ s.pending = [] := by
  refine ⟨?_, ?_, ?_, ?_⟩
  · intro done rest s reached
    exact ⟨reached.length_pending, reached.reverse_pending⟩
  · intro done l rest s operands marks reached token closing
    exact reached.exists_hasSubscript token closing
  · intro position failed
    rcases State.exists_reached_of_error failed with
      ⟨done, l, rest, s, reached, refused⟩ | ⟨s, -, ending⟩
    · obtain ⟨token, none, operands, marks, closing⟩ := State.exists_closing_of_nameless refused
      obtain ⟨name, place, pending, waiting, -⟩ := reached.exists_hasSubscript token closing
      simp [none] at waiting
    · obtain ⟨reason, eq, named⟩ := State.malformed_of_finish ending
      cases eq
      contradiction
  · intro value h
    obtain ⟨s, reached, ending⟩ := State.exists_reached_of_ok h
    refine ⟨s, reached, ending, ?_⟩
    obtain ⟨closed, -⟩ := State.finish_eq_ok ending
    have none : s.pending.length = 0 := by
      rw [reached.length_pending, ← State.count_brackets, closed]
      simp [arrayNameAtEnd?, Lexeme.arrayName?_eq_none]
    exact List.length_eq_zero_iff.mp none

theorem pending_eq_openNames_unclosed :
    ∃ s, State.Reached { arrays := [⟨"B", #[2]⟩] } "(A[B[0]+C[" (lexemes "(A[B[0]+C[") [] s ∧
      s.pending = [("C", 8), ("A", 1)] ∧ openNames (lexemes "(A[B[0]+C[") = [("A", 1), ("C", 8)] := by
  have reached : State.Reached { arrays := [⟨"B", #[2]⟩] } "(A[B[0]+C[" (lexemes "(A[B[0]+C[") []
      ⟨[2], [.bracket .square, .operator .add, .bracket .square, .bracket .paren],
        [("C", 8), ("A", 1)], false⟩ := State.Reached.start.of_run_ok (by decide +kernel)
  obtain ⟨matching, -⟩ := pending_eq_openNames "(A[B[0]+C[" { arrays := [⟨"B", #[2]⟩] }
  have names := (matching _ _ _ reached).2
  exact ⟨_, reached, rfl, by simpa [arrayNameAtEnd?, Lexeme.arrayName?_eq_none] using names.symm⟩

end ArrayCalc
