import ArrayCalc.Proofs.Evaluation.Names
import ArrayCalc.Proofs.Syntax.Alternation

/-! Which array names wait for their subscript. After any lexemes, well formed or not, these are the
names before the subscripts that are still open, in the order of their brackets. So a closing
bracket reads the array whose name stands before the bracket it closes. -/
namespace ArrayCalc

/-- A subscript among lexemes: the name before its opening bracket, with its position, and the
position of the closing bracket that belongs to it. -/
def HasSubscript (ls : List Lexeme) (name : String) (namePosition closing : Nat) : Prop :=
  ∃ before inside after stop start₁ stop₁ stop₂, Nested inside ∧
    ls = before ++ ⟨.identifier name, namePosition, stop⟩ :: ⟨.opening .square, start₁, stop₁⟩ ::
      (inside ++ ⟨.closing .square, closing, stop₂⟩ :: after)

/-- Lexemes that nest except that they leave brackets open, given from the innermost out, with the
names and positions of the open subscripts among them. -/
inductive Leaves : List Bracket → List (String × Nat) → List Lexeme → Prop where
  | none {ls : List Lexeme} (h : Nested ls) : Leaves [] [] ls
  | paren {bs : List Bracket} {names : List (String × Nat)} {ls rs : List Lexeme} (start stop : Nat)
      (outside : Leaves bs names ls) (inside : Nested rs) :
      Leaves (.paren :: bs) names (ls ++ ⟨.opening .paren, start, stop⟩ :: rs)
  | square {bs : List Bracket} {names : List (String × Nat)} {ls rs : List Lexeme} (name : String)
      (start stop start₁ stop₁ : Nat) (outside : Leaves bs names ls) (inside : Nested rs) :
      Leaves (.square :: bs) ((name, start) :: names)
        (ls ++ ⟨.identifier name, start, stop⟩ :: ⟨.opening .square, start₁, stop₁⟩ :: rs)

variable {bs : List Bracket} {names : List (String × Nat)} {ls rs : List Lexeme} {l : Lexeme}

namespace Leaves

theorem append (h : Leaves bs names ls) (nested : Nested rs) : Leaves bs names (ls ++ rs) := by
  cases h with
  | none h => exact .none (h.append nested)
  | paren start stop outside inside =>
    simpa using Leaves.paren start stop outside (inside.append nested)
  | square name start stop start₁ stop₁ outside inside =>
    simpa using Leaves.square name start stop start₁ stop₁ outside (inside.append nested)

theorem flat (h : Leaves bs names ls) (plain : l.token.nesting = 0) :
    Leaves bs names (ls ++ [l]) :=
  h.append (.flat plain .nil)

theorem closingParen (h : Leaves (.paren :: bs) names ls) (token : l.token = .closing .paren) :
    Leaves bs names (ls ++ [l]) := by
  obtain ⟨_, start, stop⟩ := l
  subst token
  cases h with
  | paren start₁ stop₁ outside inside =>
    simpa using outside.append (.group .paren start₁ stop₁ start stop inside .nil)

/-- A square bracket closes the subscript whose name waits last. -/
theorem closingSquare {name : String × Nat} (h : Leaves (.square :: bs) (name :: names) ls)
    (token : l.token = .closing .square) :
    Leaves bs names (ls ++ [l]) ∧ ∀ rs, HasSubscript (ls ++ l :: rs) name.1 name.2 l.start := by
  obtain ⟨_, start, stop⟩ := l
  subst token
  cases h with
  | @square _ _ before within _ _ stop₀ start₁ stop₁ outside inside =>
    constructor
    · have group := Nested.group .square start₁ stop₁ start stop inside .nil
      simpa using outside.append (.flat (by rfl) group)
    · intro rs
      exact ⟨before, within, rs, stop₀, start₁, stop₁, stop, inside, by simp⟩

end Leaves

namespace State

variable {table : Table} {following : Option Token} {s s' : State} {done : List Lexeme}

/-- What the stacks hold after lexemes. A name that was read just now has no bracket yet. -/
def Follows (done : List Lexeme) (s : State) : Prop :=
  if s.afterArrayName then
    ∃ before name start stop names, done = before ++ [⟨.identifier name, start, stop⟩] ∧
      s.pending = (name, start) :: names ∧ Leaves (brackets s.marks) names before
  else Leaves (brackets s.marks) s.pending done

theorem follows_iff_leaves (other : s.afterArrayName = false) :
    Follows done s ↔ Leaves (brackets s.marks) s.pending done := by
  simp [Follows, other]

theorem Takes.follows (h : Takes table l following s s')
    (opens : s.afterArrayName = true → some l.token = some (.opening .square))
    (before : Follows done s) : Follows (done ++ [l]) s' := by
  cases named : s.afterArrayName with
  | true =>
    -- The only lexeme that may follow a name that waits is the bracket it waits for.
    have token := Option.some.inj (opens named)
    cases h with
    | openingSquare =>
      simp only [Follows, named, ↓reduceIte] at before
      obtain ⟨outside, name, start, stop, names, rfl, waiting, leaves⟩ := before
      obtain ⟨_, start₁, stop₁⟩ := l
      subst token
      refine (follows_iff_leaves rfl).mpr ?_
      simpa [waiting] using Leaves.square name start stop start₁ stop₁ leaves .nil
    | _ => simp_all
  | false =>
    have leaves := (follows_iff_leaves named).mp before
    cases h with
    | integer token | scalar token =>
      exact (follows_iff_leaves rfl).mpr (leaves.flat (by rw [token]; rfl))
    | arrayName token =>
      obtain ⟨_, start, stop⟩ := l
      subst token
      exact ⟨done, _, start, stop, s.pending, rfl, rfl, leaves⟩
    | operator token reduces =>
      rw [reduces.marks_eq, brackets_operators] at leaves
      exact (follows_iff_leaves rfl).mpr (leaves.flat (by rw [token]; rfl))
    | openingParen token =>
      obtain ⟨_, start, stop⟩ := l
      subst token
      exact (follows_iff_leaves rfl).mpr (.paren start stop leaves .nil)
    | openingSquare _ named' => simp [named] at named'
    | closingParen token reduces =>
      rw [reduces.marks_eq, brackets_operators] at leaves
      exact (follows_iff_leaves rfl).mpr (leaves.closingParen token)
    | closingSquare token reduces waiting =>
      rw [reduces.marks_eq, brackets_operators, waiting] at leaves
      exact (follows_iff_leaves rfl).mpr (leaves.closingSquare token).1

/-- The lexeme that is refused, with the state in which it is. -/
theorem Fails.exists_refuses {e : EvalError} (h : Fails table e ls s) (before : Follows done s)
    (lockstep : Lockstep (ls.head?.map Lexeme.token) s) :
    ∃ earlier l later s', done ++ ls = earlier ++ l :: later ∧ Follows earlier s' ∧
      Lockstep (some l.token) s' ∧ Refuses table l (later.head?.map Lexeme.token) s' e := by
  induction h generalizing done with
  | @here lexeme rest s refuses => exact ⟨done, lexeme, rest, s, rfl, before, lockstep, refuses⟩
  | later takes _ ih =>
    have next := ih (takes.follows lockstep.opens before) (takes.lockstep lockstep)
    simpa using next

end State

end ArrayCalc
