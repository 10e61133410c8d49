import ArrayCalc.Evaluation.Machine
import ArrayCalc.Proofs.Syntax.Unambiguous
import ArrayCalc.Proofs.Syntax.Value

/-! The one-pass evaluation computes the values of syntax trees. Reading the lexemes of a tree, over
any stacks and before any rest, leaves the operators that are not reduced yet with their operands;
whatever reduces them afterwards completes the value of the tree. Traces agree as well as results,
and so do the faults and the places where they arise. -/
namespace ArrayCalc

/-! The parts of an expression stand for the same in the machine and in trees. -/

theorem Operand.literal_eq (v : Valuation) (value position : Nat) (truncating : Bool) :
    Operand.literal value position = (Tree.integer value position).value v truncating := by
  simp only [Operand.literal, Tree.value]
  cases Number.ofInt? value <;> rfl

theorem Operand.scalar_eq (table : Table) (name : String) (position : Nat) :
    Operand.scalar table name position = table.valuation.readScalar name position := by
  simp only [Operand.scalar, Valuation.readScalar, Table.valuation]
  cases table.scalarValue? name with
  | none => rfl
  | some stored =>
    simp only [Traced.ofOption_some, pure_bind]
    cases Number.ofInt? stored <;> rfl

theorem Operand.element_eq (table : Table) (name : String) (position : Nat) (subscript : Float)
    (closing : Nat) :
    Operand.element table name position subscript closing =
      table.valuation.readElement name position subscript closing := by
  simp only [Operand.element, Valuation.readElement, Table.valuation]
  cases table.array? name with
  | none => rfl
  | some array =>
    simp only [Option.map_some, Traced.ofOption_some, pure_bind, Array.length_toList,
      ArrayVariable.size]
    cases Number.slot? subscript array.values.size with
    | none => rfl
    | some slot =>
      have same : array.values.toList.getD slot 0 = array.values.getD slot 0 := by simp
      simp only [Traced.ofOption_some, pure_bind, same]
      cases Number.ofInt? (array.values.getD slot 0) <;> rfl

theorem Operand.combine_eq (op : Operator) (truncating : Bool) (left right : Float) :
    Operand.combine op truncating left right = Tree.operate op truncating left right := rfl

namespace Tree

/-- The operators of a tree that wait for their reduction once its lexemes are read, last first. -/
def waiting : {c : Category} → Tree c → List Operator
  | _, .sum _ op right => right.waiting ++ [op]
  | _, .product _ op _ => [op]
  | _, .ofTerm term => term.waiting
  | _, _ => []

def held (v : Valuation) : {c : Category} → Tree c → Traced (List Float)
  | _, .sum left _ right => do
    let x ← left.value v false
    let ys ← right.held v
    pure (ys ++ [x])
  | _, .product left _ right => do
    let x ← left.value v false
    let y ← right.value v false
    pure [y, x]
  | _, .ofTerm term => term.held v
  | _, tree => do
    let x ← tree.value v false
    pure [x]

theorem waiting_factor (tree : Tree .factor) : tree.waiting = [] := by
  cases tree <;> rfl

theorem held_factor (v : Valuation) (tree : Tree .factor) :
    tree.held v = tree.value v false >>= fun x => pure [x] := by
  cases tree <;> rfl

end Tree

/-- Operators below a level are on top of the stack, or a bracket, or nothing. -/
def Guarded (level : Nat) (marks : List Mark) : Prop :=
  ∀ op rest, marks = .operator op :: rest → op.precedence < level

namespace State

/-- The state with further operands and operators on top, after a token that is no array name. -/
def push (s : State) (values : List Float) (ops : List Operator) : State :=
  { s with
    operands := values ++ s.operands
    marks := ops.map .operator ++ s.marks
    afterArrayName := false }

@[simp] theorem push_push (s : State) (xs ys : List Float) (ops ops' : List Operator) :
    (s.push xs ops).push ys ops' = s.push (ys ++ xs) (ops' ++ ops) := by
  simp [push]

def enter (s : State) (bracket : Bracket) : State :=
  { s with marks := .bracket bracket :: s.marks, afterArrayName := false }

variable {passes : Operator → Bool} {truncating : Bool} {position : Nat} {operands : List Float}
  {marks : List Mark}

theorem reduceWhile_operator {op : Operator} (pass : passes op = true) (x y : Float) :
    reduceWhile passes truncating position (y :: x :: operands) (.operator op :: marks) =
      Tree.operate op truncating x y >>= fun result =>
        reduceWhile passes truncating position (result :: operands) marks := by
  simp only [reduceWhile, pass, ↓reduceIte, reduce, Operand.combine_eq, bind_assoc, pure_bind]

theorem reduceWhile_stop (stop : ∀ op rest, marks = .operator op :: rest → passes op = false) :
    reduceWhile passes truncating position operands marks = pure (operands, marks) := by
  unfold reduceWhile
  split
  · rename_i op rest
    simp [stop op rest rfl]
  · rfl

/-- Reducing all operators that a tree has left waiting completes its value. -/
theorem reduceWhile_held (v : Valuation) {c : Category} (tree : Tree c)
    (all : ∀ op ∈ tree.waiting, passes op = true) :
    (tree.held v >>= fun values => reduceWhile passes truncating position (values ++ operands)
        (tree.waiting.map .operator ++ marks)) =
      tree.value v truncating >>= fun x =>
        reduceWhile passes truncating position (x :: operands) marks := by
  induction tree generalizing operands marks with
  | integer | scalar | element | group | ofFactor =>
    simp [Tree.held, Tree.waiting, Tree.value]
  | product left op right =>
    simp [Tree.held, Tree.waiting, Tree.value, reduceWhile_operator (all op (by simp [Tree.waiting]))]
  | ofTerm term ih => exact ih all
  | sum left op right _ ih =>
    simp only [Tree.waiting, List.mem_append, List.mem_singleton] at all
    have inner := fun os ms => @ih os ms fun op h => all op (.inl h)
    simp [Tree.held, Tree.waiting, Tree.value, inner, reduceWhile_operator (all op (.inr rfl))]

/-- A closing bracket completes the value of the tree inside it. -/
theorem closeGroup_held (v : Valuation) {c : Category} (tree : Tree c) (bracket : Bracket) :
    (tree.held v >>= fun values => closeGroup bracket position (values ++ operands)
        (tree.waiting.map .operator ++ .bracket bracket :: marks)) =
      tree.value v (bracket = .square) >>= fun x => pure (x :: operands, marks) := by
  simp only [closeGroup, ← bind_assoc]
  rw [reduceWhile_held v tree fun _ _ => rfl]
  simp [reduceWhile_stop]

end State

namespace Derives

variable {c : Category} {ls : List Lexeme} {tree : Tree c}

theorem level_le_of_waiting (h : Derives ls tree) :
    ∀ op ∈ tree.waiting, c.level ≤ op.precedence := by
  induction h with
  | integer | scalar | element | group | ofFactor => simp [Tree.waiting]
  | product _ _ _ joins =>
    simp [Tree.waiting, Operator.precedence_of_product joins, Category.level]
  | ofTerm h ih =>
    intro op mem
    have := ih op mem
    simp only [Category.level] at *
    omega
  | sum _ _ _ joins _ _ ih =>
    intro op mem
    rcases List.mem_append.mp mem with inner | last
    · have := ih op inner
      simp only [Category.level] at *
      omega
    · obtain rfl := List.mem_singleton.mp last
      exact Nat.le_of_eq (Operator.precedence_of_sum joins).symm

/-- An operator completes the value of the tree on its left if both are of one category. -/
theorem run_operator (h : Derives ls tree) (table : Table) {op : Operator} (start stop : Nat)
    (rest : List Lexeme) (s : State) (guarded : Guarded c.level s.marks)
    (joins : op.precedence = c.level) :
    (tree.held table.valuation >>= fun values =>
        State.run table (⟨.operator op, start, stop⟩ :: rest) (s.push values tree.waiting)) =
      tree.value table.valuation false >>= fun x => State.run table rest (s.push [x] [op]) := by
  have all : ∀ top ∈ tree.waiting, decide (op.precedence ≤ top.precedence) = true := by
    intro top mem
    simpa [joins] using h.level_le_of_waiting top mem
  have stop' : ∀ top rest, s.marks = .operator top :: rest →
      decide (op.precedence ≤ top.precedence) = false := by
    intro top rest eq
    simpa [joins] using guarded top rest eq
  simp only [State.run, State.step, State.push, bind_assoc]
  rw [← bind_assoc, State.reduceWhile_held table.valuation tree all]
  simp [State.reduceWhile_stop stop']

/-- A closing parenthesis completes the value of the tree inside. -/
theorem run_closing_paren (tree : Tree .expression) (table : Table) (start stop : Nat)
    (rest : List Lexeme) (s : State) :
    (tree.held table.valuation >>= fun values =>
        State.run table (⟨.closing .paren, start, stop⟩ :: rest)
          ((s.enter .paren).push values tree.waiting)) =
      tree.value table.valuation false >>= fun x => State.run table rest (s.push [x] []) := by
  simp only [State.run, State.step, State.push, State.enter, bind_assoc]
  rw [← bind_assoc, State.closeGroup_held]
  simp

/-- A closing square bracket completes the value of the tree inside, rounded toward zero, and reads
the array that waits for it. -/
theorem run_closing_square (tree : Tree .expression) (table : Table) (name : String)
    (position start stop : Nat) (rest : List Lexeme) (s : State) :
    (tree.held table.valuation >>= fun values =>
        State.run table (⟨.closing .square, start, stop⟩ :: rest)
          (({ s with pending := (name, position) :: s.pending }.enter .square).push values
            tree.waiting)) =
      (Tree.element name position tree start).value table.valuation false >>= fun x =>
        State.run table rest (s.push [x] []) := by
  simp only [State.run, State.step, State.push, State.enter, bind_assoc]
  rw [← bind_assoc, State.closeGroup_held]
  simp [State.resolveSubscript, Tree.value, Operand.element_eq]

/-- Reading the lexemes of a tree leaves its waiting operators on top of the stacks. Below them may
be anything that does not bind its first operand. -/
theorem run (h : Derives ls tree) (table : Table) (rest : List Lexeme) (s : State)
    (guarded : Guarded c.level s.marks)
    (next : rest.head?.map Lexeme.token ≠ some (.opening .square)) :
    State.run table (ls ++ rest) s =
      tree.held table.valuation >>= fun values =>
        State.run table rest (s.push values tree.waiting) := by
  induction h generalizing rest s with
  | integer value start stop =>
    simp [State.run, State.step, State.push, Operand.literal_eq table.valuation value start false,
      Tree.held, Tree.waiting]
  | scalar name start stop =>
    simp [State.run, State.step, State.push, next, Operand.scalar_eq, Tree.held, Tree.waiting,
      Tree.value]
  | @element name start stop start₁ stop₁ start₂ stop₂ ls subscript inside ih =>
    have opened : State.run table (⟨.identifier name, start, stop⟩ ::
        ⟨.opening .square, start₁, stop₁⟩ :: (ls ++ [⟨.closing .square, start₂, stop₂⟩]) ++ rest) s =
        State.run table (ls ++ ⟨.closing .square, start₂, stop₂⟩ :: rest)
          ({ s with pending := (name, start) :: s.pending }.enter .square) := by
      simp [State.run, State.step, State.enter]
    rw [opened, ih _ _ (by simp [Guarded, State.enter]) (by simp), run_closing_square]
    simp [Tree.held, Tree.waiting]
  | @group start₁ stop₁ start₂ stop₂ ls inner inside ih =>
    have opened : State.run table (⟨.opening .paren, start₁, stop₁⟩ ::
        (ls ++ [⟨.closing .paren, start₂, stop₂⟩]) ++ rest) s =
        State.run table (ls ++ ⟨.closing .paren, start₂, stop₂⟩ :: rest) (s.enter .paren) := by
      simp [State.run, State.step, State.enter]
    rw [opened, ih _ _ (by simp [Guarded, State.enter]) (by simp), run_closing_paren]
    simp [Tree.held, Tree.waiting, Tree.value]
  | ofFactor h ih =>
    have any : Guarded Category.factor.level s.marks := by
      intro op tail eq
      exact Nat.lt_succ_of_lt (guarded op tail eq)
    simp [ih rest s any next, Tree.held, Tree.held_factor, Tree.waiting, Tree.waiting_factor,
      Tree.value]
  | @product ls rs left right op start stop first joins second ihl ihr =>
    have tight := Operator.precedence_of_product joins
    have after : ∀ x, Guarded Category.factor.level (s.push [x] [op]).marks := by
      simp [Guarded, State.push, tight, Category.level]
    rw [List.append_assoc, List.cons_append, ihl _ _ guarded (by simp),
      run_operator first table start stop _ s guarded tight]
    simp [ihr _ _ (after _) next, Tree.held, Tree.held_factor, Tree.waiting, Tree.waiting_factor]
  | ofTerm h ih =>
    have any : Guarded Category.term.level s.marks := by
      intro op tail eq
      exact Nat.lt_succ_of_lt (guarded op tail eq)
    exact ih rest s any next
  | @sum ls rs left right op start stop first joins second ihl ihr =>
    have loose := Operator.precedence_of_sum joins
    have after : ∀ x, Guarded Category.term.level (s.push [x] [op]).marks := by
      simp [Guarded, State.push, loose, Category.level]
    rw [List.append_assoc, List.cons_append, ihl _ _ guarded (by simp),
      run_operator first table start stop _ s guarded loose]
    simp [ihr _ _ (after _) next, Tree.held, Tree.waiting]

end Derives

/-- Evaluation of a derivable text is the evaluation of its tree, trace included. -/
theorem evaluateTraced_eq_value {text : String} {tree : Tree .expression}
    (h : Derives (lexemes text) tree) (table : Table) :
    evaluateTraced text table = tree.value table.valuation false := by
  have read := h.run table [] {} (by simp [Guarded]) (by simp)
  rw [List.append_nil] at read
  simp only [evaluateTraced, read, State.run, State.finish, State.push, bind_assoc, pure_bind]
  rw [← bind_assoc, State.reduceWhile_held table.valuation tree fun _ _ => rfl]
  simp [State.reduceWhile_stop]

/-- A derivable text spells one tree, and over every table its evaluation has the outcome of that
tree: the same number, or the same first fault at the same place. It is never malformed. -/
theorem evaluate_of_derivable {text : String} (derivable : Derivable (lexemes text)) :
    ∃ tree : Tree .expression,
      (∀ other : Tree .expression, Derives (lexemes text) other ↔ other = tree) ∧
      ∀ table : Table,
        evaluate text table = (tree.value table.valuation false).outcome ∧
        ∀ reason position, evaluate text table ≠ .error (.malformed reason position) := by
  obtain ⟨tree, h⟩ := derivable
  refine ⟨tree, ?_, ?_⟩
  · intro other
    constructor
    · exact h.unique
    · rintro rfl
      exact h
  · intro table
    have equal : evaluate text table = (tree.value table.valuation false).outcome := by
      rw [evaluate, evaluateTraced_eq_value h]
    refine ⟨equal, ?_⟩
    intro reason position
    rw [equal]
    exact tree.outcome_value_ne_malformed _ _ _ _

theorem evaluate_of_derivable_subscript :
    Derivable (lexemes "A[i/2+1/2]-x") ∧
      ∃ tree : Tree .expression,
        (∀ other : Tree .expression, Derives (lexemes "A[i/2+1/2]-x") other ↔ other = tree) ∧
        ∀ table : Table,
          evaluate "A[i/2+1/2]-x" table = (tree.value table.valuation false).outcome ∧
          ∀ reason position,
            evaluate "A[i/2+1/2]-x" table ≠ .error (.malformed reason position) := by
  have read : lexemes "A[i/2+1/2]-x" =
      [⟨.identifier "A", 0, 1⟩, ⟨.opening .square, 1, 2⟩, ⟨.identifier "i", 2, 3⟩,
        ⟨.operator .div, 3, 4⟩, ⟨.integer 2, 4, 5⟩, ⟨.operator .add, 5, 6⟩, ⟨.integer 1, 6, 7⟩,
        ⟨.operator .div, 7, 8⟩, ⟨.integer 2, 8, 9⟩, ⟨.closing .square, 9, 10⟩,
        ⟨.operator .sub, 10, 11⟩, ⟨.identifier "x", 11, 12⟩] := by decide
  have left := Derives.product 3 4 (.ofFactor (.scalar "i" 2 3)) (.inr rfl) (.integer 2 4 5)
  have right := Derives.product 7 8 (.ofFactor (.integer 1 6 7)) (.inr rfl) (.integer 2 8 9)
  have inside := Derives.sum 5 6 (.ofTerm left) (.inl rfl) right
  have element := Derives.element "A" 0 1 1 2 9 10 inside
  have whole := Derives.sum 10 11 (.ofTerm (.ofFactor element)) (.inr rfl)
    (.ofFactor (.scalar "x" 11 12))
  have derivable : Derivable (lexemes "A[i/2+1/2]-x") := ⟨_, by simpa [read] using whole⟩
  exact ⟨derivable, evaluate_of_derivable derivable⟩

end ArrayCalc
