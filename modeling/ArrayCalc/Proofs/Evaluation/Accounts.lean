import ArrayCalc.Proofs.Evaluation.Acceptance
import ArrayCalc.Proofs.Evaluation.Names
import ArrayCalc.Proofs.Number.Conversion

/-! The accounts of an evaluation. An operator token asks for one operation and the name of an array
for one element. What was asked for is either traced or waits in the stacks, so an evaluation that
ends in a value has traced all of it, each task once. -/
namespace ArrayCalc

/-- What the tokens of a text ask for: an operation, or an element of an array. -/
inductive Task where
  | operate (op : Operator)
  | read (name : String)
deriving DecidableEq, Repr

def Task.isOperate : Task → Bool
  | operate _ => true
  | read _ => false

def Task.isRead : Task → Bool
  | operate _ => false
  | read _ => true

def TraceEvent.task : TraceEvent → Task
  | reduced _ op _ _ => .operate op
  | read name _ _ => .read name

def Token.task? (following : Option Token) : Token → Option Task
  | .operator op => some (.operate op)
  | .identifier name => if following = some (.opening .square) then some (.read name) else none
  | _ => none

def tasks : List Lexeme → List Task
  | [] => []
  | l :: ls => (l.token.task? (ls.head?.map Lexeme.token)).toList ++ tasks ls

namespace State

/-- The tasks of the operators among marks, last first. -/
def markTasks (marks : List Mark) : List Task := (operators marks).map .operate

def openTasks (s : State) : List Task := markTasks s.marks ++ s.pending.map fun p => .read p.1

@[simp] theorem markTasks_nil : markTasks [] = [] := rfl

@[simp] theorem markTasks_operator (op : Operator) (marks : List Mark) :
    markTasks (.operator op :: marks) = .operate op :: markTasks marks := rfl

@[simp] theorem markTasks_bracket (b : Bracket) (marks : List Mark) :
    markTasks (.bracket b :: marks) = markTasks marks := rfl

variable {passes : Operator → Bool} {truncating : Bool} {position : Nat} {table : Table}
  {operands operands' : List Float} {marks marks' : List Mark} {events : List TraceEvent}
  {l : Lexeme} {ls : List Lexeme} {following : Option Token} {s s' : State}

theorem tasks_of_reduce {op : Operator}
    (h : reduce op truncating position operands = ⟨events, .ok operands'⟩) :
    events.map TraceEvent.task = [.operate op] := by
  match operands with
  | [] | [_] => simp [reduce] at h
  | right :: left :: operands =>
    simp only [reduce, Operand.combine, bind_assoc, Traced.tell_bind_eq_ok_iff, pure_bind,
      Traced.pure_eq_ok_iff] at h
    obtain ⟨after, ⟨rfl, -⟩, rfl⟩ := h
    rfl

/-- Reductions trace the operators that they take off the marks, in that order. -/
theorem tasks_of_reduceWhile
    (h : reduceWhile passes truncating position operands marks =
      ⟨events, .ok (operands', marks')⟩) :
    events.map TraceEvent.task ++ markTasks marks' = markTasks marks := by
  induction marks generalizing operands events with
  | nil =>
    simp only [reduceWhile, Traced.pure_eq_ok_iff, Prod.mk.injEq] at h
    obtain ⟨rfl, -, rfl⟩ := h
    rfl
  | cons mark marks ih =>
    cases mark with
    | bracket b =>
      simp only [reduceWhile, Traced.pure_eq_ok_iff, Prod.mk.injEq] at h
      obtain ⟨rfl, -, rfl⟩ := h
      rfl
    | operator op =>
      simp only [reduceWhile] at h
      split at h
      · obtain ⟨between, before, after, first, rest, rfl⟩ := Traced.bind_eq_ok_iff.mp h
        simp [tasks_of_reduce first, ih rest]
      · simp only [Traced.pure_eq_ok_iff, Prod.mk.injEq] at h
        obtain ⟨rfl, -, rfl⟩ := h
        rfl

theorem tasks_of_closeGroup {b : Bracket}
    (h : closeGroup b position operands marks = ⟨events, .ok (operands', marks')⟩) :
    events.map TraceEvent.task ++ markTasks marks' = markTasks marks := by
  have ends := reduceWhile_of_closeGroup (congrArg Traced.outcome h)
  have reducing : reduceWhile (fun _ => true) (b = .square) position operands marks =
      ⟨events, .ok (operands', .bracket b :: marks')⟩ := by
    rw [Traced.eq_mk_of_outcome ends, ← events_closeGroup, h]
  simpa using tasks_of_reduceWhile reducing

theorem tasks_of_element {name : String} {namePosition : Nat} {subscript value : Float}
    (h : Operand.element table name namePosition subscript position = ⟨events, .ok value⟩) :
    events.map TraceEvent.task = [.read name] := by
  simp only [Operand.element, Traced.ofOption_bind_eq_ok_iff, Traced.tell_bind_eq_ok_iff,
    Traced.pure_eq_ok_iff] at h
  obtain ⟨array, -, slot, -, value, -, after, ⟨rfl, -⟩, rfl⟩ := h
  rfl

/-- What a step traces or leaves waiting is what waited before it and what its lexeme brings. -/
theorem tasks_of_step (h : step table l following s = ⟨events, .ok s'⟩) :
    (events.map TraceEvent.task ++ s'.openTasks).Perm
      ((l.token.task? following).toList ++ s.openTasks) := by
  cases token : l.token with
  | integer value =>
    simp only [step, token, Operand.literal, Traced.ofOption_bind_eq_ok_iff,
      Traced.pure_eq_ok_iff] at h
    obtain ⟨operand, -, rfl, rfl⟩ := h
    rfl
  | identifier name =>
    simp only [step, token] at h
    split at h
    · rename_i follows
      simp only [Traced.pure_eq_ok_iff] at h
      obtain ⟨rfl, rfl⟩ := h
      simp [openTasks, Token.task?, follows, List.perm_middle]
    · rename_i follows
      simp only [Operand.scalar, bind_assoc, Traced.ofOption_bind_eq_ok_iff,
        Traced.pure_eq_ok_iff] at h
      obtain ⟨stored, -, operand, -, rfl, rfl⟩ := h
      simp [openTasks, Token.task?, follows]
  | operator op =>
    simp only [step, token] at h
    obtain ⟨⟨operands, marks⟩, before, after, reducing, ending, rfl⟩ := Traced.bind_eq_ok_iff.mp h
    simp only [Traced.pure_eq_ok_iff] at ending
    obtain ⟨rfl, rfl⟩ := ending
    simp only [openTasks, ← tasks_of_reduceWhile reducing]
    simp [Token.task?, List.perm_middle]
  | opening b =>
    cases b with
    | paren =>
      simp only [step, token, Traced.pure_eq_ok_iff] at h
      obtain ⟨rfl, rfl⟩ := h
      rfl
    | square =>
      simp only [step, token] at h
      split at h
      · simp only [Traced.pure_eq_ok_iff] at h
        obtain ⟨rfl, rfl⟩ := h
        rfl
      · simp at h
  | closing b =>
    cases b with
    | paren =>
      simp only [step, token] at h
      obtain ⟨⟨operands, marks⟩, before, after, closing, ending, rfl⟩ := Traced.bind_eq_ok_iff.mp h
      simp only [Traced.pure_eq_ok_iff] at ending
      obtain ⟨rfl, rfl⟩ := ending
      simp [openTasks, Token.task?, ← tasks_of_closeGroup closing]
    | square =>
      simp only [step, token] at h
      obtain ⟨⟨operands, marks⟩, before, after, closing, resolving, rfl⟩ :=
        Traced.bind_eq_ok_iff.mp h
      simp only [resolveSubscript] at resolving
      split at resolving
      · simp at resolving
      · simp at resolving
      · rename_i waiting
        obtain ⟨value, read, none, reading, ending, rfl⟩ := Traced.bind_eq_ok_iff.mp resolving
        simp only [Traced.pure_eq_ok_iff] at ending
        obtain ⟨rfl, rfl⟩ := ending
        have told := tasks_of_element reading
        simp only [openTasks, Token.task?, ← tasks_of_closeGroup closing, waiting, told,
          List.map_append, List.map_cons, List.append_nil, List.append_assoc, List.cons_append,
          List.nil_append, Option.toList_none]
        exact List.perm_middle.symm.append_left _
  | oversized digits => simp [step, token] at h
  | foreign c => simp [step, token] at h

/-- What a run traces or leaves waiting is what waited before it and what its lexemes bring. -/
theorem tasks_of_run (h : run table ls s = ⟨events, .ok s'⟩) :
    (events.map TraceEvent.task ++ s'.openTasks).Perm (tasks ls ++ s.openTasks) := by
  induction ls generalizing s events with
  | nil =>
    simp only [run, Traced.pure_eq_ok_iff] at h
    obtain ⟨rfl, rfl⟩ := h
    rfl
  | cons l ls ih =>
    simp only [run] at h
    obtain ⟨between, before, after, first, others, rfl⟩ := Traced.bind_eq_ok_iff.mp h
    calc
      (before ++ after).map TraceEvent.task ++ s'.openTasks
      _ = before.map TraceEvent.task ++ (after.map TraceEvent.task ++ s'.openTasks) := by simp
      _ |>.Perm (before.map TraceEvent.task ++ (tasks ls ++ between.openTasks)) :=
        (ih others).append_left _
      _ |>.Perm (tasks ls ++ (before.map TraceEvent.task ++ between.openTasks)) :=
        List.perm_append_comm_assoc ..
      _ |>.Perm (tasks ls ++ ((l.token.task? _).toList ++ s.openTasks)) :=
        (tasks_of_step first).append_left _
      _ |>.Perm (tasks (l :: ls) ++ s.openTasks) := by
        simpa [tasks] using List.perm_append_comm_assoc ..

theorem tasks_of_finish {result : Float} (h : s.finish position = ⟨events, .ok result⟩) :
    events.map TraceEvent.task = markTasks s.marks := by
  have ends := reduceWhile_of_finish (congrArg Traced.outcome h)
  have reducing : reduceWhile (fun _ => true) false position s.operands s.marks =
      ⟨events, .ok ([result], [])⟩ := by
    rw [Traced.eq_mk_of_outcome ends, ← events_finish, h]
  simpa using tasks_of_reduceWhile reducing

/-- A condition that each lexeme meets when it is taken in holds along a run. -/
theorem Runs.forall_mem {P : Lexeme → Prop}
    (each : ∀ {l following s s'}, Takes table l following s s' → P l) (h : Runs table ls s s') :
    ∀ l ∈ ls, P l := by
  induction h with
  | nil => simp
  | cons takes _ ih => exact List.forall_mem_cons.mpr ⟨each takes, ih⟩

theorem Takes.integer_le (h : Takes table l following s s') :
    ∀ value, l.token = .integer value → value ≤ Number.exactLimit := by
  intro value token
  cases h with
  | integer token' exact =>
    obtain rfl := Token.integer.inj (token.symm.trans token')
    simpa using Number.natAbs_le_of_ofInt? exact
  | _ => simp_all

/-- The scalars that lexemes read are in the table and exact. -/
theorem Runs.scalar_exact (h : Runs table ls s s') :
    ∀ name, (name, .scalar) ∈ identifierUses (ls.map Lexeme.token) →
      ∃ value, table.scalarValue? name = some value ∧ value.natAbs ≤ Number.exactLimit := by
  intro name mem
  induction h with
  | nil => simp [identifierUses] at mem
  | cons takes _ ih =>
    cases takes with
    | @scalar other stored operand token follows known exact =>
      simp only [List.map_cons, token, identifierUses, List.head?_map, follows, ↓reduceIte,
        List.mem_cons, Prod.mk.injEq, and_true] at mem
      rcases mem with rfl | later
      · exact ⟨stored, known, Number.natAbs_le_of_ofInt? exact⟩
      · exact ih later
    | arrayName token follows =>
      exact ih (by simpa [token, identifierUses, follows] using mem)
    | integer token | operator token | openingParen token | openingSquare token
    | closingParen token | closingSquare token =>
      exact ih (by simpa [token, identifierUses] using mem)

end State

theorem countP_isOperate_tasks (ls : List Lexeme) :
    (tasks ls).countP Task.isOperate = operatorCount ls := by
  induction ls with
  | nil => rfl
  | cons l ls ih =>
    rw [tasks, List.countP_append, ih, operatorCount]
    cases token : l.token with
    | identifier name =>
      by_cases follows : ls.head?.map Lexeme.token = some (.opening .square) <;>
        simp [Token.task?, Token.isOperator, Task.isOperate, follows]
    | _ => simp [Token.task?, Token.isOperator, Task.isOperate]

theorem exists_identifier_of_opens {ls : List Lexeme} {before : Option Token}
    (h : Subscripted before ls)
    (opens : ls.head?.map Lexeme.token = some (.opening .square)) :
    ∃ name, before = some (.identifier name) := by
  cases ls with
  | nil => simp at opens
  | cons l ls => exact h.1 (by simpa using opens)

/-- There are as many elements to read as there are subscripts, but for one that opens at once. -/
theorem countP_isRead_tasks {ls : List Lexeme} {before : Option Token}
    (h : Subscripted before ls) :
    (tasks ls).countP Task.isRead +
        (decide (ls.head?.map Lexeme.token = some (.opening .square))).toNat =
      (ls.map Lexeme.token).count (.opening .square) := by
  induction ls generalizing before with
  | nil => rfl
  | cons l ls ih =>
    have first : (l.token.task? (ls.head?.map Lexeme.token)).toList.countP Task.isRead =
        (decide (ls.head?.map Lexeme.token = some (.opening .square))).toNat := by
      by_cases opens : ls.head?.map Lexeme.token = some (.opening .square)
      · obtain ⟨name, token⟩ := exists_identifier_of_opens h.2 opens
        simp [Option.some.inj token, Token.task?, Task.isRead, opens]
      · cases l.token <;> simp [Token.task?, Task.isRead, opens]
    have rest := ih h.2
    rw [tasks, List.countP_append, first, List.map_cons, List.count_cons, List.head?_cons,
      Option.map_some]
    by_cases opens : l.token = .opening .square
    · simp only [opens, decide_true, Bool.toNat_true, BEq.rfl, ↓reduceIte]
      omega
    · simp only [opens, Option.some.injEq, decide_false, Bool.toNat_false, beq_iff_eq, ↓reduceIte]
      omega

variable {text : String} {table : Table} {result : Float}

/-- An evaluation that has a value has done every task of its text. -/
theorem tasks_of_evaluate (h : evaluate text table = .ok result) :
    ((evaluateTraced text table).events.map TraceEvent.task).Perm (tasks (lexemes text)) := by
  have traced := Traced.eq_mk_of_outcome h
  rw [evaluateTraced] at traced
  obtain ⟨s, before, after, running, ending, joined⟩ := Traced.bind_eq_ok_iff.mp traced
  have runs := State.runs_of_run (congrArg Traced.outcome running)
  obtain ⟨closed, -⟩ := State.finish_eq_ok (congrArg Traced.outcome ending)
  have done := State.tasks_of_run running
  rw [evaluateTraced, ← joined, List.map_append, State.tasks_of_finish ending]
  simpa [State.openTasks, runs.pending_eq_nil closed] using done

/-- What a table gives for a use of a name: an array, or a scalar that is an exact number. -/
def Table.Provides (t : Table) : String × VariableKind → Prop
  | (name, .array) => ∃ array, t.array? name = some array
  | (name, .scalar) => ∃ value, t.scalarValue? name = some value ∧ value.natAbs ≤ Number.exactLimit

/-- A text that has a value accounts for all of its tokens, whether it is well formed or not. Its
tokens are known and its integers exact; its brackets nest, and each subscript follows a name. Each
operator was reduced once and each subscript read one element. There is one operand more than there
are operators, and the table provides every name for each of its uses. -/
theorem evaluate_accounts (h : evaluate text table = .ok result) :
    (∀ l ∈ lexemes text, l.token.isError = false) ∧
      (∀ l ∈ lexemes text, ∀ value, l.token = .integer value → value ≤ Number.exactLimit) ∧
      Nested (lexemes text) ∧ Subscripted none (lexemes text) ∧
      ((evaluateTraced text table).events.map TraceEvent.task).Perm (tasks (lexemes text)) ∧
      ((evaluateTraced text table).events.map TraceEvent.task).countP Task.isOperate =
        operatorCount (lexemes text) ∧
      ((evaluateTraced text table).events.map TraceEvent.task).countP Task.isRead =
        (tokens text).count (.opening .square) ∧
      operandCount (lexemes text) = operatorCount (lexemes text) + 1 ∧
      ∀ use ∈ identifierUses (tokens text), table.Provides use := by
  obtain ⟨s, runs, ending⟩ := evaluate_eq_ok h
  obtain ⟨known, nested, subscripted, count⟩ := shape_of_evaluate h
  have done := tasks_of_evaluate h
  refine ⟨known, runs.forall_mem State.Takes.integer_le, nested, subscripted, done, ?_, ?_, count,
    ?_⟩
  · rw [done.countP_eq, countP_isOperate_tasks]
  · have opens : (lexemes text).head?.map Lexeme.token ≠ some (.opening .square) := by
      intro opens
      obtain ⟨name, eq⟩ := exists_identifier_of_opens subscripted opens
      contradiction
    rw [done.countP_eq, tokens, ← countP_isRead_tasks subscripted]
    simp only [opens, decide_false, Bool.toNat_false, Nat.add_zero]
  · rintro ⟨name, kind⟩ mem
    cases kind with
    | scalar => exact runs.scalar_exact name mem
    | array =>
      have mem := knows_of_evaluate h _ mem
      exact Option.isSome_iff_exists.mp (Table.isSome_array?_iff.mpr mem)

theorem evaluate_accounts_postfix :
    evaluate "A[1 1+]*(2 3-)" { arrays := [⟨"A", #[4, 5, 6]⟩] } = .ok (-6) ∧
      ((evaluateTraced "A[1 1+]*(2 3-)" { arrays := [⟨"A", #[4, 5, 6]⟩] }).events.map
        TraceEvent.task).Perm [.read "A", .operate .add, .operate .mul, .operate .sub] ∧
      operandCount (lexemes "A[1 1+]*(2 3-)") = 4 := by
  have value : evaluate "A[1 1+]*(2 3-)" { arrays := [⟨"A", #[4, 5, 6]⟩] } = .ok (-6) := by
    decide +kernel
  have asked : tasks (lexemes "A[1 1+]*(2 3-)") =
      [.read "A", .operate .add, .operate .mul, .operate .sub] := by decide
  obtain ⟨-, -, -, -, done, -, -, count, -⟩ := evaluate_accounts value
  exact ⟨value, asked ▸ done, count⟩

end ArrayCalc
