import Mathlib.Data.List.Chain
import ArrayCalc.Proofs.Evaluation.Reached
import ArrayCalc.Proofs.Evaluation.Steps
import ArrayCalc.Proofs.Evaluation.TreeRuns

/-! The operators that wait in one group. An operator is put on the stack only once those that bind
at least as tight are reduced, so each binds tighter than the one below it, and at most two wait.
What closes the group performs at most one multiplicative operation and then at most one additive
one. Of a subscript no more than these two are rounded before it selects a slot. -/
namespace ArrayCalc

/-- What may lie on a mark: of two operators the upper one binds tighter. -/
def Mark.Covers : Mark → Mark → Prop
  | .operator upper, .operator lower => lower.precedence < upper.precedence
  | _, _ => True

theorem Operator.product_or_sum (op : Operator) :
    (op.precedence = 2 ∧ (op = .mul ∨ op = .div)) ∨
      (op.precedence = 1 ∧ (op = .add ∨ op = .sub)) := by
  cases op <;> simp [precedence]

theorem Operator.precedence_bounds (op : Operator) : 1 ≤ op.precedence ∧ op.precedence ≤ 2 := by
  cases op <;> decide

/-- As there are two levels of precedence, at most two operators ascend. -/
theorem exists_product_sum {ops : List Operator}
    (ascending : ops.Pairwise fun upper lower => lower.precedence < upper.precedence) :
    ∃ product sum : Option Operator, ops = product.toList ++ sum.toList ∧
      (∀ op ∈ product, op = .mul ∨ op = .div) ∧ ∀ op ∈ sum, op = .add ∨ op = .sub := by
  match ops with
  | [] => exact ⟨none, none, rfl, by simp, by simp⟩
  | [op] =>
    rcases op.product_or_sum with ⟨-, product⟩ | ⟨-, sum⟩
    · exact ⟨some op, none, rfl, by simpa using product, by simp⟩
    · exact ⟨none, some op, rfl, by simp, by simpa using sum⟩
  | [upper, lower] =>
    have looser : lower.precedence < upper.precedence := by simpa using ascending
    have upperBounds := upper.precedence_bounds
    have lowerBounds := lower.precedence_bounds
    rcases upper.product_or_sum with ⟨-, product⟩ | ⟨loose, -⟩
    · rcases lower.product_or_sum with ⟨tight, -⟩ | ⟨-, sum⟩
      · omega
      · exact ⟨some upper, some lower, rfl, by simpa using product, by simpa using sum⟩
    · omega
  | upper :: middle :: lower :: _ =>
    simp only [List.pairwise_cons, List.mem_cons, forall_eq_or_imp] at ascending
    obtain ⟨⟨first, -⟩, ⟨second, -⟩, -⟩ := ascending
    have upperBounds := upper.precedence_bounds
    have lowerBounds := lower.precedence_bounds
    omega

namespace State

/-- Operations on the topmost operands, one for each operator, with their records. Each takes two
operands off and puts its result in their place, rounded toward zero if `truncating`. -/
inductive Folds (truncating : Bool) :
    List Operator → List Float → List TraceEvent → List Float → Prop where
  | none (operands : List Float) : Folds truncating [] operands [] operands
  | operate {op : Operator} {ops : List Operator} {left right result : Float}
      {operands operands' : List Float} {events : List TraceEvent}
      (computes : result =
        if truncating then Number.truncate (op.apply left right) else op.apply left right)
      (rest : Folds truncating ops (result :: operands) events operands') :
      Folds truncating (op :: ops) (right :: left :: operands)
        (.reduced left op right result :: events) operands'

/-- Operations of the operators that lie on top of the marks: of at most one multiplicative operator
and then of at most one additive one. -/
def FoldsGroup (truncating : Bool) (s : State) (events : List TraceEvent)
    (operands : List Float) : Prop :=
  ∃ product sum : Option Operator, (∀ op ∈ product, op = .mul ∨ op = .div) ∧
    (∀ op ∈ sum, op = .add ∨ op = .sub) ∧
    (product.toList ++ sum.toList).map Mark.operator <+: s.marks ∧
    Folds truncating (product.toList ++ sum.toList) s.operands events operands

/-- At most one element is read, at the slot that the operand on top selects in an array. -/
inductive ReadsElement (table : Table) : List Float → List TraceEvent → Prop where
  | none (operands : List Float) : ReadsElement table operands []
  | read {name : String} {array : ArrayVariable} {slot : Nat} {subscript value : Float}
      {operands : List Float} (known : table.array? name = some array)
      (selected : Number.slot? subscript array.size = some slot) :
      ReadsElement table (subscript :: operands) [.read name slot value]

variable {table : Table} {text : String} {l : Lexeme} {done rest : List Lexeme}
  {following : Option Token} {s s' : State} {marks : List Mark} {ops : List Operator}

/-- No step puts an operator on one that binds as tight. -/
theorem Takes.isChain_covers (h : Takes table l following s s')
    (before : s.marks.IsChain Mark.Covers) : s'.marks.IsChain Mark.Covers := by
  cases h with
  | integer | arrayName | scalar => exact before
  | operator token reduces =>
    rw [reduces.marks_eq] at before
    refine List.isChain_cons.mpr ⟨?_, before.right_of_append⟩
    intro mark top
    cases mark with
    | bracket b => trivial
    | operator lower =>
      obtain ⟨below, eq⟩ := List.head?_eq_some_iff.mp top
      simpa [Mark.Covers] using reduces.stop lower below eq
  | openingParen | openingSquare => exact List.isChain_cons.mpr ⟨fun _ _ => trivial, before⟩
  | closingParen token reduces | closingSquare token reduces =>
    -- The marks that are left were below the bracket, where the group outside goes on.
    rw [reduces.marks_eq] at before
    exact before.right_of_append.tail

theorem Reached.isChain_covers (h : Reached table text done rest s) :
    s.marks.IsChain Mark.Covers := by
  induction h with
  | start => exact .nil
  | next _ taken ih => exact (takes_of_step taken).isChain_covers ih

/-- Operators with no bracket between them ascend. -/
theorem ascending_of_group (chain : marks.IsChain Mark.Covers)
    (group : ops.map Mark.operator <:+: marks) :
    ops.Pairwise fun upper lower => lower.precedence < upper.precedence := by
  have covers := chain.infix group
  rw [List.isChain_map] at covers
  exact List.isChain_iff_pairwise.mp covers

theorem reduceWhile_missing {passes : Operator → Bool} {truncating : Bool} {position : Nat}
    {operands : List Float} {op : Operator} (pass : passes op = true) (few : operands.length < 2) :
    reduceWhile passes truncating position operands (.operator op :: marks) =
      Traced.fail (.malformed .missingOperand position) := by
  match operands, few with
  | [], _ | [_], _ =>
    simp only [reduceWhile, pass, ↓reduceIte]
    rfl

/-- Reductions perform operators from the top of the marks down, and leave the operands that these
operations leave. -/
theorem exists_folds (passes : Operator → Bool) (truncating : Bool) (position : Nat)
    (operands : List Float) (marks : List Mark) :
    ∃ ops operands', ops.map Mark.operator <+: marks ∧
      Folds truncating ops operands
        (reduceWhile passes truncating position operands marks).events operands' ∧
      ∀ left marks', (reduceWhile passes truncating position operands marks).outcome =
        .ok (left, marks') → left = operands' := by
  induction marks generalizing operands with
  | nil =>
    rw [reduceWhile_stop (by simp)]
    exact ⟨[], operands, List.nil_prefix, .none operands, by simp +contextual⟩
  | cons mark marks ih =>
    cases mark with
    | bracket b =>
      rw [reduceWhile_stop (by simp)]
      exact ⟨[], operands, List.nil_prefix, .none operands, by simp +contextual⟩
    | operator op =>
      by_cases pass : passes op
      · match operands with
        | [] | [_] =>
          rw [reduceWhile_missing pass (by simp)]
          exact ⟨[], _, List.nil_prefix, .none _, by simp⟩
        | right :: left :: operands =>
          obtain ⟨ops, operands', top, folds, ends⟩ := ih
            ((if truncating then Number.truncate (op.apply left right) else op.apply left right) ::
              operands)
          rw [reduceWhile_operator pass]
          exact ⟨op :: ops, operands', by simpa using top, .operate rfl folds, ends⟩
      · rw [reduceWhile_stop (by simp [pass])]
        exact ⟨[], operands, List.nil_prefix, .none operands, by simp +contextual⟩

/-- Reductions in an ascending group perform at most two operations. -/
theorem exists_foldsGroup (chain : s.marks.IsChain Mark.Covers) (passes : Operator → Bool)
    (truncating : Bool) (position : Nat) :
    ∃ operands, FoldsGroup truncating s
        (reduceWhile passes truncating position s.operands s.marks).events operands ∧
      ∀ left marks', (reduceWhile passes truncating position s.operands s.marks).outcome =
        .ok (left, marks') → left = operands := by
  obtain ⟨ops, operands, top, folds, ends⟩ :=
    exists_folds passes truncating position s.operands s.marks
  obtain ⟨product, sum, rfl, tight, loose⟩ :=
    exists_product_sum (ascending_of_group chain top.isInfix)
  exact ⟨operands, ⟨product, sum, tight, loose, top, folds⟩, ends⟩

theorem readsElement_element (table : Table) (name : String) (namePosition : Nat)
    (subscript : Float) (position : Nat) (operands : List Float) :
    ReadsElement table (subscript :: operands)
      (Operand.element table name namePosition subscript position).events := by
  rw [Operand.element]
  cases known : table.array? name with
  | none => exact .none _
  | some array =>
    cases selected : Number.slot? subscript array.size with
    | none =>
      simp only [Traced.ofOption_some, pure_bind, selected]
      exact .none _
    | some slot =>
      simp only [Traced.ofOption_some, pure_bind, selected]
      cases Number.ofInt? (array.values.getD slot 0) with
      | none => exact .none _
      | some value => exact .read known selected

theorem readsElement_resolveSubscript (table : Table) (position : Nat) (s : State) :
    ReadsElement table s.operands (resolveSubscript table position s).events := by
  obtain ⟨operands, marks, pending, after⟩ := s
  match operands, pending with
  | [], _ | _ :: _, [] => exact .none _
  | subscript :: operands, (name, namePosition) :: pending =>
    simp only [resolveSubscript]
    rw [Traced.events_bind_of_silent fun _ => rfl]
    exact readsElement_element table name namePosition subscript position operands

theorem exists_foldsGroup_of_closingParen (chain : s.marks.IsChain Mark.Covers)
    (token : l.token = .closing .paren) :
    ∃ operands, FoldsGroup false s (step table l following s).events operands := by
  obtain ⟨operands, folds, -⟩ := exists_foldsGroup chain (fun _ => true) false l.start
  refine ⟨operands, ?_⟩
  simp only [step, token]
  rw [Traced.events_bind_of_silent fun _ => rfl, events_closeGroup]
  exact folds

/-- What `]` reduces is rounded, and the result is the subscript. -/
theorem exists_foldsGroup_of_closingSquare (chain : s.marks.IsChain Mark.Covers)
    (token : l.token = .closing .square) :
    ∃ folds reads operands, (step table l following s).events = folds ++ reads ∧
      FoldsGroup true s folds operands ∧ ReadsElement table operands reads := by
  obtain ⟨operands, folds, ends⟩ := exists_foldsGroup chain (fun _ => true) true l.start
  have same := events_closeGroup .square l.start s.operands s.marks
  simp only [step, token]
  cases closing : (closeGroup .square l.start s.operands s.marks).outcome with
  | error e =>
    rw [Traced.bind_of_error closing, same]
    exact ⟨_, [], operands, by simp, folds, .none operands⟩
  | ok closed =>
    obtain ⟨left, marks⟩ := closed
    obtain rfl := ends left _ (reduceWhile_of_closeGroup closing)
    rw [Traced.events_bind_of_ok closing, same]
    exact ⟨_, _, left, rfl, folds, readsElement_resolveSubscript table l.start
      { s with operands := left, marks, afterArrayName := false }⟩

/-- A lexeme other than `]` rounds nothing. -/
theorem exists_folds_of_step (other : l.token ≠ .closing .square) :
    ∃ ops operands, Folds false ops s.operands (step table l following s).events operands := by
  have silent : (step table l following s).events = [] →
      ∃ ops operands, Folds false ops s.operands (step table l following s).events operands :=
    fun none => ⟨[], s.operands, none ▸ .none s.operands⟩
  cases token : l.token with
  | integer value =>
    refine silent ?_
    simp only [step, token, Operand.literal]
    cases Number.ofInt? value <;> rfl
  | identifier name =>
    refine silent ?_
    simp only [step, token]
    split
    · rfl
    · rw [Traced.events_bind_of_silent fun _ => rfl, Operand.scalar_eq]
      exact Valuation.events_readScalar ..
  | operator op =>
    obtain ⟨ops, operands, -, folds, -⟩ := exists_folds
      (fun top => op.precedence ≤ top.precedence) false l.start s.operands s.marks
    refine ⟨ops, operands, ?_⟩
    simp only [step, token]
    rwa [Traced.events_bind_of_silent fun _ => rfl]
  | opening b =>
    refine silent ?_
    cases b with
    | paren => simp [step, token]
    | square =>
      simp only [step, token]
      split <;> rfl
  | closing b =>
    cases b with
    | paren =>
      obtain ⟨ops, operands, -, folds, -⟩ :=
        exists_folds (fun _ => true) false l.start s.operands s.marks
      refine ⟨ops, operands, ?_⟩
      simp only [step, token]
      rw [Traced.events_bind_of_silent fun _ => rfl, events_closeGroup]
      exact folds
    | square => exact absurd token other
  | oversized digits | foreign c =>
    refine silent ?_
    simp only [step, token]
    rfl

theorem exists_foldsGroup_of_finish (chain : s.marks.IsChain Mark.Covers) (position : Nat) :
    ∃ operands, FoldsGroup false s (s.finish position).events operands := by
  obtain ⟨operands, folds, -⟩ := exists_foldsGroup chain (fun _ => true) false position
  exact ⟨operands, events_finish position s ▸ folds⟩

/-- In every state that is reached between two lexemes, operators with no bracket between them bind
the tighter the later they were read, so they are at most two. A closing bracket or the end then
performs at most a multiplicative operation and after it an additive one. Those that `]` performs
are rounded toward zero, and what they leave on top is the subscript; no other lexeme rounds. -/
theorem Reached.groups_ascend (h : Reached table text done rest s) :
    (∀ ops : List Operator, ops.map Mark.operator <:+: s.marks →
      (ops.Pairwise fun upper lower => lower.precedence < upper.precedence) ∧ ops.length ≤ 2) ∧
    (∀ l following, l.token = .closing .paren →
      ∃ operands, FoldsGroup false s (step table l following s).events operands) ∧
    (∀ l following, l.token = .closing .square →
      ∃ folds reads operands, (step table l following s).events = folds ++ reads ∧
        FoldsGroup true s folds operands ∧ ReadsElement table operands reads) ∧
    (∀ l following, l.token ≠ .closing .square →
      ∃ ops operands, Folds false ops s.operands (step table l following s).events operands) ∧
    ∃ operands, FoldsGroup false s (s.finish text.utf8ByteSize).events operands := by
  have chain := h.isChain_covers
  refine ⟨?_, ?_, ?_, ?_, ?_⟩
  · intro ops group
    have ascending := ascending_of_group chain group
    refine ⟨ascending, ?_⟩
    obtain ⟨product, sum, rfl, -⟩ := exists_product_sum ascending
    cases product <;> cases sum <;> simp
  · intro l following token
    exact exists_foldsGroup_of_closingParen chain token
  · intro l following token
    exact exists_foldsGroup_of_closingSquare chain token
  · intro l following other
    exact exists_folds_of_step other
  · exact exists_foldsGroup_of_finish chain _

theorem Reached.groups_ascend_subscript :
    ∃ s, Reached { arrays := [⟨"A", #[4, 5, 6, 7, 8]⟩] } "A[1+7/2]"
        [⟨.identifier "A", 0, 1⟩, ⟨.opening .square, 1, 2⟩, ⟨.integer 1, 2, 3⟩,
          ⟨.operator .add, 3, 4⟩, ⟨.integer 7, 4, 5⟩, ⟨.operator .div, 5, 6⟩, ⟨.integer 2, 6, 7⟩]
        [⟨.closing .square, 7, 8⟩] s ∧
      s.marks = [.operator .div, .operator .add, .bracket .square] ∧
      ∃ folds reads operands,
        [.reduced 7 .div 2 3, .reduced 1 .add 3 4, .read "A" 4 8] = folds ++ reads ∧
        FoldsGroup true s folds operands ∧
        ReadsElement { arrays := [⟨"A", #[4, 5, 6, 7, 8]⟩] } operands reads := by
  have first : Reached { arrays := [⟨"A", #[4, 5, 6, 7, 8]⟩] } "A[1+7/2]" []
      (lexemes "A[1+7/2]") {} := .start
  have read : lexemes "A[1+7/2]" =
      [⟨.identifier "A", 0, 1⟩, ⟨.opening .square, 1, 2⟩, ⟨.integer 1, 2, 3⟩,
        ⟨.operator .add, 3, 4⟩, ⟨.integer 7, 4, 5⟩, ⟨.operator .div, 5, 6⟩, ⟨.integer 2, 6, 7⟩,
        ⟨.closing .square, 7, 8⟩] := by decide
  rw [read] at first
  have reached := first.next rfl |>.next rfl |>.next rfl |>.next rfl |>.next rfl |>.next rfl
    |>.next rfl
  obtain ⟨-, -, closes, -⟩ := reached.groups_ascend
  obtain ⟨folds, reads, operands, traced, group, element⟩ :=
    closes ⟨.closing .square, 7, 8⟩ none rfl
  refine ⟨_, reached, rfl, folds, reads, operands, ?_, group, element⟩
  rw [← traced]
  decide +kernel

end State

end ArrayCalc
