import ArrayCalc.Proofs.Evaluation.Names
import ArrayCalc.Proofs.Evaluation.Source
import ArrayCalc.Proofs.Number.Integers
import ArrayCalc.Proofs.Syntax.Exact

/-! Evaluation without division is exact. As long as all integers that come up are in the exact range
of numbers, numbers compute what integers do: the same value, or the same subscript outside its
array. Then the rounding of subscripts has nothing to round. -/
namespace ArrayCalc

open Number (Denotes IsExact)

/-- An outcome in numbers that denotes an outcome in integers. -/
inductive Represents : Except EvalError Float → Except OutOfRange Int → Prop where
  | value {x : Float} {n : Int} (denotes : Denotes x n) : Represents (.ok x) (.ok n)
  | outOfRange {x : Float} {name : String} {index : Int} {size position : Nat}
      (denotes : Denotes x index) :
      Represents (.error (.indexOutOfRange name x size position))
        (.error ⟨name, index, size, position⟩)

/-- An operation with the result of its operator, which rounding toward zero did not change. -/
def TraceEvent.IsUnrounded : TraceEvent → Prop
  | reduced left op right result => result = op.apply left right
  | read .. => True

/-- A token that keeps evaluation exact: neither a division nor an integer too large. -/
def Token.IsExact : Token → Prop
  | integer value => value ≤ Number.exactLimit
  | operator op => op ≠ .div
  | _ => True

/-- A table whose integers become numbers, and its array sizes too. -/
structure Table.InRange (t : Table) : Prop where
  scalars : ∀ s ∈ t.scalars, s.value.natAbs ≤ Number.exactLimit
  slots : ∀ a ∈ t.arrays, ∀ value ∈ a.values, value.natAbs ≤ Number.exactLimit
  sizes : ∀ a ∈ t.arrays, a.size ≤ 2 ^ 53

variable {x y : Float} {a b n : Int}

/-- A computation in numbers that keeps to one in integers, in its outcome and in each operation. -/
structure Computes (c : Traced Float) (exact : Except OutOfRange Int) : Prop where
  represents : Represents c.outcome exact
  unrounded : ∀ event ∈ c.events, event.IsUnrounded

namespace Computes

theorem pure (denotes : Denotes x n) : Computes (pure x) (.ok n) :=
  ⟨.value denotes, by simp⟩

/-- What follows a number keeps to integers if it does so for the integer that the number denotes. -/
theorem bind {c : Traced Float} {f : Float → Traced Float} {exact : Except OutOfRange Int}
    {next : Int → Except OutOfRange Int} (first : Computes c exact)
    (rest : ∀ x n, Denotes x n → exact = .ok n → Computes (f x) (next n)) :
    Computes (c >>= f) (exact >>= next) := by
  obtain ⟨events, outcome⟩ := c
  obtain ⟨represents, unrounded⟩ := first
  cases represents with
  | value denotes =>
    have after := rest _ _ denotes rfl
    exact ⟨after.represents, List.forall_mem_append.mpr ⟨unrounded, after.unrounded⟩⟩
  | outOfRange denotes => exact ⟨.outOfRange denotes, unrounded⟩

end Computes

theorem denotes_apply {op : Operator} (exactly : op ≠ .div) (first : Denotes x a)
    (second : Denotes y b) (exact : IsExact (op.applyExact a b)) :
    Denotes (op.apply x y) (op.applyExact a b) := by
  cases op with
  | add => exact Number.denotes_add first second exact
  | sub => exact Number.denotes_sub first second exact
  | mul => exact Number.denotes_mul first second exact
  | div => contradiction

theorem computes_operate {op : Operator} (exactly : op ≠ .div) (first : Denotes x a)
    (second : Denotes y b) (exact : IsExact (op.applyExact a b)) (truncating : Bool) :
    Computes (Tree.operate op truncating x y) (.ok (op.applyExact a b)) := by
  have denotes := denotes_apply exactly first second exact
  have same : (if truncating then Number.truncate (op.apply x y) else op.apply x y) =
      op.apply x y := by
    rw [denotes.truncate_eq exact, ite_self]
  simp only [Tree.operate, same]
  exact ⟨.value denotes, by simp [TraceEvent.IsUnrounded]⟩

namespace Table.InRange

variable {t : Table} {name : String}

theorem computes_readScalar (inRange : t.InRange) (known : name ∈ t.namesOf .scalar)
    (position : Nat) :
    Computes (t.valuation.readScalar name position) (.ok (t.valuation.integer name)) := by
  obtain ⟨s, found⟩ := Option.isSome_iff_exists.mp (Table.isSome_scalar?_iff.mpr known)
  have stored : t.valuation.scalar name = some s.value := by
    simp [Table.valuation, Table.scalarValue?, found]
  have small := inRange.scalars s (List.mem_of_find?_eq_some found)
  obtain ⟨x, converted, denotes⟩ := Number.exists_ofInt? small
  simp only [Valuation.readScalar, Valuation.integer, stored, converted, Option.getD_some]
  exact .pure denotes

/-- An index finds the same element, or is outside the array, as a number and as an integer. -/
theorem computes_readElement (inRange : t.InRange) (known : name ∈ t.namesOf .array)
    (denotes : Denotes x n) (exact : IsExact n) (position closing : Nat) :
    Computes (t.valuation.readElement name position x closing)
      (t.valuation.integerAt name n closing) := by
  obtain ⟨a, found⟩ := Option.isSome_iff_exists.mp (Table.isSome_array?_iff.mpr known)
  have stored : t.valuation.array name = some a.values.toList := by
    simp [Table.valuation, found]
  have mem := List.mem_of_find?_eq_some found
  have size : a.values.toList.length ≤ 2 ^ 53 := inRange.sizes a mem
  simp only [Valuation.readElement, Valuation.integerAt, Valuation.slots, stored,
    Option.getD_some, denotes.slot?_eq size]
  by_cases inside : 0 ≤ n ∧ n < a.values.toList.length
  · have held : a.values.toList.getD n.toNat 0 ∈ a.values.toList := by
      have within : n.toNat < a.values.toList.length := by omega
      rw [List.getD_eq_getElem _ _ within]
      exact List.getElem_mem within
    have small := inRange.slots a mem _ (Array.mem_toList_iff.mp held)
    obtain ⟨y, converted, denotes'⟩ := Number.exists_ofInt? small
    simp only [if_pos inside, converted]
    exact ⟨.value denotes', by simp [TraceEvent.IsUnrounded]⟩
  · simp only [if_neg inside, denotes.truncate_eq exact]
    exact ⟨.outOfRange denotes, by simp [Traced.fail]⟩

end Table.InRange

/-- The value of a tree, beside its value in integers. -/
theorem Derives.computes {c : Category} {ls : List Lexeme} {tree : Tree c} {t : Table}
    (h : Derives ls tree) (tokens : ∀ l ∈ ls, l.token.IsExact) (inRange : t.InRange)
    (knows : t.Knows tree.uses) (values : ∀ n ∈ tree.exactValues t.valuation, IsExact n)
    (truncating : Bool) :
    Computes (tree.value t.valuation truncating) (tree.exact t.valuation) := by
  induction h generalizing truncating with
  | integer value start stop =>
    have small : value ≤ Number.exactLimit := tokens _ (List.mem_singleton_self _)
    obtain ⟨x, converted, denotes⟩ := Number.exists_ofInt? (n := value) small
    simp only [Tree.value, converted]
    exact .pure denotes
  | scalar name start stop =>
    exact inRange.computes_readScalar (knows _ (List.mem_singleton_self _)) start
  | @element name start stop start₁ stop₁ start₂ stop₂ ls subscript inside ih =>
    obtain ⟨known, knows⟩ := Table.knows_cons_iff.mp knows
    obtain ⟨values, -⟩ := List.forall_mem_append.mp values
    refine (ih (fun l mem => tokens l (by simp [mem])) knows values true).bind ?_
    intro x n denotes index
    exact inRange.computes_readElement known denotes (values n (subscript.mem_exactValues index))
      start start₂
  | group start₁ stop₁ start₂ stop₂ inside ih =>
    exact ih (fun l mem => tokens l (by simp [mem])) knows values false
  | ofFactor h ih | ofTerm h ih => exact ih tokens knows values _
  | @product ls rs left right op start stop first joins second ihl ihr
  | @sum ls rs left right op start stop first joins second ihl ihr =>
    obtain ⟨knows, later⟩ := Table.knows_append_iff.mp knows
    obtain ⟨parts, result⟩ := List.forall_mem_append.mp values
    obtain ⟨values, after⟩ := List.forall_mem_append.mp parts
    obtain ⟨before, tokens⟩ := List.forall_mem_append.mp tokens
    obtain ⟨exactly, tokens⟩ := List.forall_mem_cons.mp tokens
    refine (ihl before knows values false).bind ?_
    intro x a denotes value
    rw [value] at after
    refine (ihr tokens later after _).bind ?_
    intro y b denotes' value'
    refine computes_operate exactly denotes denotes' (result _ ?_) truncating
    simp [Tree.exact, value, value', bind, Except.bind, Except.toOption]

/-- Evaluation of a text without division is exact integer evaluation, if the table knows its names
and all integers that come up are in the exact range: it has the value in integers or the fault of
the first subscript outside its array, and rounding changes nothing. -/
theorem evaluate_exact {text : String} {tree : Tree .expression} {t : Table}
    (h : Derives (lexemes text) tree) (exactTokens : ∀ token ∈ tokens text, token.IsExact)
    (inRange : t.InRange) (knows : t.Knows (identifierUses (tokens text)))
    (values : ∀ n ∈ tree.exactValues t.valuation, IsExact n) :
    Represents (evaluate text t) (tree.exact t.valuation) ∧
      ∀ event ∈ (evaluateTraced text t).events, event.IsUnrounded := by
  have each : ∀ l ∈ lexemes text, l.token.IsExact := by
    intro l mem
    exact exactTokens _ (List.mem_map_of_mem mem)
  rw [h.identifierUses_tokens] at knows
  have side := h.computes each inRange knows values false
  rw [evaluate, evaluateTraced_eq_value h]
  exact ⟨side.represents, side.unrounded⟩

/-- The sum is the last integer in the exact range; its left operand is the value of a scalar. -/
theorem evaluate_exact_limit :
    ∃ tree : Tree .expression,
      Derives (lexemes "x+A[i*(2-A[1])]") tree ∧
        tree.exactValues (Table.valuation
            { scalars := [⟨"x", 9007199254740989⟩, ⟨"i", -1⟩], arrays := [⟨"A", #[5, 3]⟩] }) =
          [9007199254740989, -1, 2, 1, 3, -1, 1, 3, 9007199254740992] ∧
        Represents
          (evaluate "x+A[i*(2-A[1])]"
            { scalars := [⟨"x", 9007199254740989⟩, ⟨"i", -1⟩], arrays := [⟨"A", #[5, 3]⟩] })
          (.ok 9007199254740992) := by
  have read : lexemes "x+A[i*(2-A[1])]" =
      [⟨.identifier "x", 0, 1⟩, ⟨.operator .add, 1, 2⟩, ⟨.identifier "A", 2, 3⟩,
        ⟨.opening .square, 3, 4⟩, ⟨.identifier "i", 4, 5⟩, ⟨.operator .mul, 5, 6⟩,
        ⟨.opening .paren, 6, 7⟩, ⟨.integer 2, 7, 8⟩, ⟨.operator .sub, 8, 9⟩,
        ⟨.identifier "A", 9, 10⟩, ⟨.opening .square, 10, 11⟩, ⟨.integer 1, 11, 12⟩,
        ⟨.closing .square, 12, 13⟩, ⟨.closing .paren, 13, 14⟩, ⟨.closing .square, 14, 15⟩] := by
    decide
  have inner := Derives.element "A" 9 10 10 11 12 13 (.ofTerm (.ofFactor (.integer 1 11 12)))
  have difference := Derives.sum 8 9 (.ofTerm (.ofFactor (.integer 2 7 8))) (.inr rfl)
    (.ofFactor inner)
  have index := Derives.product 5 6 (.ofFactor (.scalar "i" 4 5)) (.inl rfl)
    (.group 6 7 13 14 difference)
  have outer := Derives.element "A" 2 3 3 4 14 15 (.ofTerm index)
  have whole := Derives.sum 1 2 (.ofTerm (.ofFactor (.scalar "x" 0 1))) (.inl rfl)
    (.ofFactor outer)
  simp only [List.cons_append, List.nil_append] at whole
  rw [← read] at whole
  let t : Table :=
    { scalars := [⟨"x", 9007199254740989⟩, ⟨"i", -1⟩], arrays := [⟨"A", #[5, 3]⟩] }
  have inRange : t.InRange := ⟨by decide, by decide, by decide⟩
  have exactTokens : ∀ token ∈ tokens "x+A[i*(2-A[1])]", token.IsExact := by
    simp [tokens, read, Token.IsExact, Number.exactLimit]
  have knows : t.Knows (identifierUses (tokens "x+A[i*(2-A[1])]")) := by
    have uses : identifierUses (tokens "x+A[i*(2-A[1])]") =
        [("x", .scalar), ("A", .array), ("i", .scalar), ("A", .array)] := by decide
    rw [uses, Table.Knows]
    decide
  refine ⟨_, whole, by decide, ?_⟩
  exact (evaluate_exact whole exactTokens inRange knows (by decide)).1

end ArrayCalc
