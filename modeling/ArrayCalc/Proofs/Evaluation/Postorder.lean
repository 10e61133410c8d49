import Mathlib.Data.List.Forall2
import ArrayCalc.Proofs.Evaluation.TreeRuns

/-! The trace of a well-formed text follows its syntax tree in postorder. The machine puts
reductions off until a later operator, a closing bracket or the end forces them; the order in which
they are traced does not show it. A failing evaluation has traced what stands before the first node
that fails. -/
namespace ArrayCalc

/-- A node of a syntax tree, with the token that follows its last lexeme. This token forces the
operation of the node, if it has one. -/
structure Node where
  {category : Category}
  tree : Tree category
  next : Option Token

namespace Tree

/-- The nodes of a tree in postorder from left to right, given the token that follows the tree.
Groups and the steps from one category to the next add none. -/
def postorder : {c : Category} → Tree c → Option Token → List Node
  | _, .integer value position, next => [⟨.integer value position, next⟩]
  | _, .scalar name position, next => [⟨.scalar name position, next⟩]
  | _, .element name position subscript closing, next =>
    subscript.postorder (some (.closing .square)) ++
      [⟨.element name position subscript closing, next⟩]
  | _, .group inner, _ => inner.postorder (some (.closing .paren))
  | _, .ofFactor factor, next => factor.postorder next
  | _, .product left op right, next =>
    left.postorder (some (.operator op)) ++ right.postorder next ++
      [⟨.product left op right, next⟩]
  | _, .ofTerm term, next => term.postorder next
  | _, .sum left op right, next =>
    left.postorder (some (.operator op)) ++ right.postorder next ++
      [⟨.sum left op right, next⟩]

def isRecorded : {c : Category} → Tree c → Bool
  | _, .product .. | _, .sum .. | _, .element .. => true
  | _, _ => false

/-- No operation stands at the root of a factor, so there is none to round. -/
theorem value_factor (v : Valuation) (tree : Tree .factor) (truncating : Bool) :
    tree.value v truncating = tree.value v false := by
  cases tree <;> rfl

end Tree

namespace Node

/-- Some of the lexemes spell the node, and the token after them is the one that follows it. -/
def SpelledIn (n : Node) (ls : List Lexeme) : Prop :=
  ∃ before part after, ls = before ++ (part ++ after) ∧ Derives part n.tree ∧
    n.next = after.head?.map Lexeme.token

def truncating (n : Node) : Bool := n.next = some (.closing .square)

def value (v : Valuation) (n : Node) : Except EvalError Float :=
  (n.tree.value v n.truncating).outcome

def result (op : Operator) (next : Option Token) (x y : Float) : Float :=
  if next = some (.closing .square) then Number.truncate (op.apply x y) else op.apply x y

/-- The record of a node. An operation tells the values of its operands, left one first, and its
result; an element read tells the slot that its subscript selects and the value there. -/
inductive Records (v : Valuation) : Node → TraceEvent → Prop where
  | product {left : Tree .term} {op : Operator} {right : Tree .factor} {next : Option Token}
      {x y : Float} (first : value v ⟨left, some (.operator op)⟩ = .ok x)
      (second : value v ⟨right, next⟩ = .ok y) :
      Records v ⟨.product left op right, next⟩ (.reduced x op y (result op next x y))
  | sum {left : Tree .expression} {op : Operator} {right : Tree .term} {next : Option Token}
      {x y : Float} (first : value v ⟨left, some (.operator op)⟩ = .ok x)
      (second : value v ⟨right, next⟩ = .ok y) :
      Records v ⟨.sum left op right, next⟩ (.reduced x op y (result op next x y))
  | element {name : String} {position closing : Nat} {subscript : Tree .expression}
      {next : Option Token} {index : Float} {slots : List Int} {slot : Nat} {x : Float}
      (inside : value v ⟨subscript, some (.closing .square)⟩ = .ok index)
      (known : v.array name = some slots) (selected : Number.slot? index slots.length = some slot)
      (exact : Number.ofInt? (slots.getD slot 0) = some x) :
      Records v ⟨.element name position subscript closing, next⟩ (.read name slot x)

end Node

/-- Nodes that all have a value, with the records of those that leave one. -/
def Recorded (v : Valuation) (nodes : List Node) (events : List TraceEvent) : Prop :=
  (∀ n ∈ nodes, ∃ x, n.value v = .ok x) ∧
    List.Forall₂ (Node.Records v) (nodes.filter fun n => n.tree.isRecorded) events

/-- A computation visits nodes in order: all of them, or those before the first that fails. Its
trace is the records of the nodes that it has visited. -/
def Visits (v : Valuation) (nodes : List Node) {α : Type} (c : Traced α) : Prop :=
  match c.outcome with
  | .ok _ => Recorded v nodes c.events
  | .error e => ∃ before n after, nodes = before ++ n :: after ∧ Recorded v before c.events ∧
      n.value v = .error e

variable {α β : Type} {v : Valuation} {nodes nodes' : List Node} {n : Node}

theorem Recorded.append {events events' : List TraceEvent} (h : Recorded v nodes events)
    (h' : Recorded v nodes' events') : Recorded v (nodes ++ nodes') (events ++ events') := by
  refine ⟨List.forall_mem_append.mpr ⟨h.1, h'.1⟩, ?_⟩
  rw [List.filter_append]
  exact List.rel_append h.2 h'.2

namespace Visits

theorem of_ok {c : Traced α} {a : α} (ends : c.outcome = .ok a) :
    Visits v nodes c ↔ Recorded v nodes c.events := by
  simp only [Visits, ends]

theorem of_error {c : Traced α} {e : EvalError} (ends : c.outcome = .error e) :
    Visits v nodes c ↔ ∃ before n after, nodes = before ++ n :: after ∧
      Recorded v before c.events ∧ n.value v = .error e := by
  simp only [Visits, ends]

/-- A computation that goes on visits the nodes of both parts. -/
theorem bind {c : Traced α} {f : α → Traced β} (first : Visits v nodes c)
    (second : ∀ a, c.outcome = .ok a → Visits v nodes' (f a)) :
    Visits v (nodes ++ nodes') (c >>= f) := by
  cases ends : c.outcome with
  | error e =>
    obtain ⟨before, n, after, rfl, recorded, fault⟩ := (of_error ends).mp first
    rw [Traced.bind_of_error ends]
    exact ⟨before, n, after ++ nodes', by simp, recorded, fault⟩
  | ok a =>
    have recorded := (of_ok ends).mp first
    have rest := second a ends
    have joined := Traced.events_bind_of_ok (f := f) ends
    cases ends' : (f a).outcome with
    | ok b =>
      rw [of_ok ((Traced.outcome_bind_of_ok ends).trans ends'), joined]
      exact recorded.append ((of_ok ends').mp rest)
    | error e =>
      -- The first node that fails is one of the second part, after all nodes of the first.
      obtain ⟨before, n, after, rfl, recorded', fault⟩ := (of_error ends').mp rest
      rw [of_error ((Traced.outcome_bind_of_ok ends).trans ends'), joined]
      exact ⟨nodes ++ before, n, after, by simp, recorded.append recorded', fault⟩

variable {c : Traced Float}

theorem of_value {x : Float} (same : n.value v = c.outcome) (ends : c.outcome = .ok x)
    (told : List.Forall₂ (Node.Records v) ([n].filter fun n => n.tree.isRecorded) c.events) :
    Visits v [n] c :=
  (of_ok ends).mpr ⟨by simp [same, ends], told⟩

/-- A node that fails once its parts have values is the first that fails, and has no record. -/
theorem of_fault {e : EvalError} (same : n.value v = c.outcome) (ends : c.outcome = .error e)
    (silent : c.events = []) : Visits v [n] c :=
  (of_error ends).mpr ⟨[], n, [], rfl, ⟨by simp, by simp [silent]⟩, same.trans ends⟩

theorem of_leaf (same : n.value v = c.outcome) (kind : n.tree.isRecorded = false)
    (silent : c.events = []) : Visits v [n] c := by
  cases ends : c.outcome with
  | error e => exact of_fault same ends silent
  | ok x => exact of_value same ends (by simp [kind, silent])

end Visits

namespace Tree

variable {op : Operator} {next : Option Token} {x y : Float}

theorem visits_operate (same : n.value v = (operate op n.truncating x y).outcome)
    (kind : n.tree.isRecorded = true)
    (records : n.Records v (.reduced x op y (Node.result op n.next x y))) :
    Visits v [n] (operate op n.truncating x y) := by
  refine Visits.of_value same rfl ?_
  simpa [kind, operate, Node.truncating, Node.result] using records

theorem visits_readElement {name : String} {position closing : Nat} {subscript : Tree .expression}
    {index : Float} (inside : (subscript.value v true).outcome = .ok index) :
    Visits v [⟨.element name position subscript closing, next⟩]
      (v.readElement name position index closing) := by
  have same : Node.value v ⟨.element name position subscript closing, next⟩ =
      (v.readElement name position index closing).outcome := Traced.outcome_bind_of_ok inside
  revert same
  unfold Valuation.readElement
  split
  · exact fun same => .of_fault same rfl rfl
  · rename_i slots known
    split
    · exact fun same => .of_fault same rfl rfl
    · rename_i slot selected
      split
      · exact fun same => .of_fault same rfl rfl
      · rename_i x exact'
        exact fun same => .of_value same rfl (.cons (.element inside known selected exact') .nil)

/-- Evaluating a tree visits its nodes in postorder. -/
theorem visits {c : Category} (v : Valuation) (tree : Tree c) (next : Option Token) :
    Visits v (tree.postorder next) (tree.value v (next = some (.closing .square))) := by
  induction tree generalizing next with
  | integer literal position =>
    refine .of_leaf rfl rfl ?_
    simp only [value]
    cases Number.ofInt? literal <;> rfl
  | scalar name position => exact .of_leaf rfl rfl (v.events_readScalar name position)
  | element name position subscript closing ih =>
    exact (ih _).bind fun index inside => visits_readElement inside
  | group inner ih => exact ih _
  | ofFactor factor ih => rw [value, ← value_factor v factor]; exact ih next
  | ofTerm term ih => exact ih next
  | product left op right ihl ihr =>
    -- The right operand is followed by what follows the product, though nothing in it is rounded.
    rw [postorder, List.append_assoc, value,
      ← value_factor v right (next = some (.closing .square))]
    refine (ihl _).bind fun x first => (ihr next).bind fun y second => ?_
    have plain : (right.value v false).outcome = .ok y := value_factor v right _ ▸ second
    refine visits_operate ?_ rfl (.product first second)
    exact (Traced.outcome_bind_of_ok first).trans (Traced.outcome_bind_of_ok plain)
  | sum left op right ihl ihr =>
    rw [postorder, List.append_assoc]
    refine (ihl _).bind fun x first => (ihr next).bind fun y second => ?_
    refine visits_operate ?_ rfl (.sum first second)
    exact (Traced.outcome_bind_of_ok first).trans (Traced.outcome_bind_of_ok second)

end Tree

theorem Node.SpelledIn.append_left {ls : List Lexeme} (h : n.SpelledIn ls) (before : List Lexeme) :
    n.SpelledIn (before ++ ls) := by
  obtain ⟨first, part, last, rfl, spells, next⟩ := h
  exact ⟨before ++ first, part, last, by simp, spells, next⟩

/-- The nodes of two operands and of their operation stand in the lexemes of the operation. -/
theorem Node.spelledIn_operation {ls rs rest : List Lexeme} {operator : Lexeme}
    (first : ∀ m ∈ nodes, m.SpelledIn (ls ++ operator :: (rs ++ rest)))
    (second : ∀ m ∈ nodes', m.SpelledIn (rs ++ rest))
    (whole : n.SpelledIn (ls ++ operator :: rs ++ rest)) :
    ∀ m ∈ nodes ++ nodes' ++ [n], m.SpelledIn (ls ++ operator :: rs ++ rest) := by
  intro m mem
  rcases List.mem_append.mp mem with operand | last
  · rw [List.append_assoc, List.cons_append]
    rcases List.mem_append.mp operand with before | after
    · exact first m before
    · exact ((second m after).append_left [operator]).append_left ls
  · obtain rfl := List.mem_singleton.mp last
    exact whole

section Derives

variable {c : Category} {ls : List Lexeme} {tree : Tree c}

theorem Derives.root_spelledIn (h : Derives ls tree) (rest : List Lexeme) :
    Node.SpelledIn ⟨tree, rest.head?.map Lexeme.token⟩ (ls ++ rest) :=
  ⟨[], ls, rest, rfl, h, rfl⟩

/-- The nodes of a tree stand in the lexemes that spell it, each before the token given for it. -/
theorem Derives.spelledIn (h : Derives ls tree) (rest : List Lexeme) :
    ∀ n ∈ tree.postorder (rest.head?.map Lexeme.token), n.SpelledIn (ls ++ rest) := by
  induction h generalizing rest with
  | integer value start stop =>
    exact List.forall_mem_singleton.mpr ((Derives.integer value start stop).root_spelledIn rest)
  | scalar name start stop =>
    exact List.forall_mem_singleton.mpr ((Derives.scalar name start stop).root_spelledIn rest)
  | element name start stop start₁ stop₁ start₂ stop₂ inside ih =>
    refine List.forall_mem_append.mpr ⟨?_, List.forall_mem_singleton.mpr ?_⟩
    · intro n mem
      have spelled := ih (⟨.closing .square, start₂, stop₂⟩ :: rest) n mem
      simpa using spelled.append_left
        [⟨.identifier name, start, stop⟩, ⟨.opening .square, start₁, stop₁⟩]
    · exact (Derives.element name start stop start₁ stop₁ start₂ stop₂ inside).root_spelledIn rest
  | group start₁ stop₁ start₂ stop₂ inside ih =>
    intro n mem
    have spelled := ih (⟨.closing .paren, start₂, stop₂⟩ :: rest) n mem
    simpa using spelled.append_left [⟨.opening .paren, start₁, stop₁⟩]
  | ofFactor _ ih | ofTerm _ ih => exact ih rest
  | @product ls rs left right op start stop first joins second ihl ihr =>
    exact Node.spelledIn_operation (ihl (⟨.operator op, start, stop⟩ :: (rs ++ rest))) (ihr rest)
      ((Derives.product start stop first joins second).root_spelledIn rest)
  | @sum ls rs left right op start stop first joins second ihl ihr =>
    exact Node.spelledIn_operation (ihl (⟨.operator op, start, stop⟩ :: (rs ++ rest))) (ihr rest)
      ((Derives.sum start stop first joins second).root_spelledIn rest)

end Derives

/-- Evaluating a derivable text visits the nodes of its tree in postorder, each of them spelled in
the text before the token that forces it. The trace is the records of all nodes if the evaluation
has a value, and of those before the first node that fails if it has none. -/
theorem evaluateTraced_visits {text : String} {tree : Tree .expression}
    (h : Derives (lexemes text) tree) :
    (∀ n ∈ tree.postorder none, n.SpelledIn (lexemes text)) ∧
      ∀ table : Table,
        Visits table.valuation (tree.postorder none) (evaluateTraced text table) := by
  constructor
  · intro n mem
    simpa using h.spelledIn [] n mem
  · intro table
    rw [evaluateTraced_eq_value h table]
    exact tree.visits table.valuation none

theorem evaluateTraced_visits_unknown :
    ∃ tree : Tree .expression, Derives (lexemes "A[5-7/2]-x") tree ∧
      (∀ n ∈ tree.postorder none, n.SpelledIn (lexemes "A[5-7/2]-x")) ∧
      ∃ before n after, tree.postorder none = before ++ n :: after ∧
        Recorded (Table.valuation { arrays := [⟨"A", #[4, 5, 6]⟩] }) before
          [.reduced 7 .div 2 3, .reduced 5 .sub 3 2, .read "A" 2 6] ∧
        n.value (Table.valuation { arrays := [⟨"A", #[4, 5, 6]⟩] }) =
          .error (.unknownVariable "x" .scalar 9) := by
  have read : lexemes "A[5-7/2]-x" =
      [⟨.identifier "A", 0, 1⟩, ⟨.opening .square, 1, 2⟩, ⟨.integer 5, 2, 3⟩,
        ⟨.operator .sub, 3, 4⟩, ⟨.integer 7, 4, 5⟩, ⟨.operator .div, 5, 6⟩, ⟨.integer 2, 6, 7⟩,
        ⟨.closing .square, 7, 8⟩, ⟨.operator .sub, 8, 9⟩, ⟨.identifier "x", 9, 10⟩] := by decide
  have quotient := Derives.product 5 6 (.ofFactor (.integer 7 4 5)) (.inr rfl) (.integer 2 6 7)
  have inside := Derives.sum 3 4 (.ofTerm (.ofFactor (.integer 5 2 3))) (.inr rfl) quotient
  have element := Derives.element "A" 0 1 1 2 7 8 inside
  have whole := Derives.sum 8 9 (.ofTerm (.ofFactor element)) (.inr rfl)
    (.ofFactor (.scalar "x" 9 10))
  have spells : ∃ tree : Tree .expression, Derives (lexemes "A[5-7/2]-x") tree :=
    ⟨_, by simpa [read] using whole⟩
  have events : (evaluateTraced "A[5-7/2]-x" { arrays := [⟨"A", #[4, 5, 6]⟩] }).events =
      [.reduced 7 .div 2 3, .reduced 5 .sub 3 2, .read "A" 2 6] := by decide +kernel
  have ends : (evaluateTraced "A[5-7/2]-x" { arrays := [⟨"A", #[4, 5, 6]⟩] }).outcome =
      .error (.unknownVariable "x" .scalar 9) := by decide +kernel
  obtain ⟨tree, h⟩ := spells
  obtain ⟨spelled, visits⟩ := evaluateTraced_visits h
  exact ⟨tree, h, spelled, events ▸ (Visits.of_error ends).mp (visits _)⟩

end ArrayCalc
