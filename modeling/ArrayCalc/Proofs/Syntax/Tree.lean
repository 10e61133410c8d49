import ArrayCalc.Token

/-! The infix grammar and its syntax trees. Sums are built from terms and terms from factors, both
to the left; a factor is an integer, a name, a name with a subscript, or a group. A derivation joins
a sequence of lexemes with the tree it spells. -/
namespace ArrayCalc

inductive Category where
  | expression
  | term
  | factor
deriving DecidableEq, Repr

/-- The least precedence of an operator that may stand in a category outside all brackets. -/
def Category.level : Category → Nat
  | expression => 1
  | term => 2
  | factor => 3

/-- Syntax trees by category. Positions are the first bytes of the tokens that evaluation may blame:
literals, names and closing square brackets. -/
inductive Tree : Category → Type where
  | integer (value position : Nat) : Tree .factor
  | scalar (name : String) (position : Nat) : Tree .factor
  | element (name : String) (position : Nat) (subscript : Tree .expression) (closing : Nat) :
      Tree .factor
  | group (inner : Tree .expression) : Tree .factor
  | ofFactor (factor : Tree .factor) : Tree .term
  | product (left : Tree .term) (op : Operator) (right : Tree .factor) : Tree .term
  | ofTerm (term : Tree .term) : Tree .expression
  | sum (left : Tree .expression) (op : Operator) (right : Tree .term) : Tree .expression
deriving DecidableEq, Repr

/-- The productions `E ::= E ('+' | '-') T | T`, `T ::= T ('*' | '/') F | F` and
`F ::= Integer | Identifier | Identifier '[' E ']' | '(' E ')'`, with the tree of each. -/
inductive Derives : {c : Category} → List Lexeme → Tree c → Prop where
  | integer (value start stop : Nat) :
      Derives [⟨.integer value, start, stop⟩] (.integer value start)
  | scalar (name : String) (start stop : Nat) :
      Derives [⟨.identifier name, start, stop⟩] (.scalar name start)
  | element (name : String) (start stop start₁ stop₁ start₂ stop₂ : Nat) {ls : List Lexeme}
      {subscript : Tree .expression} (inside : Derives ls subscript) :
      Derives (⟨.identifier name, start, stop⟩ :: ⟨.opening .square, start₁, stop₁⟩ ::
        (ls ++ [⟨.closing .square, start₂, stop₂⟩])) (.element name start subscript start₂)
  | group (start₁ stop₁ start₂ stop₂ : Nat) {ls : List Lexeme} {inner : Tree .expression}
      (inside : Derives ls inner) :
      Derives (⟨.opening .paren, start₁, stop₁⟩ :: (ls ++ [⟨.closing .paren, start₂, stop₂⟩]))
        (.group inner)
  | ofFactor {ls : List Lexeme} {factor : Tree .factor} (h : Derives ls factor) :
      Derives ls (.ofFactor factor)
  | product {ls rs : List Lexeme} {left : Tree .term} {right : Tree .factor} {op : Operator}
      (start stop : Nat) (first : Derives ls left) (joins : op = .mul ∨ op = .div)
      (second : Derives rs right) :
      Derives (ls ++ ⟨.operator op, start, stop⟩ :: rs) (.product left op right)
  | ofTerm {ls : List Lexeme} {term : Tree .term} (h : Derives ls term) : Derives ls (.ofTerm term)
  | sum {ls rs : List Lexeme} {left : Tree .expression} {right : Tree .term} {op : Operator}
      (start stop : Nat) (first : Derives ls left) (joins : op = .add ∨ op = .sub)
      (second : Derives rs right) :
      Derives (ls ++ ⟨.operator op, start, stop⟩ :: rs) (.sum left op right)

def Derivable (ls : List Lexeme) : Prop := ∃ tree : Tree .expression, Derives ls tree

theorem Operator.precedence_of_product {op : Operator} (joins : op = .mul ∨ op = .div) :
    op.precedence = 2 := by
  rcases joins with rfl | rfl <;> rfl

theorem Operator.precedence_of_sum {op : Operator} (joins : op = .add ∨ op = .sub) :
    op.precedence = 1 := by
  rcases joins with rfl | rfl <;> rfl

/-- A further factor may follow any expression and any operator: a tight operator binds it to the
last term, a loose one makes it a term of its own. -/
theorem Derives.append_factor {ls rs : List Lexeme} {left : Tree .expression} {right : Tree .factor}
    (first : Derives ls left) (op : Operator) (start stop : Nat) (second : Derives rs right) :
    Derivable (ls ++ ⟨.operator op, start, stop⟩ :: rs) := by
  by_cases loose : op = .add ∨ op = .sub
  · exact ⟨_, .sum start stop first loose (.ofFactor second)⟩
  have tight : op = .mul ∨ op = .div := by cases op <;> simp_all
  cases first with
  | ofTerm term => exact ⟨_, .ofTerm (.product start stop term tight second)⟩
  | sum start' stop' before joins term =>
    have joined := Derives.sum start' stop' before joins (.product start stop term tight second)
    exact ⟨_, by simpa only [List.append_assoc, List.cons_append] using joined⟩

end ArrayCalc
