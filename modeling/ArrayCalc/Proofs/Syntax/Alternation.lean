import ArrayCalc.Proofs.Syntax.Unambiguous
import ArrayCalc.Proofs.Token.Runs

/-! Derivability by conditions that need no tree. A sequence of lexemes is derivable exactly if it
has no error token, its brackets are nested, every subscript follows a name, and operands alternate
with operators. -/
namespace ArrayCalc

def Token.beginsOperand : Token → Bool
  | .integer _ | .identifier _ | .opening .paren => true
  | _ => false

def Token.endsOperand : Token → Bool
  | .integer _ | .identifier _ | .closing _ => true
  | _ => false

/-- Whether an operand begins exactly where none has just ended, and one ends at the end. -/
def alternates : (afterOperand : Bool) → List Lexeme → Bool
  | afterOperand, [] => afterOperand
  | afterOperand, l :: ls =>
    (l.token.beginsOperand != afterOperand) && alternates l.token.endsOperand ls

/-- Brackets are closed in the order opposite to that of their opening, each by its own kind. -/
inductive Nested : List Lexeme → Prop where
  | nil : Nested []
  | flat {l : Lexeme} {ls : List Lexeme} (plain : l.token.nesting = 0) (rest : Nested ls) :
      Nested (l :: ls)
  | group (b : Bracket) (start₁ stop₁ start₂ stop₂ : Nat) {ls rs : List Lexeme}
      (inside : Nested ls) (rest : Nested rs) :
      Nested (⟨.opening b, start₁, stop₁⟩ :: (ls ++ ⟨.closing b, start₂, stop₂⟩ :: rs))

/-- Every `[` directly follows an identifier. The first lexeme follows the token given. -/
def Subscripted : Option Token → List Lexeme → Prop
  | _, [] => True
  | before, l :: ls =>
    (l.token = .opening .square → ∃ name, before = some (.identifier name)) ∧
      Subscripted (some l.token) ls

variable {ls rs : List Lexeme} {l : Lexeme} {before : Option Token}

theorem Nested.append (h : Nested ls) (h' : Nested rs) : Nested (ls ++ rs) := by
  induction h with
  | nil => exact h'
  | flat plain _ ih => exact .flat plain ih
  | group b start₁ stop₁ start₂ stop₂ inside _ _ ih =>
    simpa only [List.cons_append, List.append_assoc] using
      Nested.group b start₁ stop₁ start₂ stop₂ inside ih

theorem Subscripted.append (h : Subscripted before ls) (plain : l.token ≠ .opening .square)
    (h' : Subscripted (some l.token) rs) : Subscripted before (ls ++ l :: rs) := by
  induction ls generalizing before with
  | nil => exact ⟨fun open_ => absurd open_ plain, h'⟩
  | cons k ls ih => exact ⟨h.1, ih h.2⟩

theorem Subscripted.split (h : Subscripted before (ls ++ l :: rs)) :
    Subscripted before ls ∧ Subscripted (some l.token) rs := by
  induction ls generalizing before with
  | nil => exact ⟨trivial, h.2⟩
  | cons k ls ih => exact ⟨⟨h.1, (ih h.2).1⟩, (ih h.2).2⟩

theorem alternates_closing {b : Bracket} {start stop : Nat} {after : Bool}
    (h : alternates after (ls ++ ⟨.closing b, start, stop⟩ :: rs) = true) :
    alternates after ls = true ∧ alternates true rs = true := by
  induction ls generalizing after with
  | nil => simpa [alternates, Token.beginsOperand, Token.endsOperand] using h
  | cons k ls ih =>
    simp only [List.cons_append, alternates, Bool.and_eq_true] at h ⊢
    exact ⟨⟨h.1, (ih h.2).1⟩, (ih h.2).2⟩

namespace Derives

variable {c : Category} {tree : Tree c}

theorem isError_eq_false (h : Derives ls tree) : ∀ l ∈ ls, l.token.isError = false := by
  induction h with
  | integer | scalar => simp [Token.isError]
  | element _ _ _ _ _ _ _ _ ih =>
    refine List.forall_mem_cons.mpr ⟨rfl, List.forall_mem_cons.mpr ⟨rfl, ?_⟩⟩
    exact List.forall_mem_append.mpr ⟨ih, List.forall_mem_singleton.mpr rfl⟩
  | group _ _ _ _ _ ih =>
    refine List.forall_mem_cons.mpr ⟨rfl, ?_⟩
    exact List.forall_mem_append.mpr ⟨ih, List.forall_mem_singleton.mpr rfl⟩
  | ofFactor _ ih | ofTerm _ ih => exact ih
  | product _ _ _ _ _ ihl ihr | sum _ _ _ _ _ ihl ihr =>
    exact List.forall_mem_append.mpr ⟨ihl, List.forall_mem_cons.mpr ⟨rfl, ihr⟩⟩

theorem nested (h : Derives ls tree) : Nested ls := by
  induction h with
  | integer | scalar => exact .flat rfl .nil
  | element _ _ _ _ _ _ _ _ ih => exact .flat rfl (.group _ _ _ _ _ ih .nil)
  | group _ _ _ _ _ ih => exact .group _ _ _ _ _ ih .nil
  | ofFactor _ ih | ofTerm _ ih => exact ih
  | product _ _ _ _ _ ihl ihr | sum _ _ _ _ _ ihl ihr => exact ihl.append (.flat rfl ihr)

theorem subscripted (h : Derives ls tree) (before : Option Token) : Subscripted before ls := by
  induction h generalizing before with
  | integer | scalar => simp [Subscripted]
  | element name _ _ _ _ _ _ _ ih =>
    refine ⟨by simp, fun _ => ⟨name, rfl⟩, (ih _).append (by simp) trivial⟩
  | group _ _ _ _ _ ih => exact ⟨by simp, (ih _).append (by simp) trivial⟩
  | ofFactor _ ih | ofTerm _ ih => exact ih before
  | product _ _ _ _ _ ihl ihr | sum _ _ _ _ _ ihl ihr =>
    exact (ihl before).append (by simp) (ihr _)

theorem alternates_append (h : Derives ls tree) (rest : List Lexeme) :
    alternates false (ls ++ rest) = alternates true rest := by
  induction h generalizing rest with
  | integer | scalar => simp [alternates, Token.beginsOperand, Token.endsOperand]
  | element _ _ _ _ _ _ _ _ ih | group _ _ _ _ _ ih =>
    simp [alternates, Token.beginsOperand, Token.endsOperand, ih]
  | ofFactor _ ih | ofTerm _ ih => exact ih rest
  | product _ _ _ _ _ ihl ihr | sum _ _ _ _ _ ihl ihr =>
    simp [alternates, Token.beginsOperand, Token.endsOperand, ihl, ihr]

end Derives

/-- What may stand in a group before an operand: nothing, or an expression with an operator. -/
inductive Awaits : List Lexeme → Prop where
  | start : Awaits []
  | operator {ls : List Lexeme} (h : Derivable ls) (op : Operator) (start stop : Nat) :
      Awaits (ls ++ [⟨.operator op, start, stop⟩])

theorem Awaits.append_factor {factor : Tree .factor} (h : Awaits ls) (h' : Derives rs factor) :
    Derivable (ls ++ rs) := by
  cases h with
  | start => exact ⟨_, .ofTerm (.ofFactor h')⟩
  | operator h op start stop =>
    obtain ⟨tree, h⟩ := h
    simpa using h.append_factor op start stop h'

/-- That lexemes complete an expression: from an awaited operand on, from the end of an operand on,
and from the end of a name on, which a subscript may follow. -/
structure Completes (ls : List Lexeme) : Prop where
  operand : ∀ {pre : List Lexeme} {before : Option Token}, Awaits pre → Subscripted before ls →
    alternates false ls = true → Derivable (pre ++ ls)
  rest : ∀ {pre : List Lexeme} {before : Option Token}, Derivable pre →
    (∀ name, before ≠ some (.identifier name)) → Subscripted before ls →
    alternates true ls = true → Derivable (pre ++ ls)
  named : ∀ {pre : List Lexeme} (name : String) (start stop : Nat), Awaits pre →
    Subscripted (some (.identifier name)) ls → alternates true ls = true →
    Derivable (pre ++ ⟨.identifier name, start, stop⟩ :: ls)

namespace Completes

theorem nil : Completes [] where
  operand _ _ h := by simp [alternates] at h
  rest h _ _ _ := by simpa using h
  named name start stop h _ _ := h.append_factor (.scalar name start stop)

/-- An operator is all that may follow an operand outside brackets, and an operand must follow it. -/
theorem follow {pre : List Lexeme} (ih : Completes ls) (h : Derivable pre)
    (plain : l.token.nesting = 0) (known : l.token.isError = false)
    (subscripted : Subscripted before (l :: ls)) (alternating : alternates true (l :: ls) = true) :
    Derivable (pre ++ l :: ls) := by
  obtain ⟨token, start, stop⟩ := l
  cases token with
  | operator op =>
    simpa using ih.operand (.operator h op start stop) subscripted.2
      (by simpa [alternates, Token.beginsOperand, Token.endsOperand] using alternating)
  | integer | identifier => simp [alternates, Token.beginsOperand] at alternating
  | opening | closing => simp [Token.nesting] at plain
  | oversized | foreign => simp [Token.isError] at known

theorem flat (ih : Completes ls) (plain : l.token.nesting = 0) (known : l.token.isError = false) :
    Completes (l :: ls) where
  operand := by
    intro pre before h subscripted alternating
    obtain ⟨token, start, stop⟩ := l
    simp only [alternates, Bool.and_eq_true] at alternating
    cases token with
    | integer value =>
      have joined := h.append_factor (.integer value start stop)
      simpa using ih.rest joined (by simp) subscripted.2 alternating.2
    | identifier name => exact ih.named name start stop h subscripted.2 alternating.2
    | operator => simp [Token.beginsOperand] at alternating
    | opening | closing => simp [Token.nesting] at plain
    | oversized | foreign => simp [Token.isError] at known
  rest h _ subscripted alternating := ih.follow h plain known subscripted alternating
  named name start stop h subscripted alternating := by
    have joined := h.append_factor (.scalar name start stop)
    simpa using ih.follow joined plain known subscripted alternating

theorem group {b : Bracket} {start₁ stop₁ start₂ stop₂ : Nat} (inside : Completes ls)
    (ih : Completes rs) :
    Completes (⟨.opening b, start₁, stop₁⟩ :: (ls ++ ⟨.closing b, start₂, stop₂⟩ :: rs)) where
  operand := by
    intro pre before h subscripted alternating
    simp only [alternates, Bool.and_eq_true] at alternating
    cases b with
    | square => simp [Token.beginsOperand] at alternating
    | paren =>
      have parts := alternates_closing alternating.2
      have named := Subscripted.split subscripted.2
      obtain ⟨tree, inner⟩ := inside.operand .start named.1 parts.1
      have joined := h.append_factor (.group start₁ stop₁ start₂ stop₂ inner)
      simpa using ih.rest joined (by simp) named.2 parts.2
  rest := by
    intro pre before h other subscripted alternating
    cases b with
    | paren => simp [alternates, Token.beginsOperand] at alternating
    | square =>
      obtain ⟨name, eq⟩ := subscripted.1 rfl
      exact absurd eq (other name)
  named := by
    intro pre name start stop h subscripted alternating
    simp only [alternates, Bool.and_eq_true] at alternating
    cases b with
    | paren => simp [Token.beginsOperand] at alternating
    | square =>
      have parts := alternates_closing alternating.2
      have named := Subscripted.split subscripted.2
      obtain ⟨tree, inner⟩ := inside.operand .start named.1 parts.1
      have joined := h.append_factor (.element name start stop start₁ stop₁ start₂ stop₂ inner)
      simpa using ih.rest joined (by simp) named.2 parts.2

end Completes

theorem Nested.completes (h : Nested ls) (known : ∀ l ∈ ls, l.token.isError = false) :
    Completes ls := by
  induction h with
  | nil => exact .nil
  | flat plain _ ih =>
    obtain ⟨first, others⟩ := List.forall_mem_cons.mp known
    exact (ih others).flat plain first
  | group b _ _ _ _ _ _ ihl ihr =>
    obtain ⟨inside, others⟩ := List.forall_mem_append.mp (List.forall_mem_cons.mp known).2
    exact (ihl inside).group (ihr (List.forall_mem_cons.mp others).2)

/-- The grammar asks for no more than known tokens, nested brackets, a name before every subscript,
and alternation. -/
theorem derivable_iff :
    Derivable ls ↔ (∀ l ∈ ls, l.token.isError = false) ∧ Nested ls ∧ Subscripted none ls ∧
      alternates false ls = true := by
  constructor
  · rintro ⟨tree, h⟩
    refine ⟨h.isError_eq_false, h.nested, h.subscripted none, ?_⟩
    simpa [alternates] using h.alternates_append []
  · rintro ⟨known, nested, subscripted, alternating⟩
    exact (nested.completes known).operand .start subscripted alternating

end ArrayCalc
