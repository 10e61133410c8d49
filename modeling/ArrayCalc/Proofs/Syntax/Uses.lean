import ArrayCalc.Proofs.Syntax.Alternation
import ArrayCalc.Proofs.Syntax.Value
import ArrayCalc.Proofs.Table.Discovery

/-! The names in a syntax tree. They are those of the identifiers it spells, and its value depends
on nothing else. -/
namespace ArrayCalc

def Tree.uses : {c : Category} → Tree c → List (String × VariableKind)
  | _, .integer .. => []
  | _, .scalar name _ => [(name, .scalar)]
  | _, .element name _ subscript _ => (name, .array) :: subscript.uses
  | _, .group inner => inner.uses
  | _, .ofFactor factor => factor.uses
  | _, .product left _ right => left.uses ++ right.uses
  | _, .ofTerm term => term.uses
  | _, .sum left _ right => left.uses ++ right.uses

/-- Valuations that give a name the same meaning as a kind. -/
def Valuation.Agrees (v v' : Valuation) : String × VariableKind → Prop
  | (name, .scalar) => v.scalar name = v'.scalar name
  | (name, .array) => v.array name = v'.array name

section Agreement

variable {v v' : Valuation} {name : String}

theorem Valuation.Agrees.readScalar_eq (h : v.Agrees v' (name, .scalar)) :
    v.readScalar name = v'.readScalar name := by
  have same : v.scalar name = v'.scalar name := h
  funext position
  simp only [readScalar, same]

theorem Valuation.Agrees.readElement_eq (h : v.Agrees v' (name, .array)) :
    v.readElement name = v'.readElement name := by
  have same : v.array name = v'.array name := h
  funext position subscript closing
  simp only [readElement, same]

theorem Tree.value_congr {c : Category} (tree : Tree c)
    (agree : ∀ use ∈ tree.uses, v.Agrees v' use) (truncating : Bool) :
    tree.value v truncating = tree.value v' truncating := by
  induction tree generalizing truncating with
  | integer => rfl
  | scalar name position =>
    have same := agree (name, .scalar) (by simp [uses])
    simp only [value, same.readScalar_eq]
  | element name position subscript closing ih =>
    obtain ⟨same, inner⟩ := List.forall_mem_cons.mp agree
    simp only [value, same.readElement_eq, ih inner]
  | group inner ih | ofFactor inner ih | ofTerm inner ih => exact ih agree _
  | product left op right ihl ihr | sum left op right ihl ihr =>
    obtain ⟨before, after⟩ := List.forall_mem_append.mp agree
    simp only [value, ihl before, ihr after]

end Agreement

theorem separated_of_alternates {ls : List Lexeme} {afterOperand : Bool}
    (h : alternates afterOperand ls = true) : Separated (ls.map Lexeme.token) := by
  induction ls generalizing afterOperand with
  | nil => exact List.isChain_nil
  | cons l ls ih =>
    simp only [alternates, Bool.and_eq_true] at h
    cases ls with
    | nil => exact List.isChain_singleton _
    | cons l' ls =>
      refine List.isChain_cons_cons.mpr ⟨?_, ih h.2⟩
      rintro ⟨atom, atom'⟩
      have ends : l.token.endsOperand = true := by
        cases token : l.token <;> simp_all [Token.isAtom, Token.endsOperand]
      have begins : l'.token.beginsOperand = true := by
        cases token : l'.token <;> simp_all [Token.isAtom, Token.beginsOperand]
      simp [alternates, ends, begins] at h

namespace Derives

variable {c : Category} {ls : List Lexeme} {tree : Tree c}

/-- The identifiers of derived lexemes are the names of their tree. What follows them must not make
the last one the name of an array. -/
theorem identifierUses_append (h : Derives ls tree) (rest : List Token)
    (next : rest.head? ≠ some (.opening .square)) :
    identifierUses (ls.map Lexeme.token ++ rest) = tree.uses ++ identifierUses rest := by
  induction h generalizing rest with
  | integer => rfl
  | scalar name start stop => simp [identifierUses, Tree.uses, next]
  | element _ _ _ _ _ _ _ _ ih =>
    have inner := ih (.closing .square :: rest) (by simp)
    simp [identifierUses, Tree.uses, inner]
  | group _ _ _ _ _ ih =>
    have inner := ih (.closing .paren :: rest) (by simp)
    simp [identifierUses, Tree.uses, inner]
  | ofFactor _ ih | ofTerm _ ih => exact ih rest next
  | @product _ rs _ _ op _ _ _ _ _ ihl ihr | @sum _ rs _ _ op _ _ _ _ _ ihl ihr =>
    have left := ihl (.operator op :: (rs.map Lexeme.token ++ rest)) (by simp)
    simp [identifierUses, Tree.uses, left, ihr rest next]

end Derives

end ArrayCalc
