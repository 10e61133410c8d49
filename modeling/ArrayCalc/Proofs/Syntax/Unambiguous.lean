import ArrayCalc.Proofs.Syntax.Tree

/-! The grammar is unambiguous: lexemes spell at most one tree. Brackets balance in every derivable
sequence, and the operators that stand outside its brackets bind at least as tight as its category
asks. So the operator at the root of a tree is found from the lexemes alone. -/
namespace ArrayCalc

def Token.nesting : Token → Int
  | .opening _ => 1
  | .closing _ => -1
  | _ => 0

def depth : List Lexeme → Int
  | [] => 0
  | l :: ls => l.token.nesting + depth ls

@[simp] theorem depth_nil : depth [] = 0 := rfl

@[simp] theorem depth_cons (l : Lexeme) (ls : List Lexeme) :
    depth (l :: ls) = l.token.nesting + depth ls := rfl

@[simp] theorem depth_append (ls rs : List Lexeme) : depth (ls ++ rs) = depth ls + depth rs := by
  induction ls with
  | nil => simp
  | cons l ls ih => simp [ih, Int.add_assoc]

/-- Lexemes, read after `open` brackets, that never close more brackets than are open and have the
operators below `level` inside brackets only. -/
def Shielded (level : Nat) : Int → List Lexeme → Prop
  | opened, [] => 0 ≤ opened
  | opened, l :: ls =>
    0 ≤ opened ∧ (∀ op, l.token = .operator op → op.precedence < level → 0 < opened) ∧
      Shielded level (opened + l.token.nesting) ls

namespace Shielded

variable {level : Nat} {opened : Int} {ls rs : List Lexeme}

theorem nonneg (h : Shielded level opened ls) : 0 ≤ opened := by
  cases ls with
  | nil => exact h
  | cons l ls => exact h.1

theorem append_iff :
    Shielded level opened (ls ++ rs) ↔
      Shielded level opened ls ∧ Shielded level (opened + depth ls) rs := by
  induction ls generalizing opened with
  | nil =>
    simp only [List.nil_append, depth_nil, Int.add_zero]
    constructor
    · intro h
      exact ⟨h.nonneg, h⟩
    · intro h
      exact h.2
  | cons l ls ih =>
    simp only [List.cons_append, Shielded, depth_cons, ih, Int.add_assoc, and_assoc]

theorem weaken (h : Shielded level opened ls) {lower : Nat} (le : lower ≤ level) :
    Shielded lower opened ls := by
  induction ls generalizing opened with
  | nil => exact h
  | cons l ls ih =>
    refine ⟨h.1, ?_, ih h.2.2⟩
    intro op eq loose
    exact h.2.1 op eq (by omega)

/-- Inside one more bracket every operator may stand. -/
theorem enclose (h : Shielded level opened ls) (level' : Nat) :
    Shielded level' (opened + 1) ls := by
  induction ls generalizing opened with
  | nil =>
    have := h.nonneg
    simp only [Shielded]
    omega
  | cons l ls ih =>
    have := h.nonneg
    refine ⟨by omega, fun _ _ _ => by omega, ?_⟩
    have inner := ih h.2.2
    rwa [Int.add_right_comm] at inner

/-- A loose operator stands inside a bracket. -/
theorem depth_pos {op : Operator} {start stop : Nat}
    (h : Shielded level 0 (ls ++ ⟨.operator op, start, stop⟩ :: rs))
    (loose : op.precedence < level) : 0 < depth ls := by
  have split := (append_iff.mp h).2
  simpa using split.2.1 op rfl loose

end Shielded

namespace Derives

variable {c : Category} {ls : List Lexeme} {tree : Tree c}

theorem depth_eq_zero (h : Derives ls tree) : depth ls = 0 := by
  induction h with
  | integer | scalar => rfl
  | element _ _ _ _ _ _ _ _ ih | group _ _ _ _ _ ih => simp [Token.nesting, ih]
  | ofFactor _ ih | ofTerm _ ih => exact ih
  | product _ _ _ _ _ ihl ihr | sum _ _ _ _ _ ihl ihr => simp [Token.nesting, ihl, ihr]

theorem shielded (h : Derives ls tree) : Shielded c.level 0 ls := by
  induction h with
  | integer | scalar => simp [Shielded, Token.nesting]
  | element _ _ _ _ _ _ _ inside ih | group _ _ _ _ inside ih =>
    have inner : Shielded 3 1 _ := Shielded.enclose ih 3
    simp [Shielded, Shielded.append_iff, Token.nesting, inside.depth_eq_zero, Category.level,
      inner]
  | ofFactor _ ih | ofTerm _ ih => exact ih.weaken (by decide)
  | product _ _ first joins _ ihl ihr =>
    have tight := Operator.precedence_of_product joins
    refine Shielded.append_iff.mpr ⟨ihl, ?_⟩
    simpa [Shielded, Token.nesting, first.depth_eq_zero, tight, Category.level] using
      ihr.weaken (by decide : Category.term.level ≤ Category.factor.level)
  | sum _ _ first joins _ ihl ihr =>
    have loose := Operator.precedence_of_sum joins
    refine Shielded.append_iff.mpr ⟨ihl, ?_⟩
    simpa [Shielded, Token.nesting, first.depth_eq_zero, loose, Category.level] using
      ihr.weaken (by decide : Category.expression.level ≤ Category.term.level)

end Derives

/-- Two splits of the same lexemes at operators that are loose for what follows them are one. -/
theorem split_unique {level : Nat} {ls ls' rs rs' : List Lexeme} {op op' : Operator}
    {start stop start' stop' : Nat}
    (same : ls ++ ⟨.operator op, start, stop⟩ :: rs = ls' ++ ⟨.operator op', start', stop'⟩ :: rs')
    (balanced : depth ls = 0) (balanced' : depth ls' = 0)
    (loose : op.precedence < level) (loose' : op'.precedence < level)
    (shielded : Shielded level 0 rs) (shielded' : Shielded level 0 rs') :
    ls = ls' ∧ op = op' ∧ rs = rs' := by
  -- The longer left part would hold the other operator, outside all brackets of the right part.
  have no_longer : ∀ {as bs cs : List Lexeme} {op : Operator} {start stop : Nat} {l : Lexeme},
      l.token.nesting = 0 → depth as = 0 → depth (as ++ l :: bs) = 0 →
      Shielded level 0 (bs ++ ⟨.operator op, start, stop⟩ :: cs) → ¬ op.precedence < level := by
    intro as bs cs op start stop l flat outer whole inside lt
    have inner := inside.depth_pos lt
    simp only [depth_append, depth_cons] at whole
    omega
  rcases List.append_eq_append_iff.mp same with ⟨as, rfl, tail⟩ | ⟨as, rfl, tail⟩
  · cases as with
    | nil => simp_all
    | cons a as =>
      obtain ⟨rfl, rfl⟩ := List.cons.inj tail
      exact absurd loose' (no_longer rfl balanced balanced' shielded)
  · cases as with
    | nil => simp_all
    | cons a as =>
      obtain ⟨rfl, rfl⟩ := List.cons.inj tail
      exact absurd loose (no_longer rfl balanced' balanced shielded')

theorem Operator.loose_of_product {op : Operator} (joins : op = .mul ∨ op = .div) :
    op.precedence < Category.factor.level := by
  rw [precedence_of_product joins]
  decide

theorem Operator.loose_of_sum {op : Operator} (joins : op = .add ∨ op = .sub) :
    op.precedence < Category.term.level := by
  rw [precedence_of_sum joins]
  decide

/-- The lexemes of a product are no factor, and those of a sum are no term. -/
theorem Derives.no_loose_operator {c : Category} {tree : Tree c} {ls rs : List Lexeme}
    {op : Operator} {start stop : Nat} (h : Derives (ls ++ ⟨.operator op, start, stop⟩ :: rs) tree)
    (balanced : depth ls = 0) (loose : op.precedence < c.level) : False := by
  have := h.shielded.depth_pos loose
  omega

/-- Lexemes spell at most one tree of a category. -/
theorem Derives.unique {c : Category} {ls : List Lexeme} {tree other : Tree c}
    (h : Derives ls tree) (h' : Derives ls other) : other = tree := by
  generalize same : ls = ls' at h'
  induction h generalizing ls' with
  | integer | scalar => cases h' <;> simp_all
  | element _ _ _ _ _ _ _ _ ih =>
    cases h' with
    | element _ _ _ _ _ _ _ inside =>
      have inner := ih _ (by simp_all) inside
      simp_all
    | integer | scalar | group => simp_all
  | group _ _ _ _ _ ih =>
    cases h' with
    | group _ _ _ _ inside =>
      have inner := ih _ (by simp_all) inside
      simp_all
    | integer | scalar | element => simp_all
  | ofFactor h ih =>
    cases h' with
    | ofFactor h' => rw [ih _ same h']
    | product _ _ first joins second =>
      subst same
      exact (h.no_loose_operator first.depth_eq_zero (Operator.loose_of_product joins)).elim
  | ofTerm h ih =>
    cases h' with
    | ofTerm h' => rw [ih _ same h']
    | sum _ _ first joins second =>
      subst same
      exact (h.no_loose_operator first.depth_eq_zero (Operator.loose_of_sum joins)).elim
  | product _ _ first joins second ihl ihr =>
    have loose := Operator.loose_of_product joins
    cases h' with
    | ofFactor h' =>
      subst same
      exact (h'.no_loose_operator first.depth_eq_zero loose).elim
    | product _ _ first' joins' second' =>
      obtain ⟨left, rfl, right⟩ := split_unique same first.depth_eq_zero first'.depth_eq_zero
        loose (Operator.loose_of_product joins') second.shielded second'.shielded
      rw [ihl _ left first', ihr _ right second']
  | sum _ _ first joins second ihl ihr =>
    have loose := Operator.loose_of_sum joins
    cases h' with
    | ofTerm h' =>
      subst same
      exact (h'.no_loose_operator first.depth_eq_zero loose).elim
    | sum _ _ first' joins' second' =>
      obtain ⟨left, rfl, right⟩ := split_unique same first.depth_eq_zero first'.depth_eq_zero
        loose (Operator.loose_of_sum joins') second.shielded second'.shielded
      rw [ihl _ left first', ihr _ right second']

end ArrayCalc
