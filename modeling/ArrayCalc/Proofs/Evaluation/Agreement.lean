import ArrayCalc.Proofs.Evaluation.Names
import ArrayCalc.Proofs.Evaluation.TreeRuns
import ArrayCalc.Proofs.Syntax.Uses

/-! What an evaluation reads of its table. An array name may wait long before its element is read,
but each name that waits was taken from the text. So tables that agree on the names of a text
evaluate it alike, also where it is malformed: to the same value or the same fault, with the same
trace. -/
namespace ArrayCalc

variable {t t' : Table}

namespace State

variable {l : Lexeme} {ls : List Lexeme} {s s' : State} {position : Nat}

/-- A lexeme lets no name wait but its own. -/
theorem Takes.awaited_subset (h : Takes t l (ls.head?.map Lexeme.token) s s') :
    s'.awaited ++ identifierUses (ls.map Lexeme.token) ⊆
      s.awaited ++ identifierUses ((l :: ls).map Lexeme.token) := by
  cases h with
  | integer token | operator token | openingParen token | openingSquare token =>
    simp [awaited, identifierUses, token]
  | closingParen token => simp [awaited, identifierUses, token]
  | scalar token follows => simp [awaited, identifierUses, token, follows]
  | arrayName token follows => simp [awaited, identifierUses, token, follows]
  | closingSquare token _ waiting => simp [awaited, identifierUses, token, waiting]

theorem resolveSubscript_eq_of_agrees
    (agree : ∀ use ∈ s.awaited, t.valuation.Agrees t'.valuation use) :
    resolveSubscript t position s = resolveSubscript t' position s := by
  unfold resolveSubscript
  split
  · rfl
  · rfl
  · rename_i name _ _ _ waiting
    have same := agree (name, .array) (by simp [awaited, waiting])
    simp only [Operand.element_eq, same.readElement_eq]

theorem step_eq_of_agrees
    (agree : ∀ use ∈ s.awaited ++ identifierUses ((l :: ls).map Lexeme.token),
      t.valuation.Agrees t'.valuation use) :
    step t l (ls.head?.map Lexeme.token) s = step t' l (ls.head?.map Lexeme.token) s := by
  cases token : l.token with
  | identifier name =>
    by_cases follows : ls.head?.map Lexeme.token = some (.opening .square)
    · simp only [step, token, follows, if_true]
    · have same := agree (name, .scalar) (by simp [identifierUses, token, follows])
      simp only [step, token, follows, if_false, Operand.scalar_eq, same.readScalar_eq]
  | closing bracket =>
    cases bracket with
    | paren => simp only [step, token]
    | square =>
      simp only [step, token]
      refine Traced.bind_congr ?_
      intro closed _
      exact resolveSubscript_eq_of_agrees (List.forall_mem_append.mp agree).1
  | opening bracket => cases bracket <;> simp only [step, token]
  | integer | operator | oversized | foreign => simp only [step, token]

theorem run_eq_of_agrees
    (agree : ∀ use ∈ s.awaited ++ identifierUses (ls.map Lexeme.token),
      t.valuation.Agrees t'.valuation use) :
    run t ls s = run t' ls s := by
  induction ls generalizing s with
  | nil => rfl
  | cons l rest ih =>
    simp only [run, ← step_eq_of_agrees agree]
    refine Traced.bind_congr ?_
    intro between taken
    refine ih ?_
    intro use mem
    exact agree use ((takes_of_step taken).awaited_subset mem)

end State

variable {text : String}

theorem evaluateTraced_eq_of_agrees
    (agree : ∀ use ∈ identifierUses (tokens text), t.valuation.Agrees t'.valuation use) :
    evaluateTraced text t = evaluateTraced text t' := by
  have same : State.run t (lexemes text) {} = State.run t' (lexemes text) {} :=
    State.run_eq_of_agrees (by simpa [State.awaited, tokens] using agree)
  rw [evaluateTraced, evaluateTraced, same]

/-- An evaluation reads only what its text names: its value or its fault is the same over any two
tables that give each name of the text the same meaning, as a scalar or as an array according to its
use. -/
theorem evaluate_eq_of_agrees
    (agree : ∀ use ∈ identifierUses (tokens text), t.valuation.Agrees t'.valuation use) :
    evaluate text t = evaluate text t' := by
  rw [evaluate, evaluate, evaluateTraced_eq_of_agrees agree]

theorem evaluate_eq_of_agrees_malformed :
    evaluate "A[x]+B[2])" ⟨[⟨"x", 1⟩, ⟨"y", 9⟩], [⟨"A", #[4, 5]⟩, ⟨"B", #[7]⟩]⟩ =
        .error (.indexOutOfRange "B" 2 1 8) ∧
      evaluate "A[x]+B[2])" ⟨[⟨"B", 3⟩, ⟨"x", 1⟩], [⟨"B", #[7]⟩, ⟨"x", #[]⟩, ⟨"A", #[4, 5]⟩]⟩ =
        .error (.indexOutOfRange "B" 2 1 8) := by
  have fault : evaluate "A[x]+B[2])" ⟨[⟨"x", 1⟩, ⟨"y", 9⟩], [⟨"A", #[4, 5]⟩, ⟨"B", #[7]⟩]⟩ =
      .error (.indexOutOfRange "B" 2 1 8) := by decide +kernel
  have uses : identifierUses (tokens "A[x]+B[2])") =
      [("A", .array), ("x", .scalar), ("B", .array)] := by decide
  refine ⟨fault, ?_⟩
  rw [← fault]
  refine evaluate_eq_of_agrees ?_
  intro use mem
  rw [uses] at mem
  simp only [List.mem_cons, List.not_mem_nil, or_false] at mem
  rcases mem with rfl | rfl | rfl <;> rfl

end ArrayCalc
