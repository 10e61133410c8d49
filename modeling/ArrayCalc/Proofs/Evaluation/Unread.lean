import ArrayCalc.Evaluation.Machine
import ArrayCalc.Proofs.Evaluation.Traced
import ArrayCalc.Proofs.Token.Extension

/-! What is not read yet when a lexeme is refused. Where this is at least one lexeme, the fault does
not depend on what follows the text: of the next lexeme only whether it opens a subscript is looked
at, and more characters cannot change that. -/
namespace ArrayCalc

namespace State

variable {table : Table} {ls earlier : List Lexeme} {l last : Lexeme} {s : State}
  {following following' : Option Token}

/-- The lexemes after the one that is refused, none if all are taken in. -/
def unread (table : Table) : List Lexeme → State → List Lexeme
  | [], _ => []
  | l :: rest, s =>
    match (step table l (rest.head?.map Lexeme.token) s).outcome with
    | .ok s => unread table rest s
    | .error _ => rest

/-- A step looks at the next token only to see whether it opens a subscript. -/
theorem step_congr
    (same : following = some (.opening .square) ↔ following' = some (.opening .square)) :
    step table l following s = step table l following' s := by
  cases token : l.token with
  | identifier name => simp only [step, token, same]
  | opening bracket | closing bracket => cases bracket <;> simp only [step, token]
  | integer | operator | oversized | foreign => simp only [step, token]

theorem exists_error_of_unread (h : unread table ls s ≠ []) :
    ∃ e, (run table ls s).outcome = .error e := by
  induction ls generalizing s with
  | nil => contradiction
  | cons l rest ih =>
    simp only [unread] at h
    cases step : (step table l (rest.head?.map Lexeme.token) s).outcome with
    | error e => exact ⟨e, Traced.outcome_bind_eq_error_iff.mpr (.inl step)⟩
    | ok between =>
      rw [step] at h
      obtain ⟨e, others⟩ := ih h
      exact ⟨e, Traced.outcome_bind_eq_error_iff.mpr (.inr ⟨between, step, others⟩)⟩

/-- Lexemes of which one before the last is refused run alike with others in place of the last. -/
theorem run_append_of_unread (h : unread table (earlier ++ [last]) s ≠ [])
    (same : l.token = .opening .square ↔ last.token = .opening .square) (later : List Lexeme) :
    run table (earlier ++ l :: later) s = run table (earlier ++ [last]) s := by
  induction earlier generalizing s with
  | nil =>
    simp only [List.nil_append, unread] at h
    split at h <;> contradiction
  | cons first earlier ih =>
    have next : step table first ((earlier ++ l :: later).head?.map Lexeme.token) s =
        step table first ((earlier ++ [last]).head?.map Lexeme.token) s := by
      refine step_congr ?_
      cases earlier with
      | nil => simpa using same
      | cons second earlier => rfl
    simp only [List.cons_append, run, next]
    refine Traced.bind_congr ?_
    intro between step
    simp only [List.cons_append, unread, step] at h
    exact ih h

end State

theorem evaluateTraced_append_of_unread {text : String} {table : Table}
    (unread : State.unread table (lexemes text) {} ≠ []) (suffix : String) :
    evaluateTraced (text ++ suffix) table = evaluateTraced text table := by
  obtain ⟨e, fails⟩ := State.exists_error_of_unread unread
  cases read : lexemes text using List.reverseRecOn with
  | nil => simp [read, State.unread] at unread
  | append_singleton earlier last =>
    rw [read] at unread
    obtain ⟨l, later, extended, same⟩ := exists_lexemes_append read suffix
    have runs := State.run_append_of_unread unread same later
    rw [evaluateTraced, extended, runs, ← read, Traced.bind_of_error fails, evaluateTraced,
      Traced.bind_of_error fails]

/-- A text that is refused at a lexeme other than its last is refused with the same error whatever
characters follow it. The last one is another matter: more characters can make it a longer name, or
the name of an array. -/
theorem evaluate_append_of_unread {text : String} {table : Table} {e : EvalError}
    (failed : evaluate text table = .error e)
    (unread : State.unread table (lexemes text) {} ≠ []) (suffix : String) :
    evaluate (text ++ suffix) table = .error e := by
  rw [evaluate, evaluateTraced_append_of_unread unread suffix]
  exact failed

theorem evaluate_append_of_unread_name :
    evaluate "1+i A" {} = .error (.unknownVariable "i" .scalar 2) ∧
      State.unread {} (lexemes "1+i A") {} = [⟨.identifier "A", 4, 5⟩] ∧
      evaluate ("1+i A" ++ "x[0]") {} = .error (.unknownVariable "i" .scalar 2) := by
  have failed : evaluate "1+i A" {} = .error (.unknownVariable "i" .scalar 2) := by
    decide +kernel
  have unread : State.unread {} (lexemes "1+i A") {} = [⟨.identifier "A", 4, 5⟩] := by
    decide +kernel
  refine ⟨failed, unread, ?_⟩
  exact evaluate_append_of_unread failed (by simp [unread]) "x[0]"

end ArrayCalc
