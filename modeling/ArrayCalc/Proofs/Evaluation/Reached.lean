import ArrayCalc.Evaluation.Machine
import ArrayCalc.Proofs.Evaluation.Traced

/-! The states of an evaluation between the lexemes of its text. They are stated for all texts, also
for those that are refused later on: an evaluation ends at the last of these states, or refuses the
lexeme that comes after one of them. -/
namespace ArrayCalc.State

/-- A state that is reached between two lexemes of a text, with the lexemes that have been taken in
and those that are still to come. -/
inductive Reached (table : Table) (text : String) : List Lexeme → List Lexeme → State → Prop where
  | start : Reached table text [] (lexemes text) {}
  | next {done rest : List Lexeme} {l : Lexeme} {s s' : State}
      (before : Reached table text done (l :: rest) s)
      (taken : (step table l (rest.head?.map Lexeme.token) s).outcome = .ok s') :
      Reached table text (done ++ [l]) rest s'

variable {table : Table} {text : String} {done rest : List Lexeme} {s s' : State} {e : EvalError}

namespace Reached

theorem append_eq (h : Reached table text done rest s) : done ++ rest = lexemes text := by
  induction h with
  | start => rfl
  | next _ _ ih => simpa using ih

theorem of_run_ok (h : Reached table text done rest s) (runs : (run table rest s).outcome = .ok s') :
    Reached table text (lexemes text) [] s' := by
  induction rest generalizing done s with
  | nil =>
    obtain rfl : s = s' := by simpa [run] using runs
    simpa [← h.append_eq] using h
  | cons l rest ih =>
    obtain ⟨between, taken, others⟩ := Traced.outcome_bind_eq_ok_iff.mp runs
    exact ih (h.next taken) others

theorem exists_of_run_error (h : Reached table text done rest s)
    (fails : (run table rest s).outcome = .error e) :
    ∃ done l rest s, Reached table text done (l :: rest) s ∧
      (step table l (rest.head?.map Lexeme.token) s).outcome = .error e := by
  induction rest generalizing done s with
  | nil => simp [run] at fails
  | cons l rest ih =>
    rcases Traced.outcome_bind_eq_error_iff.mp fails with refused | ⟨between, taken, others⟩
    · exact ⟨done, l, rest, s, h, refused⟩
    · exact ih (h.next taken) others

end Reached

theorem exists_reached_of_ok {value : Float} (h : evaluate text table = .ok value) :
    ∃ s, Reached table text (lexemes text) [] s ∧
      (s.finish text.utf8ByteSize).outcome = .ok value := by
  obtain ⟨s, runs, ending⟩ := Traced.outcome_bind_eq_ok_iff.mp h
  exact ⟨s, Reached.start.of_run_ok runs, ending⟩

theorem exists_reached_of_error (h : evaluate text table = .error e) :
    (∃ done l rest s, Reached table text done (l :: rest) s ∧
        (step table l (rest.head?.map Lexeme.token) s).outcome = .error e) ∨
      ∃ s, Reached table text (lexemes text) [] s ∧
        (s.finish text.utf8ByteSize).outcome = .error e := by
  rcases Traced.outcome_bind_eq_error_iff.mp h with fails | ⟨s, runs, ending⟩
  · exact .inl (Reached.start.exists_of_run_error fails)
  · exact .inr ⟨s, Reached.start.of_run_ok runs, ending⟩

end ArrayCalc.State
