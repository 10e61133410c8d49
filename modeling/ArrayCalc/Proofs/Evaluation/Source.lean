import ArrayCalc.Proofs.Evaluation.TreeRuns
import ArrayCalc.Proofs.Load.Environment
import ArrayCalc.Proofs.Syntax.Uses
import ArrayCalc.Session

/-! Evaluation over a value source. Discovery, the loading of records and the lexer work on texts of
their own; that they agree on names, kinds and slots makes the value of a text over a source that
renders an environment the value of its tree in that environment. -/
namespace ArrayCalc

variable {text : String} {tree : Tree .expression}

namespace Derives

theorem isError_tokens (h : Derives (lexemes text) tree) :
    ∀ token ∈ tokens text, token.isError = false := by
  simpa [tokens] using h.isError_eq_false

theorem separated (h : Derives (lexemes text) tree) : Separated (tokens text) :=
  separated_of_alternates (derivable_iff.mp ⟨tree, h⟩).2.2.2

theorem identifierUses_tokens (h : Derives (lexemes text) tree) :
    identifierUses (tokens text) = tree.uses := by
  simpa [tokens, identifierUses] using h.identifierUses_append [] (by simp)

/-- What the variables of a derivable text hold after the lines of an environment. -/
theorem agrees (h : Derives (lexemes text) tree)
    (pure : ∀ name, ¬ Mixed (identifierUses (tokens text)) name) {env : Environment}
    {names : List String} {lines : List SourceLine} (renders : Renders env names lines) :
    ∀ use ∈ tree.uses,
      (lines.foldl SourceLine.update (discover text)).valuation.Agrees env.valuation use := by
  rintro ⟨name, kind⟩ mem
  rw [← h.identifierUses_tokens] at mem
  have known : name ∈ (discover text).namesOf kind := by
    rw [namesOf_discover h.isError_tokens h.separated]
    exact mem_firstNames_of_mem pure mem
  cases kind with
  | scalar =>
    refine renders.valuation_scalar ?_
    rw [Table.scalarValue?, scalar?_discover known]
    rfl
  | array =>
    refine renders.valuation_array ?_
    simp only [Table.valuation, array?_discover known, Option.map_some]

end Derives

/-- The value of a derivable text over a source that renders an environment is the value of its tree
in that environment. -/
theorem evaluateSource_eq_value (h : Derives (lexemes text) tree)
    (pure : ∀ name, ¬ Mixed (identifierUses (tokens text)) name) {env : Environment}
    {lines : List SourceLine}
    (renders : Renders env ((identifierUses (tokens text)).map Prod.fst) lines) :
    evaluateSource text (sourceOf lines) =
      (tree.value env.valuation false).outcome.mapError Failure.evaluation := by
  have known : ∀ kind, ∀ name ∈ (discover text).namesOf kind,
      name ∈ (identifierUses (tokens text)).map Prod.fst := by
    intro kind name mem
    rw [namesOf_discover h.isError_tokens h.separated, mem_firstNames] at mem
    exact List.mem_map_of_mem (mem_of_lookup mem)
  obtain ⟨table, fault⟩ := loadText_eq renders.proper known
  have value : evaluate text (lines.foldl SourceLine.update (discover text)) =
      (tree.value env.valuation false).outcome := by
    rw [evaluate, evaluateTraced_eq_value h, tree.value_congr (h.agrees pure renders)]
  simp only [evaluateSource, fault, table, value]
  cases (tree.value env.valuation false).outcome <;> rfl

theorem evaluateSource_eq_value_subscript :
    ∃ (tree : Tree .expression) (env : Environment) (lines : List SourceLine),
      Derives (lexemes "A[i]+x") tree ∧
        (∀ name, ¬ Mixed (identifierUses (tokens "A[i]+x")) name) ∧
        Renders env ((identifierUses (tokens "A[i]+x")).map Prod.fst) lines ∧
        sourceOf lines = "\nA 2 (1,5)\nx -3\nz: any text\ni 1" ∧
        evaluateSource "A[i]+x" "\nA 2 (1,5)\nx -3\nz: any text\ni 1" = .ok 2 := by
  have read : lexemes "A[i]+x" =
      [⟨.identifier "A", 0, 1⟩, ⟨.opening .square, 1, 2⟩, ⟨.identifier "i", 2, 3⟩,
        ⟨.closing .square, 3, 4⟩, ⟨.operator .add, 4, 5⟩, ⟨.identifier "x", 5, 6⟩] := by decide
  have inside := Derives.ofTerm (.ofFactor (.scalar "i" 2 3))
  have element := Derives.element "A" 0 1 1 2 3 4 inside
  have whole := Derives.sum 4 5 (.ofTerm (.ofFactor element)) (.inl rfl)
    (.ofFactor (.scalar "x" 5 6))
  simp only [List.cons_append, List.nil_append] at whole
  rw [← read] at whole
  have uses : identifierUses (tokens "A[i]+x") =
      [("A", .array), ("i", .scalar), ("x", .scalar)] := by decide
  have unmixed : ∀ name, ¬ Mixed (identifierUses (tokens "A[i]+x")) name := by
    rintro name ⟨scalar, array⟩
    rw [uses] at scalar array
    simp only [List.mem_cons, Prod.mk.injEq, reduceCtorEq, and_false, false_or, and_true,
      List.not_mem_nil, or_false] at scalar array
    rcases scalar with rfl | rfl <;> contradiction
  let env : Environment :=
    { scalars := [("i", 1), ("x", -3)]
      arrays := [("A", [0, 5])]
      scalars_nodup := by decide
      arrays_nodup := by decide
      scalars_fit := by decide
      arrays_fit := by decide }
  let lines : List SourceLine :=
    [.other "", .array "A" [0, 5] [1], .scalar "x" (-3), .other "z: any text", .scalar "i" 1]
  have renders : Renders env ((identifierUses (tokens "A[i]+x")).map Prod.fst) lines :=
    { scalars := by decide
      arrays := by decide
      listed := by
        intro name slots listed mem
        simp only [lines, List.mem_cons, reduceCtorEq, SourceLine.array.injEq, List.not_mem_nil,
          or_false, false_or] at mem
        obtain ⟨rfl, rfl, rfl⟩ := mem
        decide
      others := by
        intro text mem
        simp only [lines, List.mem_cons, reduceCtorEq, SourceLine.other.injEq, List.not_mem_nil,
          or_false, false_or] at mem
        rw [uses]
        rcases mem with rfl | rfl <;> decide }
  have source : sourceOf lines = "\nA 2 (1,5)\nx -3\nz: any text\ni 1" := by decide
  refine ⟨_, env, lines, whole, unmixed, renders, source, ?_⟩
  rw [← source, evaluateSource_eq_value whole unmixed renders]
  decide +kernel

end ArrayCalc
