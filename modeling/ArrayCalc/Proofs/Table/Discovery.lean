import ArrayCalc.Proofs.Table.Names
import ArrayCalc.Proofs.Token.Runs

/-! Discovery and the lexer cut a text alike. Discovery deletes the blanks and joins whatever no
operator or bracket parts, so it sees the tokens of the text if these are known and no two atoms
stand side by side. -/
namespace ArrayCalc

/-- The names of the identifiers among tokens, each with the kind of this use of it: a name directly
before `[` is that of an array. -/
def identifierUses : List Token → List (String × VariableKind)
  | [] => []
  | .identifier name :: rest =>
    (name, if rest.head? = some (.opening .square) then .array else .scalar) :: identifierUses rest
  | _ :: rest => identifierUses rest

/-- No two consecutive tokens are both atoms. -/
def Separated (ts : List Token) : Prop :=
  ts.IsChain fun a b => ¬ (a.isAtom = true ∧ b.isAtom = true)

section Candidates

open Discovery

variable {c : Char} {run run' : List Char} {token token' : Token}

theorem plain_of_isDelimiter (h : isDelimiter c = true) :
    c.isDigit = false ∧ c.isAlpha = false := by
  have all : ∀ c ∈ ['*', '+', '-', '/', '(', ')', '[', ']'],
      c.isDigit = false ∧ c.isAlpha = false := by simp
  exact all c (of_decide_eq_true h)

theorem isDelimiter_of_known (known : (Token.ofSymbol c).isError = false) :
    isDelimiter c = true := by
  unfold Token.ofSymbol at known
  split at known
  all_goals first | rfl | simp [Token.isError] at known

theorem not_isAtom_ofSymbol : (Token.ofSymbol c).isAtom = false := by
  unfold Token.ofSymbol
  split <;> rfl

/-- An atom holds no delimiter, and any other token is one. -/
theorem Writes.isDelimiter_eq (h : Writes run token) : ∀ c ∈ run, isDelimiter c = !token.isAtom := by
  intro c mem
  cases h with
  | integer digits solid =>
    refine Bool.eq_false_iff.mpr ?_
    intro delimiter
    have digit := digits c mem
    simp [plain_of_isDelimiter delimiter] at digit
  | identifier letters solid =>
    refine Bool.eq_false_iff.mpr ?_
    intro delimiter
    have letter := letters c mem
    simp [plain_of_isDelimiter delimiter] at letter
  | symbol known =>
    obtain rfl := List.mem_singleton.mp mem
    rw [isDelimiter_of_known known, not_isAtom_ofSymbol]
    rfl

theorem Writes.isChain_joinsCandidate (h : Writes run token) : run.IsChain (joinsCandidate · ·) := by
  cases atom : token.isAtom with
  | true =>
    refine List.Pairwise.isChain (List.pairwise_of_forall_mem_list ?_)
    intro a mem b mem'
    simp [joinsCandidate, h.isDelimiter_eq a mem, h.isDelimiter_eq b mem', atom]
  | false =>
    cases h with
    | integer | identifier => simp [Token.isAtom] at atom
    | symbol => exact List.isChain_singleton _

theorem Writes.not_joinsCandidate (h : Writes run token) (h' : Writes run' token')
    (apart : ¬ (token.isAtom = true ∧ token'.isAtom = true)) :
    ∃ solid solid', joinsCandidate (run.getLast solid) (run'.head solid') = false := by
  refine ⟨h.ne_nil, h'.ne_nil, ?_⟩
  rw [joinsCandidate, h.isDelimiter_eq _ (List.getLast_mem _),
    h'.isDelimiter_eq _ (List.head_mem _)]
  simpa using apart

theorem exists_writes_of_mem {runs : List (List Char)} {ts : List Token}
    (h : List.Forall₂ Writes runs ts) (mem : run ∈ runs) : ∃ token, Writes run token := by
  induction h with
  | nil => simp at mem
  | cons writes _ ih =>
    rcases List.mem_cons.mp mem with rfl | later
    · exact ⟨_, writes⟩
    · exact ih later

theorem isChain_not_joinsCandidate {runs : List (List Char)} {ts : List Token}
    (h : List.Forall₂ Writes runs ts) (separated : Separated ts) :
    runs.IsChain fun a b =>
      ∃ solid solid', joinsCandidate (a.getLast solid) (b.head solid') = false := by
  induction h with
  | nil => exact List.isChain_nil
  | cons writes rest ih =>
    cases rest with
    | nil => exact List.isChain_singleton _
    | cons writes' rest' =>
      obtain ⟨apart, others⟩ := List.isChain_cons_cons.mp separated
      exact List.isChain_cons_cons.mpr ⟨writes.not_joinsCandidate writes' apart, ih others⟩

/-- The candidates of separated tokens are what each of these is written with. -/
theorem splitBy_joinsCandidate {runs : List (List Char)} {ts : List Token}
    (h : List.Forall₂ Writes runs ts) (separated : Separated ts) :
    runs.flatten.splitBy joinsCandidate = runs := by
  refine List.splitBy_flatten ?_ ?_ (isChain_not_joinsCandidate h separated)
  · intro mem
    obtain ⟨token, writes⟩ := exists_writes_of_mem h mem
    exact writes.ne_nil rfl
  · intro run mem
    obtain ⟨token, writes⟩ := exists_writes_of_mem h mem
    exact writes.isChain_joinsCandidate

theorem Writes.eq_opening_iff (h : Writes run token) : run = ['['] ↔ token = .opening .square := by
  cases h with
  | integer digits solid =>
    simp only [reduceCtorEq, iff_false]
    rintro rfl
    simp at digits
  | identifier letters solid =>
    simp only [reduceCtorEq, iff_false]
    rintro rfl
    simp at letters
  | @symbol c known =>
    unfold Token.ofSymbol
    split <;> simp_all

theorem kindBefore_eq {runs : List (List Char)} {ts : List Token}
    (h : List.Forall₂ Writes runs ts) :
    kindBefore runs = if ts.head? = some (.opening .square) then .array else .scalar := by
  cases h with
  | nil => rfl
  | cons writes rest => simp [kindBefore, writes.eq_opening_iff]

theorem not_isName_of_digits (digits : ∀ c ∈ run, c.isDigit = true) : isName run = false := by
  simp [isName, List.all_eq_true.mpr digits]

theorem isName_of_letters (letters : ∀ c ∈ run, c.isAlpha = true) (solid : run ≠ []) :
    isName run = true := by
  have none : run.any isDelimiter = false := by
    refine List.any_eq_false.mpr ?_
    intro c mem
    simp [(Writes.identifier letters solid).isDelimiter_eq c mem, Token.isAtom]
  have other : run.all Char.isDigit = false := by
    obtain ⟨c, run, rfl⟩ := List.exists_cons_of_ne_nil solid
    simp [not_isDigit_of_isAlpha (letters c (by simp))]
  simp [isName, none, other]

theorem not_isName_of_isDelimiter (h : isDelimiter c = true) : isName [c] = false := by
  simp [isName, h]

theorem identifierUses_ofSymbol (ts : List Token) :
    identifierUses (Token.ofSymbol c :: ts) = identifierUses ts := by
  unfold Token.ofSymbol
  split <;> rfl

theorem uses_eq {runs : List (List Char)} {ts : List Token} (h : List.Forall₂ Writes runs ts) :
    uses runs = identifierUses ts := by
  induction h with
  | nil => rfl
  | cons writes rest ih =>
    cases writes with
    | integer digits solid => simp [uses, not_isName_of_digits digits, identifierUses, ih]
    | identifier letters solid =>
      simp [uses, isName_of_letters letters solid, identifierUses, kindBefore_eq rest, ih]
    | symbol known =>
      simp [uses, not_isName_of_isDelimiter (isDelimiter_of_known known),
        identifierUses_ofSymbol, ih]

end Candidates

/-- Discovery sees the identifiers of a text as names. -/
theorem nameUses_eq {text : String} (known : ∀ token ∈ tokens text, token.isError = false)
    (separated : Separated (tokens text)) : nameUses text = identifierUses (tokens text) := by
  obtain ⟨runs, writes, flat⟩ := exists_writes_tokens known
  rw [nameUses, ← flat, splitBy_joinsCandidate writes separated,
    uses_eq writes]

/-- The names that discovery registers as a kind are those of the identifiers that are used first
as that kind, each once and in the order of first occurrence. -/
theorem namesOf_discover {text : String} (known : ∀ token ∈ tokens text, token.isError = false)
    (separated : Separated (tokens text)) (kind : VariableKind) :
    (discover text).namesOf kind = firstNames (identifierUses (tokens text)) kind := by
  rw [discover, namesOf_foldl_register, nameUses_eq known separated]

theorem find?_eq_some_self {names : List String} {name : String} (mem : name ∈ names) :
    names.find? (fun n => decide (n = name)) = some name := by
  have found : (names.find? (fun n => decide (n = name))).isSome = true := by simpa using mem
  obtain ⟨n, eq⟩ := Option.isSome_iff_exists.mp found
  have same : n = name := by simpa using List.find?_some eq
  rw [eq, same]

/-- Discovered scalars are zero, and discovered arrays have no slots. -/
theorem scalar?_discover {text name : String} (known : name ∈ (discover text).namesOf .scalar) :
    (discover text).scalar? name = some { name } := by
  rw [discover, foldl_register] at known ⊢
  have mem : name ∈ firstNames (nameUses text) .scalar := by simpa [Table.namesOf] using known
  simp only [Table.scalar?, List.find?_map, Function.comp_def, find?_eq_some_self mem,
    Option.map_some]

theorem array?_discover {text name : String} (known : name ∈ (discover text).namesOf .array) :
    (discover text).array? name = some { name } := by
  rw [discover, foldl_register] at known ⊢
  have mem : name ∈ firstNames (nameUses text) .array := by simpa [Table.namesOf] using known
  simp only [Table.array?, List.find?_map, Function.comp_def, find?_eq_some_self mem,
    Option.map_some]

end ArrayCalc
