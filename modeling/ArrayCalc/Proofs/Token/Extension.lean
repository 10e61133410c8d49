import ArrayCalc.Proofs.Token.Spans

/-! A text with more characters after it. Its lexemes but the last stay as they are. The last may
grow, but it stays what it is as far as a look at the next token tells: an opening square bracket or
not. -/
namespace ArrayCalc

section Splitting

variable {r : Char → Char → Bool} {text run : List Char} {before after : List (List Char)}

/-- More characters after a text leave the runs before its last one as they are. -/
theorem splitBy_append_of_split (split : text.splitBy r = before ++ run :: after)
    (suffix : List Char) :
    (text ++ suffix).splitBy r = before ++ (run ++ (after.flatten ++ suffix)).splitBy r := by
  obtain ⟨left, -⟩ := parted_of_splitBy split
  obtain ⟨rfl, solid, chains, apart⟩ := List.splitBy_eq_iff.mp split
  simp only [List.mem_append, List.mem_cons, not_or] at solid
  have runs : before.flatten.splitBy r = before :=
    List.splitBy_flatten solid.1 (fun run mem => chains run (List.mem_append_left _ mem))
      (List.isChain_append.mp apart).1
  have parted : ∀ a ∈ before.flatten.getLast?, ∀ b ∈ (run ++ (after.flatten ++ suffix)).head?,
      r a b = false := by
    rwa [List.head?_append_of_ne_nil run (Ne.symm solid.2.1)]
  have joined := List.splitBy_append parted
  rw [runs] at joined
  simpa using joined

end Splitting

variable {start : Nat} {c : Char} {chars : List Char}

theorem Token.ofSymbol_eq_opening_iff : Token.ofSymbol c = .opening .square ↔ c = '[' := by
  unfold ofSymbol
  split <;> simp_all

theorem Token.ofRun?_cons (run : List Char) (visible : Text.isBlank c = false) :
    ∃ token, ofRun? (c :: run) = some token ∧ (token = .opening .square ↔ c = '[') := by
  by_cases digit : c.isDigit = true
  · have other : c ≠ '[' := by rintro rfl; contradiction
    refine ⟨ofDigits (c :: run), by simp [ofRun?, visible, digit], ?_⟩
    simp only [ofDigits, other, iff_false]
    split <;> simp
  by_cases letter : c.isAlpha = true
  · have other : c ≠ '[' := by rintro rfl; contradiction
    exact ⟨.identifier (String.ofList (c :: run)), by simp [ofRun?, visible, digit, letter],
      by simp [other]⟩
  · exact ⟨ofSymbol c, by simp [ofRun?, visible, digit, letter], ofSymbol_eq_opening_iff⟩

/-- The first character tells whether a text begins with an opening square bracket. -/
theorem exists_lexemesFrom_cons (visible : Text.isBlank c = false) :
    ∃ l later, lexemesFrom start ((c :: chars).splitBy joinsRun) = l :: later ∧
      (l.token = .opening .square ↔ c = '[') := by
  have first := List.head_head_splitBy joinsRun (List.cons_ne_nil c chars)
  have solid := List.nil_notMem_splitBy joinsRun (c :: chars)
  cases runs : (c :: chars).splitBy joinsRun with
  | nil => simp at runs
  | cons run runs' =>
    simp only [runs, List.head_cons] at first solid
    have ne : run ≠ [] := fun empty => solid (by simp [empty])
    obtain ⟨d, run, rfl⟩ := List.exists_cons_of_ne_nil ne
    obtain rfl : d = c := first
    obtain ⟨token, read, opening⟩ := Token.ofRun?_cons run visible
    exact ⟨⟨token, start, _⟩, _, by simp only [lexemesFrom, read]; rfl, opening⟩

/-- Lexemes part where the runs do from which they are read. -/
theorem exists_split_of_lexemesFrom {runs : List (List Char)} {earlier later : List Lexeme}
    {l : Lexeme} (h : lexemesFrom start runs = earlier ++ l :: later) :
    ∃ before run after, runs = before ++ run :: after ∧ lexemesFrom start before = earlier ∧
      Token.ofRun? run = some l.token := by
  induction runs generalizing start earlier with
  | nil => simp [lexemesFrom] at h
  | cons first runs ih =>
    simp only [lexemesFrom] at h
    split at h
    · rename_i token read
      cases earlier with
      | nil =>
        obtain ⟨rfl, -⟩ := List.cons.inj h
        exact ⟨[], first, runs, rfl, rfl, read⟩
      | cons _ earlier =>
        obtain ⟨rfl, rest⟩ := List.cons.inj h
        obtain ⟨before, run, after, rfl, rfl, token⟩ := ih rest
        exact ⟨first :: before, run, after, rfl, by simp only [lexemesFrom, read], token⟩
    · rename_i unread
      obtain ⟨before, run, after, rfl, rfl, token⟩ := ih h
      exact ⟨first :: before, run, after, rfl, by simp only [lexemesFrom, unread], token⟩

/-- More characters after a text leave its lexemes but the last as they are, and do not make this
one an opening square bracket or something else. -/
theorem exists_lexemes_append {text : String} {earlier : List Lexeme} {last : Lexeme}
    (h : lexemes text = earlier ++ [last]) (suffix : String) :
    ∃ l later, lexemes (text ++ suffix) = earlier ++ l :: later ∧
      (l.token = .opening .square ↔ last.token = .opening .square) := by
  obtain ⟨before, run, after, split, rfl, token⟩ := exists_split_of_lexemesFrom h
  cases run with
  | nil => simp [Token.ofRun?] at token
  | cons c run =>
    have visible : Text.isBlank c = false := by
      by_contra blank
      simp [Token.ofRun?, blank] at token
    obtain ⟨_, read, opening⟩ := Token.ofRun?_cons run visible
    obtain rfl := Option.some.inj (read.symm.trans token)
    obtain ⟨l, later, rest, opening'⟩ := @exists_lexemesFrom_cons
      (0 + Text.byteLength before.flatten) c (run ++ (after.flatten ++ suffix.toList)) visible
    refine ⟨l, later, ?_, opening'.trans opening.symm⟩
    rw [lexemes, String.toList_append, splitBy_append_of_split split, lexemesFrom_append]
    exact congrArg (_ ++ ·) rest

end ArrayCalc
