import ArrayCalc.Proofs.Token.Spans
import ArrayCalc.Table.Discovery

/-! A text without its blanks. Where no blanks part two digits or two letters, it has the lexemes of
the text itself, each moved forward by the blanks before it. -/
namespace ArrayCalc

open Text

namespace Text

def visible (text : List Char) : List Char := text.filter fun c => !isBlank c

def withoutBlanks (text : String) : String := String.ofList (visible text.toList)

/-- Where a byte position of a text lies once the blanks are deleted: before it by as many bytes as
the blanks before it have. -/
def positionWithoutBlanks (text : String) (position : Nat) : Nat :=
  position - ((byteOwners text.toList).take position).countP isBlank

/-- No blanks stand between two digits or between two letters. -/
def Unbroken (text : List Char) : Prop :=
  ∀ before a blanks b after, text = before ++ a :: blanks ++ b :: after → blanks ≠ [] →
    (∀ c ∈ blanks, isBlank c = true) → joinsRun a b = false

theorem unbroken_nil : Unbroken [] := by
  intro before a blanks b after whole
  simp at whole

theorem joinsRun_of_isBlank {b : Char} (blank : isBlank b = true) (a : Char) :
    joinsRun a b = false := by
  have digit : b.isDigit = false := by
    by_contra digit
    simp [not_isBlank_of_isDigit (Bool.not_eq_false _ ▸ digit)] at blank
  have letter : b.isAlpha = false := by
    by_contra letter
    simp [not_isBlank_of_isAlpha (Bool.not_eq_false _ ▸ letter)] at blank
  simp [joinsRun, digit, letter]

theorem unbroken_cons_iff {c : Char} {text : List Char} : Unbroken (c :: text) ↔
    (text.takeWhile isBlank = [] ∨ (text.dropWhile isBlank).head?.any (joinsRun c) = false) ∧
      Unbroken text := by
  constructor
  · intro unbroken
    constructor
    · by_cases parted : text.takeWhile isBlank = []
      · exact .inl parted
      · have whole := @List.takeWhile_append_dropWhile _ isBlank text
        refine .inr ?_
        cases rest : text.dropWhile isBlank with
        | nil => rfl
        | cons d after =>
          rw [rest] at whole
          exact unbroken [] c _ d after (by simp [whole]) parted
            (List.all_eq_true.mp List.all_takeWhile)
    · intro before a blanks b after whole
      exact unbroken (c :: before) a blanks b after (by simp [whole])
  · rintro ⟨first, others⟩ before a blanks b after whole parted blank
    cases before with
    | cons d before => exact others before a blanks b after (List.cons.inj whole).2 parted blank
    | nil =>
      obtain ⟨rfl, rfl⟩ : c = a ∧ text = blanks ++ b :: after := by simpa using whole
      cases last : isBlank b with
      | true => exact joinsRun_of_isBlank last c
      | false =>
        rcases first with none | joins
        · rw [List.takeWhile_append_of_pos blank] at none
          exact absurd (List.append_eq_nil_iff.mp none).1 parted
        · rw [List.dropWhile_append_of_pos blank] at joins
          simpa [last] using joins

instance decidableUnbroken : DecidablePred Unbroken
  | [] => .isTrue unbroken_nil
  | _ :: text => have := decidableUnbroken text; decidable_of_iff' _ unbroken_cons_iff

theorem visible_append (before after : List Char) :
    visible (before ++ after) = visible before ++ visible after :=
  List.filter_append _ _

theorem toList_withoutBlanks (text : String) :
    (withoutBlanks text).toList = visible text.toList :=
  String.toList_ofList

theorem countP_byteOwners (text : List Char) :
    byteLength (visible text) + (byteOwners text).countP isBlank = byteLength text := by
  induction text with
  | nil => rfl
  | cons c text ih =>
    simp only [byteLength, byteOwners, visible, List.flatMap_cons, List.countP_append,
      List.countP_replicate, List.filter_cons, List.foldr_cons] at ih ⊢
    cases blank : isBlank c
    all_goals
      simp only [Bool.not_false, Bool.not_true, if_true, Bool.false_eq_true, if_false,
        List.foldr_cons]
      omega

theorem take_byteOwners (before after : List Char) :
    (byteOwners (before ++ after)).take (byteLength before) = byteOwners before := by
  rw [byteOwners_append, ← length_byteOwners, List.take_left]

/-- Deleting the blanks moves the end of some characters to the end of those that are not blank. -/
theorem positionWithoutBlanks_byteLength {text : String} {before after : List Char}
    (h : text.toList = before ++ after) :
    positionWithoutBlanks text (byteLength before) = byteLength (visible before) := by
  have parts := countP_byteOwners before
  rw [positionWithoutBlanks, h, take_byteOwners]
  omega

theorem positionWithoutBlanks_end (text : String) :
    positionWithoutBlanks text text.utf8ByteSize = (withoutBlanks text).utf8ByteSize := by
  rw [← byteLength_toList, ← byteLength_toList, toList_withoutBlanks]
  exact positionWithoutBlanks_byteLength (List.append_nil _).symm

end Text

def Lexeme.move (f : Nat → Nat) (l : Lexeme) : Lexeme := ⟨l.token, f l.start, f l.stop⟩

section Runs

variable {run : List Char} {runs : List (List Char)}

def isReadRun (run : List Char) : Bool := (Token.ofRun? run).isSome

theorem visible_of_isReadRun (solid : run ≠ []) (chain : run.IsChain (joinsRun · ·))
    (read : isReadRun run = true) : visible run = run := by
  obtain ⟨token, some⟩ := Option.isSome_iff_exists.mp read
  have reads := reads_ofRun? solid chain
  rw [some] at reads
  exact List.filter_eq_self.mpr fun c mem => by simp [reads.not_isBlank c mem]

theorem isBlank_of_not_isReadRun (solid : run ≠ []) (chain : run.IsChain (joinsRun · ·))
    (unread : isReadRun run = false) : ∀ c ∈ run, isBlank c = true := by
  have reads := reads_ofRun? solid chain
  rw [Option.isSome_eq_false_iff.mp unread |> Option.isNone_iff_eq_none.mp] at reads
  cases reads with
  | blank blank => simpa using blank

theorem flatten_filter_isReadRun (solid : [] ∉ runs)
    (chains : ∀ run ∈ runs, run.IsChain (joinsRun · ·)) :
    (runs.filter isReadRun).flatten = visible runs.flatten := by
  induction runs with
  | nil => rfl
  | cons run runs ih =>
    simp only [List.mem_cons, not_or] at solid
    obtain ⟨chain, chains⟩ := List.forall_mem_cons.mp chains
    rw [List.flatten_cons, visible_append, ← ih solid.2 chains, List.filter_cons]
    cases read : isReadRun run with
    | true => simp [visible_of_isReadRun (Ne.symm solid.1) chain read]
    | false =>
      have blank := isBlank_of_not_isReadRun (Ne.symm solid.1) chain read
      have none : visible run = [] := List.filter_eq_nil_iff.mpr (by simpa using blank)
      simp [none]

/-- Two runs of an unbroken text with blank ones between them do not join. -/
theorem not_joinsRun_of_blanks {first last : List Char} (earlier blanks later : List (List Char))
    (unbroken : Unbroken (earlier ++ first :: blanks ++ last :: later).flatten)
    (solid : first ≠ []) (solid' : last ≠ []) (parted : blanks.flatten ≠ [])
    (blank : ∀ run ∈ blanks, ∀ c ∈ run, isBlank c = true) :
    joinsRun (first.getLast solid) (last.head solid') = false := by
  obtain ⟨start, a, rfl⟩ := (List.eq_nil_or_concat first).resolve_left solid
  obtain ⟨b, rest, rfl⟩ := List.exists_cons_of_ne_nil solid'
  simp only [List.concat_eq_append] at unbroken solid ⊢
  rw [List.getLast_append_singleton, List.head_cons]
  refine unbroken (earlier.flatten ++ start) a blanks.flatten b (rest ++ later.flatten) ?_ parted ?_
  · simp
  · intro c mem
    obtain ⟨run, mem, inRun⟩ := List.mem_flatten.mp mem
    exact blank run mem c inRun

/-- The runs of an unbroken text without its blanks are those of the text that are not blank. -/
theorem splitBy_visible {text : List Char} (unbroken : Unbroken text) :
    (visible text).splitBy joinsRun = (text.splitBy joinsRun).filter isReadRun := by
  have solid := List.nil_notMem_splitBy joinsRun text
  have chains : ∀ run ∈ text.splitBy joinsRun, run.IsChain (joinsRun · ·) :=
    fun run => List.isChain_of_mem_splitBy
  have apart := List.isChain_getLast_head_splitBy joinsRun text
  have whole := List.flatten_splitBy joinsRun text
  generalize text.splitBy joinsRun = runs at solid chains apart whole
  subst whole
  rw [← flatten_filter_isReadRun solid chains]
  refine List.splitBy_flatten (fun mem => solid (List.mem_of_mem_filter mem))
    (fun run mem => chains run (List.mem_of_mem_filter mem)) ?_
  -- two neighbours among the runs that are read have only blank runs between them
  refine List.isChain_iff_forall_rel_of_append_cons_cons.mpr ?_
  intro first last earlier later split
  obtain ⟨runs, after, rfl, -, rest⟩ := List.filter_eq_append_iff.mp split
  obtain ⟨skipped, after, rfl, -, -, rest⟩ := List.filter_eq_cons_iff.mp rest
  obtain ⟨blanks, after, rfl, unread, -, -⟩ := List.filter_eq_cons_iff.mp rest
  cases blanks with
  | nil =>
    rw [List.nil_append, ← List.append_assoc] at apart
    exact (List.isChain_append_cons_cons.mp apart).2.1
  | cons run blanks =>
    have ne : ∀ run' ∈ runs ++ (skipped ++ first :: (run :: blanks ++ last :: after)), run' ≠ [] :=
      fun run' mem empty => solid (empty ▸ mem)
    refine ⟨ne first (by simp), ne last (by simp), ?_⟩
    refine not_joinsRun_of_blanks (runs ++ skipped) (run :: blanks) after (by simpa using unbroken)
      _ _ ?_ ?_
    · simp [ne run (by simp)]
    · intro run' mem
      have among : run' ∈ runs ++ (skipped ++ first :: (run :: blanks ++ last :: after)) := by
        simp only [List.mem_append, List.mem_cons] at mem ⊢
        tauto
      exact isBlank_of_not_isReadRun (ne run' among) (chains run' among)
        (by simpa using unread run' mem)

/-- Lexing the runs that are read moves their lexemes as deleting the blanks does. -/
theorem lexemesFrom_filter_isReadRun {text : String} (before : List Char)
    (whole : text.toList = before ++ runs.flatten) (solid : [] ∉ runs)
    (chains : ∀ run ∈ runs, run.IsChain (joinsRun · ·)) :
    lexemesFrom (byteLength (visible before)) (runs.filter isReadRun) =
      (lexemesFrom (byteLength before) runs).map (Lexeme.move (positionWithoutBlanks text)) := by
  induction runs generalizing before with
  | nil => rfl
  | cons run runs ih =>
    simp only [List.mem_cons, not_or] at solid
    obtain ⟨chain, chains⟩ := List.forall_mem_cons.mp chains
    rw [List.flatten_cons, ← List.append_assoc] at whole
    have rest := ih (before ++ run) whole solid.2 chains
    rw [byteLength_append, visible_append, byteLength_append] at rest
    have starts := positionWithoutBlanks_byteLength ((List.append_assoc ..) ▸ whole)
    have stops := positionWithoutBlanks_byteLength whole
    rw [byteLength_append, visible_append, byteLength_append] at stops
    cases read : Token.ofRun? run with
    | some token =>
      have isRead : isReadRun run = true := by simp [isReadRun, read]
      rw [visible_of_isReadRun (Ne.symm solid.1) chain isRead] at rest stops
      simp [isRead, lexemesFrom, read, rest, Lexeme.move, starts, stops]
    | none =>
      have unread : isReadRun run = false := by simp [isReadRun, read]
      have blank := isBlank_of_not_isReadRun (Ne.symm solid.1) chain unread
      have empty : visible run = [] := List.filter_eq_nil_iff.mpr (by simpa using blank)
      rw [empty] at rest
      simpa [List.filter_cons, unread, lexemesFrom, read, byteLength] using rest

end Runs

/-- The lexemes of an unbroken text stay the same without its blanks, moved forward. -/
theorem lexemes_withoutBlanks {text : String} (unbroken : Unbroken text.toList) :
    lexemes (withoutBlanks text) =
      (lexemes text).map (Lexeme.move (positionWithoutBlanks text)) := by
  rw [lexemes, toList_withoutBlanks, splitBy_visible unbroken]
  exact lexemesFrom_filter_isReadRun [] (List.flatten_splitBy joinsRun text.toList).symm
    (List.nil_notMem_splitBy joinsRun text.toList) (fun run => List.isChain_of_mem_splitBy)

/-- Discovery does not see blanks. -/
theorem discover_withoutBlanks (text : String) : discover (withoutBlanks text) = discover text := by
  have again : visible (visible text.toList) = visible text.toList := by
    simp [visible, List.filter_filter]
  have uses : nameUses (withoutBlanks text) = nameUses text := by
    rw [nameUses, toList_withoutBlanks]
    exact congrArg (fun chars => Discovery.uses (chars.splitBy Discovery.joinsCandidate)) again
  rw [discover, uses]
  rfl

end ArrayCalc
