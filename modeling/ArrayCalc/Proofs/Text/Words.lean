import ArrayCalc.Text.Blank
import Mathlib.Data.List.TakeWhile

/-! Words that were joined by separators are the words of the joined text. Trimming a text leaves the
part of it that whitespace surrounds. -/
namespace ArrayCalc.Text

structure IsWord (separates : Char → Bool) (word : List Char) : Prop where
  solid : word ≠ []
  inside : ∀ c ∈ word, separates c = false

instance (separates : Char → Bool) (word : List Char) : Decidable (IsWord separates word) :=
  decidable_of_iff (word ≠ [] ∧ word.any separates = false)
    ⟨fun h => ⟨h.1, by simpa using h.2⟩, fun h => ⟨h.solid, by simpa using h.inside⟩⟩

variable {separates : Char → Bool} {word rest : List Char} {c : Char}

theorem words_nil : words separates [] = [] := by
  simp [words]

theorem words_separator (separator : separates c = true) :
    words separates (c :: rest) = words separates rest := by
  simp [words, List.splitOnP_cons_eq_if_modifyHead, separator]

theorem words_separators {sep : List Char} (separators : ∀ c ∈ sep, separates c = true) :
    words separates (sep ++ rest) = words separates rest := by
  induction sep with
  | nil => rfl
  | cons c sep ih =>
    obtain ⟨separator, others⟩ := List.forall_mem_cons.mp separators
    rw [List.cons_append, words_separator separator, ih others]

theorem IsWord.words_eq (h : IsWord separates word) : words separates word = [word] := by
  simp [words, List.splitOnP_eq_singleton h.inside, h.solid]

theorem IsWord.words_append (h : IsWord separates word) (separator : separates c = true) :
    words separates (word ++ c :: rest) = word :: words separates rest := by
  simp [words, List.splitOnP_append_cons_of_forall_mem h.inside c separator, h.solid]

theorem words_append_separator (before after : List Char) (separator : separates c = true) :
    words separates (before ++ c :: after) = words separates before ++ words separates after := by
  simp [words, List.splitOnP_append_cons _ _ separator]

/-- A text is a piece without separators, with the rest behind the first separator if there is one. -/
theorem induction_on_pieces {motive : List Char → Prop} (separates : Char → Bool) (text : List Char)
    (piece : ∀ piece, (∀ c ∈ piece, separates c = false) → motive piece)
    (more : ∀ piece c rest, (∀ c ∈ piece, separates c = false) → separates c = true →
      motive rest → motive (piece ++ c :: rest)) : motive text := by
  have whole := @List.takeWhile_append_dropWhile _ (fun c => !separates c) text
  have inside : ∀ c ∈ text.takeWhile fun c => !separates c, separates c = false := by
    intro c mem
    simpa using List.all_eq_true.mp List.all_takeWhile c mem
  cases rest : text.dropWhile fun c => !separates c with
  | nil =>
    rw [rest, List.append_nil] at whole
    exact whole ▸ piece _ inside
  | cons c rest' =>
    have separator : separates c = true := by
      have first := List.head?_dropWhile_not (fun c => !separates c) text
      simpa [rest] using first
    rw [rest] at whole
    have shorter : rest'.length < text.length := by
      rw [← whole]
      simp
      omega
    exact whole ▸ more _ c rest' inside separator (induction_on_pieces separates rest' piece more)
termination_by text.length

/-- More separators cut the words that fewer leave. -/
theorem words_eq_flatMap {coarse fine : Char → Bool} (finer : ∀ c, coarse c = true → fine c = true)
    (text : List Char) : words fine text = (words coarse text).flatMap (words fine) := by
  have single : ∀ piece, (∀ c ∈ piece, coarse c = false) →
      words fine piece = (words coarse piece).flatMap (words fine) := by
    intro piece inside
    by_cases solid : piece = []
    · simp [solid, words_nil]
    · simp [(IsWord.mk solid inside).words_eq]
  induction text using induction_on_pieces coarse with
  | piece piece inside => exact single piece inside
  | more piece c rest inside separator ih =>
    rw [words_append_separator _ _ (finer c separator), words_append_separator _ _ separator,
      List.flatMap_append, ← ih, single piece inside]

theorem words_congr {separates' : Char → Bool} {text : List Char}
    (same : ∀ c ∈ text, separates c = separates' c) :
    words separates text = words separates' text := by
  have pieces : text.splitOnP separates = text.splitOnP separates' := by
    induction text with
    | nil => rfl
    | cons c text ih =>
      obtain ⟨first, others⟩ := List.forall_mem_cons.mp same
      simp [List.splitOnP_cons_eq_if_modifyHead, first, ih others]
  rw [words, pieces, words]

theorem isWord_of_mem_words {text : List Char} (mem : word ∈ words separates text) :
    IsWord separates word := by
  have here : ∀ piece, (∀ c ∈ piece, separates c = false) → word ∈ words separates piece →
      IsWord separates word := by
    intro piece inside mem
    obtain ⟨rfl, solid⟩ : word = piece ∧ word ≠ [] := by
      simpa [words, List.splitOnP_eq_singleton inside] using mem
    exact ⟨solid, inside⟩
  induction text using induction_on_pieces separates with
  | piece piece inside => exact here piece inside mem
  | more piece c rest inside separator ih =>
    rw [words_append_separator _ _ separator, List.mem_append] at mem
    exact mem.elim (here piece inside) ih

def afterWord (separates : Char → Bool) (text : List Char) : List Char :=
  (text.dropWhile separates).dropWhile fun c => !separates c

/-- What follows the first word holds the other words. -/
theorem words_afterWord (text : List Char) :
    words separates (afterWord separates text) = (words separates text).tail := by
  have dropped : ∀ d piece rest, (∀ c ∈ d :: piece, separates c = false) →
      afterWord separates (d :: piece ++ rest) = rest.dropWhile fun c => !separates c := by
    intro d piece rest inside
    have others : ∀ c ∈ d :: piece, (!separates c) = true := fun c mem => by simp [inside c mem]
    rw [afterWord, List.cons_append,
      List.dropWhile_cons_of_neg (by simpa using inside d List.mem_cons_self), ← List.cons_append,
      List.dropWhile_append_of_pos others]
  induction text using induction_on_pieces separates with
  | piece piece inside =>
    cases piece with
    | nil => simp [afterWord, words_nil]
    | cons d piece =>
      have none := dropped d piece [] inside
      rw [List.append_nil, List.dropWhile_nil] at none
      rw [none, (IsWord.mk (by simp) inside).words_eq, words_nil, List.tail_cons]
  | more piece c rest inside separator ih =>
    cases piece with
    | nil =>
      rw [List.nil_append, words_separator separator, ← ih]
      simp [afterWord, separator]
    | cons d piece =>
      rw [dropped d piece _ inside, List.dropWhile_cons_of_neg (by simp [separator]),
        words_separator separator, (IsWord.mk (by simp) inside).words_append separator,
        List.tail_cons]

/-- Words with separators between them are the words of the whole. -/
theorem words_intercalate {sep : List Char} {ws : List (List Char)}
    (all : ∀ w ∈ ws, IsWord separates w) (solid : sep ≠ [])
    (separators : ∀ c ∈ sep, separates c = true) : words separates (sep.intercalate ws) = ws := by
  obtain ⟨c, cs, rfl⟩ := List.exists_cons_of_ne_nil solid
  obtain ⟨separator, others⟩ := List.forall_mem_cons.mp separators
  induction ws with
  | nil => exact words_nil
  | cons w ws ih =>
    obtain ⟨first, rest⟩ := List.forall_mem_cons.mp all
    cases ws with
    | nil => simpa using first.words_eq
    | cons w' ws =>
      rw [List.intercalate_cons_cons, List.append_assoc, List.cons_append,
        first.words_append separator, words_separators others, ih rest]

theorem notMem_intercalate {sep : List Char} {ws : List (List Char)} {d : Char} (apart : d ∉ sep)
    (all : ∀ w ∈ ws, d ∉ w) : d ∉ sep.intercalate ws := by
  induction ws with
  | nil => simp
  | cons w ws ih =>
    obtain ⟨first, others⟩ := List.forall_mem_cons.mp all
    cases ws with
    | nil => simpa using first
    | cons w' ws =>
      rw [List.intercalate_cons_cons]
      simpa [first, apart] using ih others

/-- A text, and the part of it that is left without the whitespace at its ends. -/
structure Trims (content text : List Char) : Prop where
  around : ∃ before after, content = before ++ text ++ after ∧
    (∀ c ∈ before, isWhitespace c = true) ∧ ∀ c ∈ after, isWhitespace c = true
  first : ∀ c ∈ text.head?, isWhitespace c = false
  last : ∀ c ∈ text.getLast?, isWhitespace c = false

theorem dropWhile_of_head? {text : List Char} (first : ∀ c ∈ text.head?, separates c = false) :
    text.dropWhile separates = text := by
  cases text with
  | nil => rfl
  | cons c text => simp [first c rfl]

theorem trims_trim (content : List Char) : Trims content (trim content) := by
  have front := @List.takeWhile_append_dropWhile _ isWhitespace content
  have back := @List.takeWhile_append_dropWhile _ isWhitespace
    (content.dropWhile isWhitespace).reverse
  have split : content.dropWhile isWhitespace = trim content ++
      ((content.dropWhile isWhitespace).reverse.takeWhile isWhitespace).reverse := by
    rw [trim, ← List.reverse_append, back, List.reverse_reverse]
  refine ⟨⟨content.takeWhile isWhitespace, _, by rw [List.append_assoc, ← split, front], ?_, ?_⟩,
    ?_, ?_⟩
  · exact fun c mem => List.all_eq_true.mp List.all_takeWhile c mem
  · intro c mem
    exact List.all_eq_true.mp List.all_takeWhile c (List.mem_reverse.mp mem)
  · intro c mem
    have starts := List.head?_dropWhile_not isWhitespace content
    rw [split, List.head?_append, Option.mem_def.mp mem] at starts
    simpa using starts
  · intro c mem
    have starts := List.head?_dropWhile_not isWhitespace (content.dropWhile isWhitespace).reverse
    rw [trim, List.getLast?_reverse, Option.mem_def] at mem
    simpa [mem] using starts

theorem Trims.eq_trim {content text : List Char} (h : Trims content text) :
    text = trim content := by
  obtain ⟨⟨before, after, rfl, leading, trailing⟩, first, last⟩ := h
  rw [trim, List.append_assoc, List.dropWhile_append_of_pos leading]
  cases text with
  | nil =>
    rw [List.nil_append, List.dropWhile_eq_nil_iff.mpr trailing]
    rfl
  | cons c text =>
    have reversed : ∀ c' ∈ (c :: text).reverse.head?, isWhitespace c' = false := by
      simpa only [List.head?_reverse] using last
    have kept : (c :: text ++ after).dropWhile isWhitespace = c :: text ++ after :=
      dropWhile_of_head? (by simpa using first)
    rw [kept, List.reverse_append, List.dropWhile_append_of_pos (by simpa using trailing),
      dropWhile_of_head? reversed, List.reverse_reverse]

/-- Trimming leaves the one part that whitespace surrounds but neither starts nor ends. -/
theorem trims_iff {content text : List Char} : Trims content text ↔ text = trim content :=
  ⟨Trims.eq_trim, fun eq => eq ▸ trims_trim content⟩

end ArrayCalc.Text
