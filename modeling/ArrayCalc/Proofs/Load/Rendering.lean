import ArrayCalc.Load.Record
import ArrayCalc.Proofs.Text.Integer
import ArrayCalc.Proofs.Text.Words

/-! Lines that tell what a variable holds, and what a record makes of the words of such a line. -/
namespace ArrayCalc

def IsInt32 (value : Int) : Prop := -Text.int32Limit ≤ value ∧ value < Text.int32Limit

instance (value : Int) : Decidable (IsInt32 value) :=
  inferInstanceAs (Decidable (_ ∧ _))

/-- A line of a value source: a scalar with its value, an array with its slots, of which the listed
ones are told, or any other text. -/
inductive SourceLine where
  | scalar (name : String) (value : Int)
  | array (name : String) (slots : List Int) (listed : List Nat)
  | other (text : String)

namespace SourceLine

def pair (slots : List Int) (index : Nat) : String :=
  "(" ++ toString index ++ "," ++ toString (slots.getD index 0) ++ ")"

/-- The pairs of an array record, an empty one if no slot is listed. -/
def pairs (slots : List Int) (listed : List Nat) : List String :=
  if listed = [] then ["()"] else listed.map (pair slots)

/-- The line as it is written: `name value`, or `name size (index,value) ...`. -/
def text : SourceLine → String
  | scalar name value => " ".intercalate [name, toString value]
  | array name slots listed =>
    " ".intercalate (name :: toString slots.length :: pairs slots listed)
  | other text => text

end SourceLine

namespace Text

theorem isWhitespace_of_integer {c : Char} (h : c = '-' ∨ c.isDigit = true) :
    isWhitespace c = false := by
  rcases h with rfl | digit
  · decide
  · have bounds := toNat_of_isDigit digit
    simp [isWhitespace, whitespaceRanges]
    omega

theorem separatesNumbers_of_integer {c : Char} (h : c = '-' ∨ c.isDigit = true) :
    Record.separatesNumbers c = false := by
  rcases h with rfl | digit
  · decide
  · refine Bool.eq_false_iff.mpr ?_
    intro separates
    simp [Record.separatesNumbers, isBlank] at separates
    rcases separates with (rfl | rfl) | rfl | rfl | rfl
    all_goals contradiction

/-- An integer is a word wherever digits and signs do not separate. -/
theorem isWord_integer {separates : Char → Bool} (value : Int)
    (inside : ∀ c, c = '-' ∨ c.isDigit = true → separates c = false) :
    IsWord separates (toString value).toList where
  solid empty := by
    have read := integer?_toString value
    rw [empty] at read
    simp [integer?, natural?] at read
  inside c mem := inside c (integer_chars value c mem)

theorem isWord_natural {separates : Char → Bool} (n : Nat)
    (inside : ∀ c, c = '-' ∨ c.isDigit = true → separates c = false) :
    IsWord separates (toString n).toList := by
  rw [← toString_natCast]
  exact isWord_integer n inside

end Text

/-- What holds after a fold: each item that is about it brings it about, and the others leave it. -/
theorem holds_foldl {α β : Type} {step : β → α → β} {items : List α} {state : β}
    (Valid Holds : β → Prop) (About : α → Prop)
    (kept : ∀ state item, Valid state → Valid (step state item))
    (set : ∀ item ∈ items, About item → ∀ state, Valid state → Holds (step state item))
    (left : ∀ item, ¬ About item → ∀ state, Holds state → Holds (step state item))
    (valid : Valid state) (told : (∃ item ∈ items, About item) ∨ Holds state) :
    Holds (items.foldl step state) := by
  induction items generalizing state with
  | nil => simpa using told
  | cons item items ih =>
    obtain ⟨here, others⟩ := List.forall_mem_cons.mp set
    refine ih others (kept state item valid) ?_
    by_cases later : ∃ item ∈ items, About item
    · exact .inl later
    · right
      by_cases about : About item
      · exact here about state valid
      · have before : Holds state := by simpa [later, about] using told
        exact left item about state before

namespace Record

open Text

theorem words_intercalate {ws : List String} (all : ∀ w ∈ ws, IsWord isWhitespace w.toList) :
    words (" ".intercalate ws) = ws := by
  have blank : (" " : String).toList = [' '] := rfl
  rw [words, String.toList_intercalate, blank,
    Text.words_intercalate (by simpa using all) (by simp)
      (List.forall_mem_singleton.mpr (by decide))]
  simp

variable (slots : List Int) (listed : List Nat)

theorem toList_pair (index : Nat) : (SourceLine.pair slots index).toList =
    '(' :: ((toString index).toList ++
      ',' :: ((toString (slots.getD index 0)).toList ++ [')'])) := by
  simp [SourceLine.pair]

theorem isWord_pairs : ∀ w ∈ SourceLine.pairs slots listed, IsWord isWhitespace w.toList := by
  intro w mem
  simp only [SourceLine.pairs] at mem
  split at mem
  · obtain rfl := List.mem_singleton.mp mem
    decide
  · obtain ⟨index, -, rfl⟩ := List.mem_map.mp mem
    have first := isWord_natural index fun _ => isWhitespace_of_integer
    have second := isWord_integer (slots.getD index 0) fun _ => isWhitespace_of_integer
    rw [toList_pair]
    refine ⟨by simp, List.forall_mem_cons.mpr ⟨by decide, ?_⟩⟩
    refine List.forall_mem_append.mpr ⟨first.inside, List.forall_mem_cons.mpr ⟨by decide, ?_⟩⟩
    exact List.forall_mem_append.mpr ⟨second.inside, List.forall_mem_singleton.mpr (by decide)⟩

theorem words_pair (index : Nat) : Text.words separatesNumbers (SourceLine.pair slots index).toList =
    [(toString index).toList, (toString (slots.getD index 0)).toList] := by
  have first := isWord_natural index fun _ => separatesNumbers_of_integer
  have second := isWord_integer (slots.getD index 0) fun _ => separatesNumbers_of_integer
  rw [toList_pair, words_separator (by decide), first.words_append (by decide),
    second.words_append (by decide), words_nil]

theorem numbers_pairs :
    numbers (SourceLine.pairs slots listed) =
      listed.flatMap fun index => [toString index, toString (slots.getD index 0)] := by
  simp only [numbers, SourceLine.pairs]
  split
  · rename_i empty
    have none : Text.words separatesNumbers "()".toList = [] := by decide
    simp only [empty, List.flatMap_cons, List.flatMap_nil, none, List.map_nil, List.append_nil]
  · simp only [List.flatMap_map, words_pair, List.map_cons, List.map_nil, String.ofList_toList]

/-- The pairs of slots are read back as assignments. -/
theorem assignments_pairs (name : String) (line : Nat) (small : slots.length < int32Limit)
    (values : ∀ v ∈ slots, IsInt32 v) (inside : ∀ index ∈ listed, index < slots.length) :
    assignments name slots.length line
        (listed.flatMap fun index => [toString index, toString (slots.getD index 0)]) =
      (listed.map fun index => (index, slots.getD index 0), none) := by
  induction listed with
  | nil => rfl
  | cons index listed ih =>
    obtain ⟨here, others⟩ := List.forall_mem_cons.mp inside
    have value : IsInt32 (slots.getD index 0) := by
      simpa [here] using values _ (List.getElem_mem here)
    have slot : Number.slotOfInt? index slots.length = some index := by
      simp [Number.slotOfInt?, here]
    simp only [List.flatMap_cons, List.cons_append, List.nil_append, assignments,
      int32?_toString_natCast (Nat.lt_trans here small), int32?_toString value.1 value.2, slot,
      ih others, List.map_cons]

theorem size_write (values : Array Int) (changes : List (Nat × Int)) :
    (write values changes).size = values.size := by
  induction changes generalizing values with
  | nil => rfl
  | cons change changes ih =>
    have rest := ih (values.setIfInBounds change.1 change.2)
    rwa [Array.size_setIfInBounds] at rest

/-- A slot holds what all its changes agree on, or what it held if there are none. -/
theorem getElem?_write {values : Array Int} {changes : List (Nat × Int)} {index : Nat} {value : Int}
    (inside : index < values.size)
    (agree : ∀ change ∈ changes, change.1 = index → change.2 = value)
    (told : (∃ change ∈ changes, change.1 = index) ∨ values[index]? = some value) :
    (write values changes)[index]? = some value := by
  refine holds_foldl (fun values : Array Int => index < values.size)
    (fun values => values[index]? = some value) (fun change => change.1 = index) ?_ ?_ ?_ inside told
  · intro values change inside
    simpa using inside
  · intro change mem about values inside
    subst about
    rw [Array.getElem?_setIfInBounds_self, if_pos inside, agree change mem rfl]
  · intro change apart values held
    rw [Array.getElem?_setIfInBounds_ne apart, held]

/-- Zeros with every other slot written are the slots. -/
theorem write_pairs
    (complete : ∀ index < slots.length, slots.getD index 0 ≠ 0 → index ∈ listed) :
    write (Array.replicate slots.length 0) (listed.map fun index => (index, slots.getD index 0)) =
      slots.toArray := by
  refine Array.ext_getElem? ?_
  intro index
  by_cases inside : index < slots.length
  · have held : slots.toArray[index]? = some (slots.getD index 0) := by
      simp [inside]
    rw [held]
    refine getElem?_write (by simpa using inside) (by simp +contextual) ?_
    by_cases zero : slots.getD index 0 = 0
    · refine .inr ?_
      rw [zero]
      simp [inside]
    · exact .inl ⟨_, List.mem_map_of_mem (complete index inside zero), rfl⟩
  · rw [Array.getElem?_eq_none (by rw [size_write]; simpa using inside),
      Array.getElem?_eq_none (by simpa using inside)]

end Record

end ArrayCalc
