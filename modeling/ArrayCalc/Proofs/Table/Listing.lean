import Mathlib.Data.List.Basic
import Mathlib.Data.Sum.Basic
import ArrayCalc.Proofs.Load.Rendering
import ArrayCalc.Table.Listing

/-! A listing determines its table. Names may hold any character, so a line is read from its end:
what follows the last `=` is an integer, or integers in brackets, and neither of them holds a
further `=`. -/
namespace ArrayCalc

open Text

/-- Equal texts are equal on both sides of the last separator. -/
theorem eq_of_last_separator {before after before' after' : List Char} {c : Char}
    (last : c ∉ after) (last' : c ∉ after') (same : before ++ c :: after = before' ++ c :: after') :
    before = before' ∧ after = after' := by
  rcases List.append_eq_append_iff.mp same with ⟨between, rfl, rest⟩ | ⟨between, rfl, rest⟩
  all_goals
    cases between with
    | nil => simp_all
    | cons d between =>
      obtain ⟨-, rfl⟩ := List.cons.inj rest
      simp at last last'

theorem equals_notMem_integer (value : Int) : '=' ∉ (toString value).toList := by
  intro mem
  have char := integer_chars value '=' mem
  contradiction

def slotsText (values : List Int) : List Char :=
  [',', ' '].intercalate ((values.map toString).map String.toList)

/-- The values are the words of their text. -/
theorem words_slotsText (values : List Int) :
    Text.words Record.separatesNumbers (slotsText values) =
      (values.map toString).map String.toList := by
  have all : ∀ w ∈ (values.map toString).map String.toList, IsWord Record.separatesNumbers w := by
    simpa using fun value _ => isWord_integer value fun _ => separatesNumbers_of_integer
  have separators : ∀ c ∈ [',', ' '], Record.separatesNumbers c = true :=
    List.forall_mem_cons.mpr ⟨by decide, List.forall_mem_singleton.mpr (by decide)⟩
  exact Text.words_intercalate all (by decide) separators

theorem slotsText_injective : Function.Injective slotsText := by
  intro values values' same
  have words := congrArg (Text.words Record.separatesNumbers) same
  rw [words_slotsText, words_slotsText] at words
  have texts : Function.Injective String.toList := fun _ _ => String.toList_injective
  exact List.map_injective_iff.mpr toString_int_injective (List.map_injective_iff.mpr texts words)

theorem equals_notMem_slotsText (values : List Int) : '=' ∉ '[' :: (slotsText values ++ [']']) := by
  have slots : '=' ∉ slotsText values := by
    refine notMem_intercalate (by decide) (List.forall_mem_map.mpr ?_)
    exact List.forall_mem_map.mpr fun value _ => equals_notMem_integer value
  simpa using slots

theorem toList_scalarLine (s : Scalar) :
    s.line.toList = s.name.toList ++ '=' :: (toString s.value).toList := by
  simp [Scalar.line]

theorem toList_arrayLine (a : ArrayVariable) :
    a.line.toList = a.name.toList ++ '=' :: '[' :: (slotsText a.values.toList ++ [']']) := by
  simp [ArrayVariable.line, slotsText, String.toList_intercalate]

theorem scalarLine_injective : Function.Injective Scalar.line := by
  intro ⟨name, value⟩ ⟨name', value'⟩ same
  have texts := congrArg String.toList same
  rw [toList_scalarLine, toList_scalarLine] at texts
  obtain ⟨names, values⟩ :=
    eq_of_last_separator (equals_notMem_integer _) (equals_notMem_integer _) texts
  rw [Scalar.mk.injEq]
  exact ⟨String.toList_injective names, toString_int_injective (String.toList_injective values)⟩

theorem arrayLine_injective : Function.Injective ArrayVariable.line := by
  intro ⟨name, values⟩ ⟨name', values'⟩ same
  have texts := congrArg String.toList same
  rw [toList_arrayLine, toList_arrayLine] at texts
  obtain ⟨names, brackets⟩ :=
    eq_of_last_separator (equals_notMem_slotsText _) (equals_notMem_slotsText _) texts
  have slots := List.append_cancel_right (List.cons.inj brackets).2
  rw [ArrayVariable.mk.injEq]
  exact ⟨String.toList_injective names, Array.toList_inj.mp (slotsText_injective slots)⟩

/-- A scalar is listed with an integer, and an array with a bracket, which no integer holds. -/
theorem scalarLine_ne_arrayLine (s : Scalar) (a : ArrayVariable) : s.line ≠ a.line := by
  intro same
  have texts := congrArg String.toList same
  rw [toList_scalarLine, toList_arrayLine] at texts
  obtain ⟨-, value⟩ :=
    eq_of_last_separator (equals_notMem_integer _) (equals_notMem_slotsText _) texts
  have char := integer_chars s.value '[' (value ▸ List.mem_cons_self)
  contradiction

def Table.items (t : Table) : List (Scalar ⊕ ArrayVariable) :=
  t.scalars.map .inl ++ t.arrays.map .inr

theorem Table.listing_eq (t : Table) :
    t.listing = t.items.map (Sum.elim Scalar.line ArrayVariable.line) := by
  simp [listing, items]

theorem Table.items_injective : Function.Injective Table.items := by
  intro ⟨scalars, arrays⟩ ⟨scalars', arrays'⟩ same
  have lefts := congrArg (List.filterMap Sum.getLeft?) same
  have rights := congrArg (List.filterMap Sum.getRight?) same
  obtain rfl : scalars = scalars' := by
    simpa [items, List.filterMap_map, Function.comp_def] using lefts
  obtain rfl : arrays = arrays' := by
    simpa [items, List.filterMap_map, Function.comp_def] using rights
  rfl

/-- A listing determines the table that it lists: the names of each kind in their order, the values
and the sizes. No line is that of a scalar and of an array, and a line determines the whole contents
of its array. -/
theorem listing_eq_iff :
    (∀ t t' : Table, t.listing = t'.listing ↔ t = t') ∧
      (∀ (s : Scalar) (a : ArrayVariable), s.line ≠ a.line) ∧
      ∀ a a' : ArrayVariable, a.line = a'.line ↔ a = a' := by
  refine ⟨?_, scalarLine_ne_arrayLine, fun _ _ => arrayLine_injective.eq_iff⟩
  have lines := scalarLine_injective.sumElim arrayLine_injective scalarLine_ne_arrayLine
  intro t t'
  rw [t.listing_eq, t'.listing_eq, (List.map_injective_iff.mpr lines).eq_iff,
    Table.items_injective.eq_iff]

end ArrayCalc
