import Mathlib.Data.UInt
import ArrayCalc.Load.Source

/-! Texts as bytes in UTF-8. The byte of a line feed stands for a line feed only, never for a part of
another character, so cutting the bytes of a text into lines and decoding each of them gives the
lines of the text. -/
namespace ArrayCalc.Text

def utf8 (text : String) : List UInt8 := text.toUTF8.data.toList

theorem utf8_eq_flatMap (text : String) : utf8 text = text.toList.flatMap String.utf8EncodeChar := by
  rw [utf8, String.toUTF8_eq_toByteArray, ← String.utf8Encode_toList, List.utf8Encode,
    List.toList_data_toByteArray]

theorem utf8_ofList (text : List Char) :
    utf8 (String.ofList text) = text.flatMap String.utf8EncodeChar := by
  rw [utf8_eq_flatMap, String.toList_ofList]

theorem utf8_append (text text' : String) : utf8 (text ++ text') = utf8 text ++ utf8 text' := by
  simp [utf8_eq_flatMap]

theorem toByteArray_utf8 (text : String) : (utf8 text).toByteArray = text.toByteArray := by
  refine ByteArray.ext (Array.toList_inj.mp ?_)
  rw [List.toList_data_toByteArray]
  rfl

/-- Bytes are decoded to the text that they encode. -/
theorem fromUTF8?_eq_some_iff {bytes : List UInt8} {text : String} :
    String.fromUTF8? bytes.toByteArray = some text ↔ bytes = utf8 text := by
  constructor
  · intro decoded
    unfold String.fromUTF8? at decoded
    split at decoded
    · obtain rfl := Option.some.inj decoded
      exact List.toList_data_toByteArray.symm
    · simp at decoded
  · rintro rfl
    rw [toByteArray_utf8, String.fromUTF8?, dif_pos text.isValidUTF8]
    rfl

theorem fromUTF8?_utf8 (text : String) : String.fromUTF8? (utf8 text).toByteArray = some text :=
  fromUTF8?_eq_some_iff.mpr rfl

theorem fromUTF8?_eq_none_iff {bytes : List UInt8} :
    String.fromUTF8? bytes.toByteArray = none ↔ ∀ text, utf8 text ≠ bytes := by
  rw [Option.eq_none_iff_forall_ne_some]
  refine forall_congr' fun text => not_congr ?_
  rw [fromUTF8?_eq_some_iff, eq_comm]

theorem utf8_intercalate_newline (lines : List String) :
    utf8 ("\n".intercalate lines) = [10].intercalate (lines.map utf8) := by
  have newline : utf8 "\n" = [10] := by rw [utf8_eq_flatMap]; decide
  induction lines with
  | nil => rw [String.intercalate_nil, utf8_eq_flatMap]; rfl
  | cons line lines ih =>
    cases lines with
    | nil => simp
    | cons line' lines =>
      rw [String.intercalate_cons_cons, utf8_append, utf8_append, ih, newline]
      simp

/-- The byte of a line feed is not a part of any other character. -/
theorem newline_mem_utf8EncodeChar_iff {c : Char} : 10 ∈ String.utf8EncodeChar c ↔ c = '\n' := by
  constructor
  · intro mem
    have ten : (10 : UInt8).toNat = 10 := rfl
    have code : c.val.toNat = 10 := by
      simp only [String.utf8EncodeChar] at mem
      -- the bytes of every longer form are at least 128
      split_ifs at mem
      all_goals
        simp only [List.mem_cons, List.not_mem_nil, or_false, ← UInt8.toNat_inj,
          UInt8.toNat_ofNat', ten] at mem
        omega
    exact Char.ext (UInt32.toNat_inj.mp code)
  · rintro rfl
    decide

theorem splitOn_append_of_notMem {α : Type} [DecidableEq α] {a : α} {before : List α}
    (none : a ∉ before) (after : List α) :
    (before ++ after).splitOn a = (after.splitOn a).modifyHead (before ++ ·) := by
  induction before with
  | nil => exact (congrFun List.modifyHead_id _).symm
  | cons x before ih =>
    rw [List.mem_cons, not_or] at none
    rw [List.cons_append, List.splitOn_cons_eq_if_modifyHead, if_neg (by simpa using Ne.symm none.1),
      ih none.2, List.modifyHead_modifyHead]
    rfl

/-- Cutting at a symbol commutes with a substitution that keeps this symbol to itself. -/
theorem splitOn_flatMap {α β : Type} [DecidableEq α] [DecidableEq β] {f : α → List β} {a : α} {b : β}
    (same : f a = [b]) (apart : ∀ x, x ≠ a → b ∉ f x) (xs : List α) :
    (xs.flatMap f).splitOn b = (xs.splitOn a).map (·.flatMap f) := by
  induction xs with
  | nil => rfl
  | cons x xs ih =>
    rw [List.flatMap_cons, List.splitOn_cons_eq_if_modifyHead]
    by_cases here : x = a
    · rw [here, same, List.singleton_append, List.splitOn_cons_eq_if_modifyHead, ih]
      simp
    · rw [splitOn_append_of_notMem (apart x here), ih, if_neg (by simpa using here)]
      cases List.splitOn a xs <;> simp

/-- The lines of the bytes of a text are the bytes of its lines. -/
theorem splitOn_utf8 (text : String) :
    (utf8 text).splitOn 10 = (text.toList.splitOn '\n').map fun line => utf8 (String.ofList line) := by
  have apart : ∀ c, c ≠ '\n' → 10 ∉ String.utf8EncodeChar c := by
    intro c other mem
    exact other (newline_mem_utf8EncodeChar_iff.mp mem)
  simp only [utf8_eq_flatMap text, splitOn_flatMap (by decide) apart, utf8_ofList]

end ArrayCalc.Text
