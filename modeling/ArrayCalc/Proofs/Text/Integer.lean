import Mathlib.Data.List.Induction
import ArrayCalc.Text.Integer

/-! The words that write an integer, apart from reading them, and the value that each writes.
Integers that are written in decimal are read back. -/
namespace ArrayCalc.Text

/-- An optional sign and at least one ASCII digit, with their value. -/
inductive WritesInteger : List Char → Int → Prop where
  | plain {digits : List Char} (solid : digits ≠ []) (all : ∀ c ∈ digits, c.isDigit = true) :
      WritesInteger digits (Nat.ofDigitChars 10 digits 0)
  | plus {digits : List Char} (solid : digits ≠ []) (all : ∀ c ∈ digits, c.isDigit = true) :
      WritesInteger ('+' :: digits) (Nat.ofDigitChars 10 digits 0)
  | minus {digits : List Char} (solid : digits ≠ []) (all : ∀ c ∈ digits, c.isDigit = true) :
      WritesInteger ('-' :: digits) (-Nat.ofDigitChars 10 digits 0)

theorem toNat_of_isDigit {c : Char} (h : c.isDigit = true) : 48 ≤ c.toNat ∧ c.toNat ≤ 57 := by
  simpa [Char.isDigit, UInt32.le_iff_toNat_le] using h

theorem exists_digitChar {c : Char} (h : c.isDigit = true) : ∃ n < 10, c = n.digitChar := by
  have bounds := toNat_of_isDigit h
  refine ⟨c.toNat - 48, by omega, Char.toNat_inj.mp ?_⟩
  rw [Nat.toNat_digitChar_of_lt_ten (by omega)]
  omega

/-- Digits are those of their value after some zeros. -/
theorem exists_zeros {digits : List Char} (solid : digits ≠ [])
    (all : ∀ c ∈ digits, c.isDigit = true) : ∃ zeros,
      digits = List.replicate zeros '0' ++ Nat.toDigits 10 (Nat.ofDigitChars 10 digits 0) := by
  induction digits using List.reverseRecOn with
  | nil => contradiction
  | append_singleton digits c ih =>
    obtain ⟨n, small, rfl⟩ := exists_digitChar (all c (by simp))
    have value : Nat.ofDigitChars 10 (digits ++ [n.digitChar]) 0 =
        10 * Nat.ofDigitChars 10 digits 0 + n := by
      simp [Nat.ofDigitChars_append, Nat.ofDigitChars_cons_digitChar_of_lt_ten small]
    have last : Nat.toDigits 10 n = [n.digitChar] := Nat.toDigits_of_lt_base small
    rw [value]
    by_cases first : digits = []
    · exact ⟨0, by simp [first, last]⟩
    obtain ⟨zeros, split⟩ := ih first fun c mem => all c (by simp [mem])
    generalize Nat.ofDigitChars 10 digits 0 = before at split
    rcases Nat.eq_zero_or_pos before with rfl | positive
    · refine ⟨zeros + 1, ?_⟩
      simp [last, split, List.replicate_succ']
    · refine ⟨zeros, ?_⟩
      rw [← Nat.toDigits_append_toDigits (by decide) positive small, last, ← List.append_assoc,
        ← split]

theorem natural?_eq_some_iff {text : List Char} {n : Nat} : natural? text = some n ↔
    text ≠ [] ∧ (∀ c ∈ text, c.isDigit = true) ∧ Nat.ofDigitChars 10 text 0 = n := by
  rw [natural?, Option.ite_none_right_eq_some, List.all_eq_true, Option.some.injEq, and_assoc]

/-- The integers that are read are those that are written. -/
theorem integer?_eq_some_iff {text : List Char} {value : Int} :
    integer? text = some value ↔ WritesInteger text value := by
  constructor
  · intro read
    unfold integer? at read
    split at read
    all_goals
      obtain ⟨n, digits, rfl⟩ := Option.map_eq_some_iff.mp read
      obtain ⟨solid, all, rfl⟩ := natural?_eq_some_iff.mp digits
    · exact .plus solid all
    · exact .minus solid all
    · exact .plain solid all
  · intro writes
    have digits : ∀ {digits : List Char}, digits ≠ [] → (∀ c ∈ digits, c.isDigit = true) →
        natural? digits = some (Nat.ofDigitChars 10 digits 0) :=
      fun solid all => natural?_eq_some_iff.mpr ⟨solid, all, rfl⟩
    cases writes with
    | plus solid all | minus solid all => simp [integer?, digits solid all]
    | plain solid all =>
      have unsigned : integer? text = (natural? text).map Int.ofNat := by
        unfold integer?
        split
        · simp at all
        · simp at all
        · rfl
      rw [unsigned, digits solid all]
      rfl

theorem integer_chars (value : Int) : ∀ c ∈ (toString value).toList, c = '-' ∨ c.isDigit = true := by
  intro c mem
  rw [Int.toString_eq_repr, Int.repr_eq_if] at mem
  split at mem
  · rw [Nat.toList_repr] at mem
    exact .inr (Nat.isDigit_of_mem_toDigits (by decide) (by decide) mem)
  · rw [String.toList_append, Nat.toList_repr, List.mem_append] at mem
    rcases mem with sign | digit
    · exact .inl (by simpa using sign)
    · exact .inr (Nat.isDigit_of_mem_toDigits (by decide) (by decide) digit)

theorem natural?_toDigits (n : Nat) : natural? (Nat.toDigits 10 n) = some n := by
  have digits : (Nat.toDigits 10 n).all Char.isDigit = true :=
    List.all_eq_true.mpr fun c mem => Nat.isDigit_of_mem_toDigits (by decide) (by decide) mem
  simp [natural?, digits, Nat.toDigits_ne_nil]

theorem integer?_toDigits (n : Nat) : integer? (Nat.toDigits 10 n) = some (n : Int) := by
  have digits : ∀ c ∈ Nat.toDigits 10 n, c.isDigit = true :=
    fun c mem => Nat.isDigit_of_mem_toDigits (by decide) (by decide) mem
  unfold integer?
  split
  · rename_i sign
    simp [sign] at digits
  · rename_i sign
    simp [sign] at digits
  · simp [natural?_toDigits]

theorem integer?_toString (value : Int) : integer? (toString value).toList = some value := by
  rw [Int.toString_eq_repr, Int.repr_eq_if]
  split
  · rename_i nonneg
    rw [Nat.toList_repr, integer?_toDigits, Int.toNat_of_nonneg nonneg]
  · rename_i negative
    have magnitude : ((-value).toNat : Int) = -value := Int.toNat_of_nonneg (by omega)
    rw [String.toList_append, Nat.toList_repr]
    simp [integer?, natural?_toDigits, magnitude]

theorem toString_int_injective : Function.Injective (toString : Int → String) := by
  intro a b same
  have read := integer?_toString a
  rw [same, integer?_toString b] at read
  exact (Option.some.inj read).symm

theorem int32?_toString {value : Int} (lower : -int32Limit ≤ value) (upper : value < int32Limit) :
    int32? (toString value) = some value := by
  simp only [int32?, integer?_toString]
  simpa using ⟨lower, upper⟩

theorem toString_natCast (n : Nat) : toString (n : Int) = toString n := by
  rw [Int.toString_eq_repr, Int.repr_eq_if, if_pos (Int.natCast_nonneg n), Int.toNat_natCast,
    Nat.toString_eq_repr]

theorem int32?_toString_natCast {n : Nat} (h : n < int32Limit) :
    int32? (toString n) = some (n : Int) := by
  rw [← toString_natCast]
  exact int32?_toString (by omega) (by omega)

theorem size?_toString {size : Nat} (h : size < int32Limit) : size? (toString size) = some size := by
  simp only [size?, int32?_toString_natCast h, Option.map_eq_some_iff, Option.filter_eq_some_iff]
  exact ⟨size, ⟨rfl, by simp⟩, Int.toNat_natCast size⟩

end ArrayCalc.Text
