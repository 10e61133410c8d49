import ArrayCalc.Proofs.Load.Lines
import ArrayCalc.Proofs.Syntax.Value

/-! Sources that render an environment: one line for each of its variables, in any order, with other
lines between them. Loading such a source has no fault, and the variables of the table then hold
what the environment says. -/
namespace ArrayCalc

open Text

/-- Variables with what they hold. Names are words, and integers have 32 bits. -/
structure Environment where
  scalars : List (String × Int)
  arrays : List (String × List Int)
  scalars_nodup : (scalars.map Prod.fst).Nodup
  arrays_nodup : (arrays.map Prod.fst).Nodup
  scalars_fit : ∀ entry ∈ scalars, IsWord isWhitespace entry.1.toList ∧ IsInt32 entry.2
  arrays_fit : ∀ entry ∈ arrays, IsWord isWhitespace entry.1.toList ∧
    entry.2.length < int32Limit ∧ ∀ value ∈ entry.2, IsInt32 value

/-- A variable that the environment does not list is zero, or an array without slots. -/
def Environment.valuation (env : Environment) : Valuation where
  scalar name := some ((env.scalars.lookup name).getD 0)
  array name := some ((env.arrays.lookup name).getD [])

namespace SourceLine

def scalar? : SourceLine → Option (String × Int)
  | scalar name value => some (name, value)
  | _ => none

def array? : SourceLine → Option (String × List Int)
  | array name slots _ => some (name, slots)
  | _ => none

end SourceLine

/-- Lines that tell each variable of an environment once, in any order. The other lines are about
none of the names given. -/
structure Renders (env : Environment) (names : List String) (lines : List SourceLine) : Prop where
  scalars : (lines.filterMap SourceLine.scalar?).Perm env.scalars
  arrays : (lines.filterMap SourceLine.array?).Perm env.arrays
  listed : ∀ name slots listed, .array name slots listed ∈ lines →
    (∀ index ∈ listed, index < slots.length) ∧
      ∀ index < slots.length, slots.getD index 0 ≠ 0 → index ∈ listed
  others : ∀ text, .other text ∈ lines →
    '\n' ∉ text.toList ∧ ∀ name ∈ (Record.words text).head?, name ∉ names

namespace Renders

variable {env : Environment} {names : List String} {lines : List SourceLine}

theorem mem_scalars (h : Renders env names lines) {name : String} {value : Int} :
    .scalar name value ∈ lines ↔ (name, value) ∈ env.scalars := by
  rw [← h.scalars.mem_iff, List.mem_filterMap]
  constructor
  · intro mem
    exact ⟨_, mem, rfl⟩
  · rintro ⟨line, mem, told⟩
    cases line with
    | scalar => simp_all [SourceLine.scalar?]
    | array | other => simp [SourceLine.scalar?] at told

theorem mem_arrays (h : Renders env names lines) {name : String} {slots : List Int} :
    (∃ listed, .array name slots listed ∈ lines) ↔ (name, slots) ∈ env.arrays := by
  rw [← h.arrays.mem_iff, List.mem_filterMap]
  constructor
  · rintro ⟨listed, mem⟩
    exact ⟨_, mem, rfl⟩
  · rintro ⟨line, mem, told⟩
    cases line with
    | array other slots' listed =>
      refine ⟨listed, ?_⟩
      simp_all [SourceLine.array?]
    | scalar | other => simp [SourceLine.array?] at told

theorem proper (h : Renders env names lines) : ∀ line ∈ lines, line.Proper names := by
  intro line mem
  cases line with
  | scalar name value =>
    obtain ⟨word, fits⟩ := env.scalars_fit _ (h.mem_scalars.mp mem)
    exact .scalar word fits
  | array name slots listed =>
    obtain ⟨word, small, fit⟩ := env.arrays_fit _ (h.mem_arrays.mp ⟨listed, mem⟩)
    obtain ⟨inside, complete⟩ := h.listed name slots listed mem
    exact .array word small fit inside complete
  | other text =>
    obtain ⟨single, foreign⟩ := h.others text mem
    exact .other single foreign

/-- A zero holds what the environment says after its lines. -/
theorem valuation_scalar (h : Renders env names lines) {t : Table} {name : String}
    (fresh : t.scalarValue? name = some 0) :
    (lines.foldl SourceLine.update t).valuation.scalar name = env.valuation.scalar name := by
  have known : name ∈ t.namesOf .scalar := by
    by_contra unknown
    simp [Table.scalarValue?_eq_none_iff.mpr unknown] at fresh
  have entry : ∀ v, .scalar name v ∈ lines → env.scalars.lookup name = some v := by
    intro v mem
    exact lookup_of_mem env.scalars_nodup (h.mem_scalars.mp mem)
  cases listed : env.scalars.lookup name with
  | none =>
    simp only [Environment.valuation, listed, Option.getD_none]
    refine scalarValue?_foldl_update known ?_ (.inr fresh)
    intro v mem
    simp [entry v mem] at listed
  | some value =>
    simp only [Environment.valuation, listed, Option.getD_some]
    refine scalarValue?_foldl_update known ?_ (.inl (h.mem_scalars.mpr (mem_of_lookup listed)))
    intro v mem
    simpa [listed, eq_comm] using entry v mem

/-- An array without slots has those that the environment says after its lines. -/
theorem valuation_array (h : Renders env names lines) {t : Table} {name : String}
    (fresh : t.valuation.array name = some []) :
    (lines.foldl SourceLine.update t).valuation.array name = env.valuation.array name := by
  have known : name ∈ t.namesOf .array := by
    by_contra unknown
    simp [Table.valuation, Table.array?_eq_none_iff.mpr unknown] at fresh
  have entry : ∀ slots listed, .array name slots listed ∈ lines →
      env.arrays.lookup name = some slots := by
    intro slots listed mem
    exact lookup_of_mem env.arrays_nodup (h.mem_arrays.mp ⟨listed, mem⟩)
  cases found : env.arrays.lookup name with
  | none =>
    simp only [Environment.valuation, found, Option.getD_none]
    refine array?_foldl_update known ?_ (.inr fresh)
    intro slots listed mem
    simp [entry slots listed mem] at found
  | some slots =>
    simp only [Environment.valuation, found, Option.getD_some]
    refine array?_foldl_update known ?_ (.inl (h.mem_arrays.mpr (mem_of_lookup found)))
    intro slots' listed mem
    simpa [found, eq_comm] using entry slots' listed mem

end Renders

end ArrayCalc
