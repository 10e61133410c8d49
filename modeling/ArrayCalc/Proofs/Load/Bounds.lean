import ArrayCalc.Proofs.Load.Changes

/-! What loads can store has 32 bits, also where a record stops half-way. -/
namespace ArrayCalc

def SlotsFit (values : Array Int) : Prop :=
  values.size < Text.int32Limit ∧ ∀ value ∈ values, IsInt32 value

/-- A table that holds integers of 32 bits only, in arrays whose sizes have 32 bits too. -/
structure Table.Fits (t : Table) : Prop where
  scalars : ∀ s ∈ t.scalars, IsInt32 s.value
  arrays : ∀ a ∈ t.arrays, SlotsFit a.values

theorem isInt32_zero : IsInt32 0 := by decide

/-! Slots stay in bounds. -/

theorem slotsFit_replicate {size : Nat} (small : size < Text.int32Limit) :
    SlotsFit (Array.replicate size 0) := by
  refine ⟨by simpa using small, ?_⟩
  intro value mem
  rw [Array.eq_of_mem_replicate mem]
  exact isInt32_zero

theorem SlotsFit.getD {values : Array Int} (h : SlotsFit values) (slot : Nat) :
    IsInt32 (values.getD slot 0) := by
  rw [Array.getD_eq_getD_getElem?]
  cases held : values[slot]? with
  | none => exact isInt32_zero
  | some value => exact h.2 value (Array.mem_of_getElem? held)

theorem SlotsFit.write {values : Array Int} {changes : List (Nat × Int)} (h : SlotsFit values)
    (ints : ∀ change ∈ changes, IsInt32 change.2) : SlotsFit (Record.write values changes) := by
  induction changes generalizing values with
  | nil => exact h
  | cons change changes ih =>
    obtain ⟨first, others⟩ := List.forall_mem_cons.mp ints
    refine ih ⟨by simpa using h.1, ?_⟩ others
    intro value mem
    rcases Array.mem_or_eq_of_mem_setIfInBounds mem with held | rfl
    · exact h.2 value held
    · exact first

namespace Table.Fits

variable {t t' : Table} {name : String}

theorem discover (text : String) : (discover text).Fits := by
  rw [ArrayCalc.discover, foldl_register]
  constructor
  · simp [isInt32_zero]
  · simp [SlotsFit, Text.int32Limit]

theorem setScalar (h : t.Fits) {value : Int} (int : IsInt32 value)
    (set : t.setScalar name value = .ok t') : t'.Fits := by
  obtain ⟨-, rfl⟩ := setScalar_eq_ok set
  refine ⟨?_, h.arrays⟩
  intro s mem
  obtain ⟨old, mem', rfl⟩ := List.mem_map.mp mem
  split
  · exact int
  · exact h.scalars old mem'

theorem updateSlots (h : t.Fits) {change : Array Int → Array Int}
    (keeps : ∀ values, SlotsFit values → SlotsFit (change values)) :
    (t.updateSlots name change).Fits := by
  refine ⟨h.scalars, ?_⟩
  intro a mem
  obtain ⟨old, mem', rfl⟩ := List.mem_map.mp mem
  split
  · exact keeps old.values (h.arrays old mem')
  · exact h.arrays old mem'

theorem changes (h : t.Fits) (changes : Record.Changes t t') : t'.Fits := by
  cases changes with
  | none => exact h
  | scalar int set => exact h.setScalar int set
  | array small allocated ints =>
    obtain rfl := allocate_eq_ok allocated
    refine updateSlots (updateSlots h ?_) ?_
    · exact fun _ _ => slotsFit_replicate small
    · exact fun _ fit => fit.write ints

/-- A load keeps the bounds, wherever it stops. -/
theorem loadLines (h : t.Fits) (line : Nat) (lines : List (Option String)) :
    (t.loadLines line lines).table.Fits :=
  loadLines_invariant (fun changes fits => fits.changes changes) h line lines

end Table.Fits

end ArrayCalc
