import ArrayCalc.Proofs.Evaluation.Refusals
import ArrayCalc.Proofs.Load.Bounds
import ArrayCalc.Proofs.Load.Names
import ArrayCalc.Proofs.Number.Conversion
import ArrayCalc.Session

/-! The tables that a session can reach. Whatever was done to an expression, in any order and
however it failed, the table knows the names that discovery finds, or none before the first
discovery, and it holds nothing that an evaluation could find too large: numbers are exact far
beyond the 32 bits that loads can store. -/
namespace ArrayCalc

theorem IsInt32.natAbs_le {value : Int} (h : IsInt32 value) : value.natAbs ≤ Number.exactLimit := by
  have wider : Text.int32Limit ≤ Number.exactLimit := by decide
  obtain ⟨lower, upper⟩ := h
  omega

namespace Table.Fits

variable {t : Table} {name : String}

theorem not_refuses (h : t.Fits) {l : Lexeme} {following : Option Token} {s : State} {value : Int}
    {position : Nat} :
    ¬ State.Refuses t l following s (.valueTooLarge name value position) := by
  intro refuses
  cases refuses with
  | scalarTooLarge token follows known inexact =>
    obtain ⟨s, found, rfl⟩ := Option.map_eq_some_iff.mp known
    have large := Number.ofInt?_eq_none_iff.mp inexact
    have small := (h.scalars s (List.mem_of_find?_eq_some found)).natAbs_le
    omega
  | element token reduces waiting denies =>
    cases denies with
    | @tooLarge array slot known inside inexact =>
      have large := Number.ofInt?_eq_none_iff.mp inexact
      have small := ((h.arrays array (List.mem_of_find?_eq_some known)).getD slot).natAbs_le
      omega

theorem not_fails (h : t.Fits) {ls : List Lexeme} {s : State} {value : Int} {position : Nat} :
    ¬ State.Fails t (.valueTooLarge name value position) ls s := by
  intro fails
  induction fails with
  | here refuses => exact h.not_refuses refuses
  | later _ _ ih => exact ih

/-- No value in bounds is too large to evaluate. -/
theorem evaluate_ne_valueTooLarge (h : t.Fits) (text name : String) (value : Int)
    (position : Nat) : evaluate text t ≠ .error (.valueTooLarge name value position) := by
  intro failed
  rcases evaluate_eq_error failed with fails | ⟨reason, eq⟩
  · exact h.not_fails fails
  · simp at eq

end Table.Fits

theorem Table.eq_of_namesOf_nil {t : Table} (none : ∀ kind, t.namesOf kind = []) : t = {} := by
  obtain ⟨scalars, arrays⟩ := t
  have noScalars := none .scalar
  have noArrays := none .array
  simp only [namesOf, List.map_eq_nil_iff] at noScalars noArrays
  rw [noScalars, noArrays]

namespace Session

/-- What can be done in a session. A load is cut short after some lines where there is no storage
for the next one or its source breaks off. -/
inductive Step where
  | discover
  | loadText (source : String)
  | loadBytes (source : List UInt8)
  | cutShort (source : List UInt8) (lines : Nat)
  | evaluate
deriving DecidableEq, Repr

/-- The session after a step, whether the step fails or not. -/
def after (s : Session) : Step → Session
  | .discover => s.discover
  | .loadText source => { s with table := (s.loadText source).table }
  | .loadBytes source => { s with table := (s.loadBytes source).table }
  | .cutShort source lines =>
    { s with table := (s.table.loadLines 1 ((linesOfBytes source).take lines)).table }
  | .evaluate => s

def reached (text : String) (steps : List Step) : Session := steps.foldl after { text }

/-- What holds of every session, given whether discovery has taken place. -/
structure Holds (text : String) (discovered : Bool) (s : Session) : Prop where
  text_eq : s.text = text
  names : ∀ kind, s.table.namesOf kind =
    if discovered then (ArrayCalc.discover text).namesOf kind else []
  fits : s.table.Fits

variable {text : String} {discovered : Bool} {s : Session}

theorem holds_start : Holds text false { text } where
  text_eq := rfl
  names kind := by cases kind <;> rfl
  fits := by constructor <;> simp

theorem Holds.discover (h : Holds text discovered s) : Holds text true s.discover where
  text_eq := h.text_eq
  names kind := by rw [Session.discover, h.text_eq, if_pos rfl]
  fits := .discover s.text

theorem Holds.load (h : Holds text discovered s) (lines : List (Option String)) :
    Holds text discovered { s with table := (s.table.loadLines 1 lines).table } where
  text_eq := h.text_eq
  names kind := by rw [Table.namesOf_loadLines, h.names kind]
  fits := h.fits.loadLines 1 lines

theorem Holds.after (h : Holds text discovered s) (step : Step) :
    Holds text (discovered || step = .discover) (s.after step) := by
  cases step with
  | discover => simpa [Session.after] using h.discover
  | loadText source => simpa [Session.after, loadText, Table.loadText] using h.load _
  | loadBytes source => simpa [Session.after, loadBytes, Table.loadBytes] using h.load _
  | cutShort source lines => simpa [Session.after] using h.load _
  | evaluate => simpa [Session.after] using h

theorem Holds.foldl_after (h : Holds text discovered s) (steps : List Step) :
    Holds text (discovered || Step.discover ∈ steps) (steps.foldl Session.after s) := by
  -- Each step may be the first discovery, so the flag changes along with the session.
  induction steps generalizing s discovered with
  | nil => simpa using h
  | cons step steps ih =>
    have next := ih (h.after step)
    simpa [Bool.or_assoc, eq_comm] using next

theorem holds_reached (text : String) (steps : List Step) :
    Holds text (Step.discover ∈ steps) (reached text steps) := by
  simpa [reached] using holds_start.foldl_after steps

theorem Holds.nodup_names (h : Holds text discovered s) : s.table.names.Nodup := by
  have names : s.table.names = s.table.namesOf .scalar ++ s.table.namesOf .array := rfl
  rw [names, h.names .scalar, h.names .array]
  cases discovered with
  | false => exact List.nodup_nil
  | true =>
    have start : (Table.names {}).Nodup := List.nodup_nil
    exact Table.nodup_names_foldl_register start (nameUses text)

/-- Whatever steps a session takes, its table is empty before the first discovery and knows the
names that discovery finds after it, each once and as one kind. It holds integers of 32 bits only,
in arrays of no more slots, so that evaluation never finds a stored value too large. -/
theorem reached_sound (text : String) (steps : List Step) :
    (Step.discover ∉ steps → (reached text steps).table = {}) ∧
      (Step.discover ∈ steps → ∀ kind,
        (reached text steps).table.namesOf kind = (ArrayCalc.discover text).namesOf kind) ∧
      (reached text steps).table.names.Nodup ∧ (reached text steps).table.Fits ∧
      ∀ name value position,
        (reached text steps).evaluate ≠ .error (.valueTooLarge name value position) := by
  have holds := holds_reached text steps
  refine ⟨?_, ?_, holds.nodup_names, holds.fits, ?_⟩
  · intro never
    refine Table.eq_of_namesOf_nil ?_
    simpa [never] using holds.names
  · intro discovered
    simpa [discovered] using holds.names
  · exact holds.fits.evaluate_ne_valueTooLarge _

/-- The first load knows no name yet, the second stops within the pairs of an array, the third at a
line that is no text, and the fourth before a line that it has no storage for. -/
theorem reached_sound_faults :
    (reached "A[x]/x" [.loadText "x 9", .discover, .loadText "A 3 (0,4) (1,", .evaluate,
        .loadBytes [120, 32, 50, 10, 255],
        .cutShort [120, 32, 51, 10, 65, 32, 57, 32, 48] 1]).table =
      { scalars := [⟨"x", 3⟩], arrays := [⟨"A", #[4, 0, 0]⟩] } ∧
    (Table.names { scalars := [⟨"x", 3⟩], arrays := [⟨"A", #[4, 0, 0]⟩] }).Nodup ∧
    Table.Fits { scalars := [⟨"x", 3⟩], arrays := [⟨"A", #[4, 0, 0]⟩] } := by
  have table : (reached "A[x]/x" [.loadText "x 9", .discover, .loadText "A 3 (0,4) (1,", .evaluate,
      .loadBytes [120, 32, 50, 10, 255],
      .cutShort [120, 32, 51, 10, 65, 32, 57, 32, 48] 1]).table =
      { scalars := [⟨"x", 3⟩], arrays := [⟨"A", #[4, 0, 0]⟩] } := by decide +kernel
  obtain ⟨-, -, nodup, fits, -⟩ := reached_sound "A[x]/x" [.loadText "x 9", .discover,
    .loadText "A 3 (0,4) (1,", .evaluate, .loadBytes [120, 32, 50, 10, 255],
    .cutShort [120, 32, 51, 10, 65, 32, 57, 32, 48] 1]
  exact ⟨table, table ▸ nodup, table ▸ fits⟩

end Session

end ArrayCalc
