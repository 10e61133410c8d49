import ArrayCalc.Proofs.Load.Changes
import ArrayCalc.Proofs.Table.Content

/-! What a source says, apart from what it does to a table. A record tells at most one variable what
to hold, also where it ends in a fault, and what it says depends on the names that are known and not
on what the variables hold. A load reads the source and gives its table what was told. -/
namespace ArrayCalc

namespace LoadError

/-- The line that a fault was found on, if it is that of a record. -/
def line? : LoadError → Option Nat
  | notInteger _ line | incomplete _ line | indexOutOfRange _ _ _ line | noStorage _ _ line =>
    some line
  | unreadable _ => none

def later (lines : Nat) : LoadError → LoadError
  | notInteger word line => notInteger word (line + lines)
  | incomplete name line => incomplete name (line + lines)
  | indexOutOfRange name index size line => indexOutOfRange name index size (line + lines)
  | noStorage name size line => noStorage name size (line + lines)
  | unreadable failure => unreadable failure

end LoadError

def LoadNotice.later (lines : Nat) : LoadNotice → LoadNotice
  | unknownName name line => unknownName name (line + lines)
  | notScalar name line => notScalar name (line + lines)
  | notArray name line => notArray name (line + lines)

/-- What is read from a record or a source: what it tells the variables, in order, the notices, and
the fault that ends it. -/
structure Reading where
  told : List (String × Content) := []
  notices : List LoadNotice := []
  fault : Option LoadError := none

namespace Reading

def carryOut (r : Reading) (t : Table) : Loaded :=
  { table := t.holdAll r.told, notices := r.notices, fault := r.fault }

def andThen (first next : Reading) : Reading :=
  match first.fault with
  | some _ => first
  | none =>
    { told := first.told ++ next.told, notices := first.notices ++ next.notices, fault := next.fault }

def later (lines : Nat) (r : Reading) : Reading :=
  { r with notices := r.notices.map (.later lines), fault := r.fault.map (.later lines) }

end Reading

namespace Record

/-- The kind of variable that a record is for: two words are for a scalar, more for an array. -/
def kind? : List String → Option VariableKind
  | [_, _] => some .scalar
  | _ :: _ :: _ :: _ => some .array
  | _ => none

def IsFor (kind : VariableKind) (name : String) (words : List String) : Prop :=
  words.head? = some name ∧ kind? words = some kind

variable (known : VariableKind → List String)

def readScalar (line : Nat) (name valueWord : String) : Reading :=
  match Text.int32? valueWord with
  | none => { fault := some (.notInteger valueWord line) }
  | some value =>
    if name ∈ known .scalar then { told := [(name, .scalar value)] }
    else { notices := [.notScalar name line] }

def readArray (line : Nat) (name sizeWord : String) (pairs : List String) : Reading :=
  match Text.size? sizeWord with
  | none => { fault := some (.notInteger sizeWord line) }
  | some size =>
    if name ∈ known .array then
      let (changes, fault) := assignments name size line (numbers pairs)
      { told := [(name, .array (write (Array.replicate size 0) changes))], fault }
    else { notices := [.notArray name line] }

def read (line : Nat) : List String → Reading
  | [] => {}
  | name :: rest =>
    if name ∈ known .scalar ++ known .array then
      match rest with
      | [] => { fault := some (.incomplete name line) }
      | [value] => readScalar known line name value
      | size :: pairs => readArray known line name size pairs
    else { notices := [.unknownName name line] }

theorem read_of_unknown (line : Nat) {name : String} (rest : List String)
    (unknown : name ∉ known .scalar ++ known .array) :
    read known line (name :: rest) = { notices := [.unknownName name line] } :=
  if_neg unknown

theorem applyScalar_eq_read (t : Table) (line : Nat) (name valueWord : String) :
    applyScalar t line name valueWord = (readScalar t.namesOf line name valueWord).carryOut t := by
  unfold applyScalar readScalar
  cases Text.int32? valueWord with
  | none => rfl
  | some value =>
    by_cases mem : name ∈ t.namesOf .scalar
    · simp [Table.setScalar, Table.isSome_scalar?_iff.mpr mem, mem, Reading.carryOut, Table.holdAll,
        Table.hold_scalar]
    · simp [Table.setScalar_of_notMem mem, mem, Reading.carryOut, Table.holdAll]

theorem applyArray_eq_read (t : Table) (line : Nat) (name sizeWord : String)
    (pairs : List String) :
    applyArray t line name sizeWord pairs =
      (readArray t.namesOf line name sizeWord pairs).carryOut t := by
  unfold applyArray readArray
  cases read : Text.size? sizeWord with
  | none => rfl
  | some size =>
    have small : size < Table.storageLimit := Nat.lt_trans (lt_of_size? read) (by decide)
    by_cases mem : name ∈ t.namesOf .array
    · simp [Table.allocate_of_mem mem small, mem, Reading.carryOut, Table.holdAll,
        Table.hold_array, Table.updateSlots_updateSlots]
    · simp [Table.allocate_of_notMem mem, mem, Reading.carryOut, Table.holdAll]

/-- A record does to a table what it says, given the names that the table knows. -/
theorem apply_eq_read (t : Table) (line : Nat) (words : List String) :
    apply t line words = (read t.namesOf line words).carryOut t := by
  unfold apply read
  split
  · rfl
  · rename_i name rest
    have same : name ∈ t.namesOf .scalar ++ t.namesOf .array ↔ t.contains name = true :=
      Table.contains_iff_mem_names.symm
    by_cases contains : t.contains name = true
    · simp only [same, contains, Bool.not_true, Bool.false_eq_true, if_false, if_true]
      rcases rest with _ | ⟨word, _ | ⟨word', rest⟩⟩
      · rfl
      · exact applyScalar_eq_read t line name word
      · exact applyArray_eq_read t line name word (word' :: rest)
    · simp only [same, contains, Bool.not_false, if_true]
      rfl

theorem assignments_later (name : String) (size line later : Nat) (numbers : List String) :
    assignments name size (line + later) numbers =
      ((assignments name size line numbers).1,
        (assignments name size line numbers).2.map (.later later)) := by
  fun_induction assignments name size line numbers with
  | case1 => rfl
  | case2 => rfl
  | case3 indexWord valueWord rest read => simp [assignments, read, LoadError.later]
  | case4 indexWord valueWord rest index read read' => simp [assignments, read, read', LoadError.later]
  | case5 indexWord valueWord rest index read value read' outside =>
    simp [assignments, read, read', outside, LoadError.later]
  | case6 indexWord valueWord rest index read value read' slot inside others fault rest' ih =>
    simp [assignments, read, read', inside, ih, rest']

/-- What a record says does not depend on the line it stands on, but for the number of that line. -/
theorem read_later (line later : Nat) (words : List String) :
    read known (line + later) words = (read known line words).later later := by
  unfold read
  split
  · rfl
  · split
    · split
      · rfl
      · unfold readScalar
        split
        · rfl
        · split <;> rfl
      · unfold readArray
        split
        · rfl
        · split
          · simp only [assignments_later _ _ line later]
            rfl
          · rfl
    · rfl

theorem told_readScalar (line : Nat) (name valueWord : String) :
    ((readScalar known line name valueWord).told = [] ∧
        ((readScalar known line name valueWord).fault = none → name ∉ known .scalar)) ∨
      ∃ value, name ∈ known .scalar ∧
        (readScalar known line name valueWord).told = [(name, .scalar value)] := by
  unfold readScalar
  split
  · exact .inl ⟨rfl, nofun⟩
  · rename_i value read
    split
    · rename_i mem
      exact .inr ⟨value, mem, rfl⟩
    · rename_i fresh
      exact .inl ⟨rfl, fun _ => fresh⟩

theorem told_readArray (line : Nat) (name sizeWord : String) (pairs : List String) :
    ((readArray known line name sizeWord pairs).told = [] ∧
        ((readArray known line name sizeWord pairs).fault = none → name ∉ known .array)) ∨
      ∃ slots, name ∈ known .array ∧
        (readArray known line name sizeWord pairs).told = [(name, .array slots)] := by
  unfold readArray
  split
  · exact .inl ⟨rfl, nofun⟩
  · split
    · rename_i mem
      exact .inr ⟨_, mem, rfl⟩
    · rename_i fresh
      exact .inl ⟨rfl, fun _ => fresh⟩

/-- A record tells one variable at most, the one that it is for, and nothing only if it has a fault
or that variable is not known. -/
theorem told_read_cases (line : Nat) (words : List String) :
    ((read known line words).told = [] ∧ ((read known line words).fault = none →
        ∀ kind name, IsFor kind name words → name ∉ known kind)) ∨
      ∃ name content, IsFor content.kind name words ∧ name ∈ known content.kind ∧
        (read known line words).told = [(name, content)] := by
  rcases words with _ | ⟨name, rest⟩
  · refine .inl ⟨rfl, ?_⟩
    rintro - kind name ⟨first, -⟩
    simp at first
  · by_cases contains : name ∈ known .scalar ++ known .array
    · simp only [read, contains, if_true]
      rcases rest with _ | ⟨word, _ | ⟨word', rest⟩⟩
      · exact .inl ⟨rfl, nofun⟩
      · refine (told_readScalar known line name word).imp ?_ ?_
        · rintro ⟨none, fresh⟩
          refine ⟨none, ?_⟩
          rintro faultless kind name' ⟨⟨⟩, ⟨⟩⟩
          exact fresh faultless
        · rintro ⟨value, mem, told⟩
          exact ⟨name, .scalar value, ⟨rfl, rfl⟩, mem, told⟩
      · refine (told_readArray known line name word (word' :: rest)).imp ?_ ?_
        · rintro ⟨none, fresh⟩
          refine ⟨none, ?_⟩
          rintro faultless kind name' ⟨⟨⟩, ⟨⟩⟩
          exact fresh faultless
        · rintro ⟨slots, mem, told⟩
          exact ⟨name, .array slots, ⟨rfl, rfl⟩, mem, told⟩
    · rw [read_of_unknown known line rest contains]
      refine .inl ⟨rfl, ?_⟩
      rintro - kind name' ⟨⟨⟩, -⟩ mem
      cases kind with
      | scalar => exact contains (List.mem_append_left _ mem)
      | array => exact contains (List.mem_append_right _ mem)

theorem isFor_of_mem_told {line : Nat} {words : List String} {entry : String × Content}
    (h : entry ∈ (read known line words).told) : IsFor entry.2.kind entry.1 words := by
  obtain ⟨none, -⟩ | ⟨name, content, isFor, -, told⟩ := told_read_cases known line words
  · simp [none] at h
  · rw [told, List.mem_singleton] at h
    subst h
    exact isFor

/-- A record without a fault tells the variable that it is for, if that is known. -/
theorem told_of_isFor {kind : VariableKind} {name : String} {line : Nat} {words : List String}
    (isFor : IsFor kind name words) (mem : name ∈ known kind)
    (faultless : (read known line words).fault = none) :
    ∃ content, content.kind = kind ∧ (read known line words).told = [(name, content)] := by
  obtain ⟨-, fresh⟩ | ⟨name', content, isFor', -, told⟩ := told_read_cases known line words
  · exact absurd mem (fresh faultless kind name isFor)
  · obtain rfl : name' = name := Option.some.inj (isFor'.1.symm.trans isFor.1)
    exact ⟨content, Option.some.inj (isFor'.2.symm.trans isFor.2), told⟩

theorem line?_of_assignments {name : String} {size line : Nat} {numbers : List String}
    {e : LoadError} (h : (assignments name size line numbers).2 = some e) : e.line? = some line := by
  fun_induction assignments name size line numbers with
  | case1 => simp at h
  | case2 | case3 | case4 | case5 => obtain rfl := Option.some.inj h; rfl
  | case6 indexWord valueWord rest index read value read' slot inside others fault rest' ih =>
    exact ih (by rw [rest']; exact h)

/-- A fault of a record is found on its line. -/
theorem line?_of_read {line : Nat} {words : List String} {e : LoadError}
    (h : (read known line words).fault = some e) : e.line? = some line := by
  unfold read at h
  split at h
  · simp at h
  · split at h
    · split at h
      · obtain rfl := Option.some.inj h; rfl
      · unfold readScalar at h
        split at h
        · obtain rfl := Option.some.inj h; rfl
        · split at h <;> simp at h
      · unfold readArray at h
        split at h
        · obtain rfl := Option.some.inj h; rfl
        · split at h
          · exact line?_of_assignments h
          · simp at h
    · simp at h

end Record

variable (known : VariableKind → List String)

def readLine (line : Nat) : Option String → Reading
  | none => { fault := some (.unreadable .invalidEncoding) }
  | some text => Record.read known line (Record.words text)

def readLines (line : Nat) : List (Option String) → Reading
  | [] => {}
  | text :: rest => (readLine known line text).andThen (readLines (line + 1) rest)

/-- A load gives its table what the lines say. -/
theorem Table.loadLines_eq_read (t : Table) (line : Nat) (lines : List (Option String)) :
    t.loadLines line lines = (readLines t.namesOf line lines).carryOut t := by
  induction lines generalizing t line with
  | nil => rfl
  | cons text rest ih =>
    cases text with
    | none => rfl
    | some text =>
      simp only [loadLines, readLines, readLine, Record.apply_eq_read]
      obtain ⟨told, notices, fault⟩ := Record.read t.namesOf line (Record.words text)
      cases fault with
      | some e => rfl
      | none =>
        simp only [Reading.andThen, Reading.carryOut, ih, namesOf_holdAll, holdAll_append]

/-- What is told is told by one of the lines. -/
theorem exists_line_of_mem_told {line : Nat} {lines : List (Option String)}
    {entry : String × Content} (h : entry ∈ (readLines known line lines).told) :
    ∃ number, ∃ text ∈ lines, entry ∈ (readLine known number text).told := by
  induction lines generalizing line with
  | nil => simp [readLines] at h
  | cons text lines ih =>
    have here (mem : entry ∈ (readLine known line text).told) :
        ∃ number, ∃ text' ∈ text :: lines, entry ∈ (readLine known number text').told :=
      ⟨line, text, List.mem_cons_self, mem⟩
    simp only [readLines, Reading.andThen] at h
    split at h
    · exact here h
    · rcases List.mem_append.mp h with mem | later
      · exact here mem
      · obtain ⟨number, text', mem, told⟩ := ih later
        exact ⟨number, text', List.mem_cons_of_mem _ mem, told⟩

/-- A fault is that of one line, and what was told before it is what the lines before it say and
what that line says. -/
theorem exists_of_fault_readLines {line : Nat} {lines : List (Option String)} {e : LoadError}
    (h : (readLines known line lines).fault = some e) :
    ∃ before text after, lines = before ++ text :: after ∧
      (readLines known line before).fault = none ∧
      (readLine known (line + before.length) text).fault = some e ∧
      (readLines known line lines).told =
        (readLines known line before).told ++ (readLine known (line + before.length) text).told := by
  induction lines generalizing line with
  | nil => simp [readLines] at h
  | cons text rest ih =>
    cases fault : (readLine known line text).fault with
    | some e' =>
      simp only [readLines, Reading.andThen, fault, Option.some.injEq] at h
      subst h
      exact ⟨[], text, rest, rfl, rfl, fault, by simp [readLines, Reading.andThen, fault]⟩
    | none =>
      simp only [readLines, Reading.andThen, fault] at h
      obtain ⟨before, text', after, rfl, faultless, found, told⟩ := ih h
      refine ⟨text :: before, text', after, rfl, ?_, ?_, ?_⟩
      · simpa [readLines, Reading.andThen, fault] using faultless
      · rwa [List.length_cons, Nat.add_comm before.length, ← Nat.add_assoc]
      · simp only [readLines, Reading.andThen, fault, told, List.append_assoc, List.length_cons,
          Nat.add_assoc, Nat.add_comm 1]

end ArrayCalc
