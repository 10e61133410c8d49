import ArrayCalc.Proofs.Load.Reading
import ArrayCalc.Proofs.Table.Registry

/-! Histories of a table: what can be done to it and asked of it, one after the other. A table and a
registry that go through the same history give the same answers. -/
namespace ArrayCalc

inductive Query where
  | contains (name : String)
  | kindOf (name : String)
  | scalar (name : String)
  | array (name : String)
  | scalarValue (name : String)
  | arrayValue (name : String) (index : Nat)
  | scalars
  | arrays
deriving DecidableEq, Repr

inductive Reply where
  | truth (holds : Bool)
  | kind (kind : Option VariableKind)
  | scalar (s : Option Scalar)
  | array (a : Option ArrayVariable)
  | value (value : Option Int)
  | scalars (all : List Scalar)
  | arrays (all : List ArrayVariable)
deriving DecidableEq, Repr

inductive Operation where
  | ask (query : Query)
  | add (kind : VariableKind) (name : String)
  | setScalar (name : String) (value : Int)
  | allocate (name : String) (size : Nat)
  | setSlot (name : String) (index : Nat) (value : Int)
  /-- A load of lines; none stands for a line that cannot be decoded. -/
  | load (lines : List (Option String))
  /-- A load that gets no further than these lines: there is no storage for the array of the next
  one, or the source breaks off. -/
  | cutShort (lines : List (Option String)) (fault : LoadError)
deriving DecidableEq, Repr

inductive Answer where
  | reply (reply : Reply)
  | done
  | refused (refusal : Refusal)
  | loaded (notices : List LoadNotice) (fault : Option LoadError)
deriving DecidableEq, Repr

/-- An operation that may change what a name stands for. -/
def Operation.Concerns (name : String) : Operation → Prop
  | ask _ => False
  | add _ other | setScalar other _ | allocate other _ | setSlot other _ _ => other = name
  | load lines | cutShort lines _ =>
    ∃ text, some text ∈ lines ∧ (Record.words text).head? = some name

/-- What becomes of a state under an update, with the answer. A refusal leaves the state. -/
def settle {σ : Type} (s : σ) : Except Refusal σ → σ × Answer
  | .ok s' => (s', .done)
  | .error refusal => (s, .refused refusal)

def history {σ : Type} (perform : σ → Operation → σ × Answer) (s : σ) :
    List Operation → σ × List Answer
  | [] => (s, [])
  | op :: ops =>
    let (s', answer) := perform s op
    let (last, answers) := history perform s' ops
    (last, answer :: answers)

def Table.reply (t : Table) : Query → Reply
  | .contains name => .truth (t.contains name)
  | .kindOf name => .kind (t.kindOf? name)
  | .scalar name => .scalar (t.scalar? name)
  | .array name => .array (t.array? name)
  | .scalarValue name => .value (t.scalarValue? name)
  | .arrayValue name index => .value (t.arrayValue? name index)
  | .scalars => .scalars t.scalars
  | .arrays => .arrays t.arrays

def Table.perform (t : Table) : Operation → Table × Answer
  | .ask query => (t, .reply (t.reply query))
  | .add kind name => settle t (t.add kind name)
  | .setScalar name value => settle t (t.setScalar name value)
  | .allocate name size => settle t (t.allocate name size)
  | .setSlot name index value => settle t (t.setSlot name index value)
  | .load lines =>
    let loaded := t.loadLines 1 lines
    (loaded.table, .loaded loaded.notices loaded.fault)
  | .cutShort lines fault =>
    let loaded := t.loadLines 1 lines
    (loaded.table, .loaded loaded.notices (some (loaded.fault.getD fault)))

def Registry.reply (r : Registry) : Query → Reply
  | .contains name => .truth (r.contains name)
  | .kindOf name => .kind (r.kindOf? name)
  | .scalar name => .scalar (r.scalar? name)
  | .array name => .array (r.array? name)
  | .scalarValue name => .value (r.scalarValue? name)
  | .arrayValue name index => .value (r.arrayValue? name index)
  | .scalars => .scalars r.scalars
  | .arrays => .arrays r.arrays

/-- A load tells each name what the lines say of it. -/
def Registry.perform (r : Registry) : Operation → Registry × Answer
  | .ask query => (r, .reply (r.reply query))
  | .add kind name => settle r (r.add kind name)
  | .setScalar name value => settle r (r.setScalar name value)
  | .allocate name size => settle r (r.allocate name size)
  | .setSlot name index value => settle r (r.setSlot name index value)
  | .load lines =>
    let reading := readLines r.namesOf 1 lines
    (r.holdAll reading.told, .loaded reading.notices reading.fault)
  | .cutShort lines fault =>
    let reading := readLines r.namesOf 1 lines
    (r.holdAll reading.told, .loaded reading.notices (some (reading.fault.getD fault)))

theorem settle_map {σ τ : Type} (view : σ → τ) (s : σ) (update : Except Refusal σ) :
    settle (view s) (update.map view) = (settle s update).map view id := by
  cases update <;> rfl

theorem settle_refused {σ : Type} {s : σ} {update : Except Refusal σ} {refusal : Refusal}
    (h : (settle s update).2 = .refused refusal) : (settle s update).1 = s := by
  cases update with
  | ok s' => simp [settle] at h
  | error refusal' => rfl

theorem settle_done_iff {σ : Type} {s : σ} {update : Except Refusal σ} :
    (settle s update).2 = .done ↔ ∃ s', update = .ok s' := by
  cases update <;> simp [settle]

/-- Operations that commute with a view of the state give the view the same answers. -/
theorem history_map {σ τ : Type} {perform : σ → Operation → σ × Answer}
    {perform' : τ → Operation → τ × Answer} {view : σ → τ}
    (square : ∀ s op, perform' (view s) op = (perform s op).map view id) (s : σ)
    (ops : List Operation) :
    history perform' (view s) ops = (history perform s ops).map view id := by
  induction ops generalizing s with
  | nil => rfl
  | cons op ops ih => simp [history, square, ih]

namespace Registry

theorem reply_table (r : Registry) (query : Query) : r.table.reply query = r.reply query := by
  cases query with
  | contains name => rw [Table.reply, contains_table, reply]
  | kindOf name => rw [Table.reply, kindOf?_table, reply]
  | scalar name => rw [Table.reply, scalar?_table, reply]
  | array name => rw [Table.reply, array?_table, reply]
  | scalarValue name => rw [Table.reply, scalarValue?_table, reply]
  | arrayValue name index => rw [Table.reply, arrayValue?_table, reply]
  | scalars => rfl
  | arrays => rfl

/-- An operation on a table is the operation on the map that the table shows. -/
theorem perform_table (r : Registry) (op : Operation) :
    r.table.perform op = (r.perform op).map table id := by
  cases op with
  | ask query => rw [Table.perform, reply_table]; rfl
  | add kind name => rw [Table.perform, table_add, settle_map]; rfl
  | setScalar name value => rw [Table.perform, table_setScalar, settle_map]; rfl
  | allocate name size => rw [Table.perform, table_allocate, settle_map]; rfl
  | setSlot name index value => rw [Table.perform, table_setSlot, settle_map]; rfl
  | load lines | cutShort lines fault =>
    simp only [Table.perform, Table.loadLines_eq_read, namesOf_table, Reading.carryOut,
      ← table_holdAll]
    rfl

theorem table_perform (r : Registry) (op : Operation) :
    (r.table.perform op).1 = (r.perform op).1.table :=
  congrArg Prod.fst (r.perform_table op)

/-- What a source tells is told to names that its lines are about. -/
theorem concerns_load_of_mem_told {r : Registry} {lines : List (Option String)}
    {entry : String × Content} (h : entry ∈ (readLines r.namesOf 1 lines).told) :
    (Operation.load lines).Concerns entry.1 := by
  obtain ⟨number, text, listed, told⟩ := exists_line_of_mem_told r.namesOf h
  cases text with
  | none => simp [readLine] at told
  | some text => exact ⟨text, listed, (Record.isFor_of_mem_told r.namesOf told).1⟩

/-- All that an operation can do: it adds a name, or tells names that it concerns what to hold. -/
theorem perform_cases (r : Registry) (op : Operation) :
    (∃ kind name, op = .add kind name ∧ r.add kind name = .ok (r.perform op).1) ∨
      ∃ told, (∀ entry ∈ told, op.Concerns entry.1) ∧ (r.perform op).1 = r.holdAll told := by
  -- A refused update tells nothing.
  have one {name : String} {update : Except Refusal Registry} (h : r.Tells name update) :
      ∃ told, (∀ entry ∈ told, name = entry.1) ∧ (settle r update).1 = r.holdAll told := by
    cases h with
    | told content => exact ⟨[(name, content)], by simp, rfl⟩
    | refused refusal => exact ⟨[], nofun, rfl⟩
  cases op with
  | ask query => exact .inr ⟨[], nofun, rfl⟩
  | add kind name =>
    cases added : r.add kind name with
    | ok r' => exact .inl ⟨kind, name, rfl, by simp [perform, settle, added]⟩
    | error refusal => exact .inr ⟨[], nofun, by simp [perform, settle, added, holdAll]⟩
  | setScalar name value => exact .inr (one (r.tells_setScalar name value))
  | allocate name size => exact .inr (one (r.tells_allocate name size))
  | setSlot name index value => exact .inr (one (r.tells_setSlot name index value))
  | load lines | cutShort lines fault => exact .inr ⟨_, fun _ => concerns_load_of_mem_told, rfl⟩

theorem extends_perform (r : Registry) (op : Operation) : r.Extends (r.perform op).1 := by
  obtain ⟨kind, name, -, added⟩ | ⟨told, -, after⟩ := r.perform_cases op
  · exact extends_add added
  · exact after ▸ r.extends_holdAll told

theorem held_perform {r : Registry} {op : Operation} {name : String} (aside : ¬ op.Concerns name) :
    (r.perform op).1.held name = r.held name := by
  obtain ⟨kind, other, rfl, added⟩ | ⟨told, concerned, after⟩ := r.perform_cases op
  · obtain ⟨-, -, held⟩ := add_eq_ok added
    rw [held, Function.update_of_ne (Ne.symm aside)]
  · rw [after]
    refine held_holdAll_of_untold ?_
    rintro entry mem rfl
    exact aside (concerned entry mem)

/-- An operation changes no entry of a name that it does not concern. -/
theorem entries_perform_table {r : Registry} {op : Operation} {name : String}
    (aside : ¬ op.Concerns name) :
    (r.table.perform op).1.scalar? name = r.table.scalar? name ∧
      (r.table.perform op).1.array? name = r.table.array? name := by
  rw [table_perform, scalar?_table, scalar?_table, array?_table, array?_table]
  simp only [scalar?, array?, shown?, held_perform aside, and_self]

/-- No operation removes names or puts others before them. -/
theorem namesOf_perform_table (r : Registry) (op : Operation) (kind : VariableKind) :
    r.table.namesOf kind <+: (r.table.perform op).1.namesOf kind := by
  rw [table_perform, namesOf_table, namesOf_table]
  exact (r.extends_perform op).isPrefix_namesOf kind

end Registry

namespace Table

/-- To add a name succeeds if it is new. -/
theorem perform_add_iff (t : Table) (kind : VariableKind) (name : String) :
    (t.perform (.add kind name)).2 = .done ↔ name ∉ t.names := by
  rw [perform, settle_done_iff, ← contains_iff_mem_names]
  by_cases known : t.contains name = true
  · simp [add, known]
  · cases kind <;> simp [add, known]

/-- What is refused changes nothing. -/
theorem perform_refused {t : Table} {op : Operation} {refusal : Refusal}
    (h : (t.perform op).2 = .refused refusal) : (t.perform op).1 = t := by
  cases op with
  | ask query => rfl
  | add kind name => exact settle_refused h
  | setScalar name value => exact settle_refused h
  | allocate name size => exact settle_refused h
  | setSlot name index value => exact settle_refused h
  | load lines | cutShort lines fault => simp [perform] at h

def after (ops : List Operation) : Table := (history perform {} ops).1

/-- A table answers whatever is done to it and asked of it as one map from names to contents that
keeps the order of arrival. At any time a name stands once among all names, to add a name succeeds
if it is new, what is refused changes nothing, an operation leaves alone the names that it does not
concern, and the names that were there stay in front and in order. -/
theorem history_eq_registry (ops : List Operation) :
    (history perform {} ops).2 = (history Registry.perform .empty ops).2 ∧
      (∀ query, (after ops).reply query = (history Registry.perform .empty ops).1.reply query) ∧
      (after ops).names.Nodup ∧
      (∀ kind name,
        ((after ops).perform (.add kind name)).2 = .done ↔ name ∉ (after ops).names) ∧
      (∀ op refusal, ((after ops).perform op).2 = .refused refusal →
        ((after ops).perform op).1 = after ops) ∧
      (∀ op name, ¬ Operation.Concerns name op →
        ((after ops).perform op).1.scalar? name = (after ops).scalar? name ∧
          ((after ops).perform op).1.array? name = (after ops).array? name) ∧
      ∀ op kind, (after ops).namesOf kind <+: ((after ops).perform op).1.namesOf kind := by
  have simulated : history perform {} ops =
      (history Registry.perform .empty ops).map Registry.table id :=
    history_map Registry.perform_table .empty ops
  have shown : after ops = (history Registry.perform .empty ops).1.table :=
    congrArg Prod.fst simulated
  refine ⟨congrArg Prod.snd simulated, ?_, ?_, (after ops).perform_add_iff,
    fun op refusal => perform_refused, ?_, ?_⟩
  · rw [shown]
    exact Registry.reply_table _
  · rw [shown]
    exact Registry.nodup_names_table _
  · intro op name aside
    rw [shown]
    exact Registry.entries_perform_table aside
  · intro op kind
    rw [shown]
    exact Registry.namesOf_perform_table _ op kind

/-- A name is added as both kinds, an array is allocated, a load fills it and passes over a name
that is not known, and another finds no storage for it after it has filled it anew. -/
theorem history_eq_registry_load :
    (history Registry.perform .empty [.add .array "A", .add .scalar "A", .allocate "A" 2,
        .load [some "A 2 (1,7)", some "x 1"],
        .cutShort [some "A 1 (0,3)"] (.noStorage "A" 2000000000 2)]).2 =
        [.done, .refused .nameTaken, .done, .loaded [.unknownName "x" 2] none,
          .loaded [] (some (.noStorage "A" 2000000000 2))] ∧
      (perform { arrays := [⟨"A", #[3]⟩] } (.setSlot "A" 2 5)).1 = { arrays := [⟨"A", #[3]⟩] } ∧
      (perform { arrays := [⟨"A", #[3]⟩] } (.add .scalar "x")).1.array? "A" =
        some ⟨"A", #[3]⟩ := by
  obtain ⟨answers, -, -, -, kept, aside, -⟩ := history_eq_registry [.add .array "A",
    .add .scalar "A", .allocate "A" 2, .load [some "A 2 (1,7)", some "x 1"],
    .cutShort [some "A 1 (0,3)"] (.noStorage "A" 2000000000 2)]
  have reached : after [.add .array "A", .add .scalar "A", .allocate "A" 2,
      .load [some "A 2 (1,7)", some "x 1"],
      .cutShort [some "A 1 (0,3)"] (.noStorage "A" 2000000000 2)] =
      { arrays := [⟨"A", #[3]⟩] } := by decide +kernel
  rw [reached] at kept aside
  exact ⟨answers.symm.trans (by decide +kernel),
    kept (.setSlot "A" 2 5) .noSuchSlot (by decide +kernel),
    (aside (.add .scalar "x") "A" (by simp [Operation.Concerns])).2⟩

end Table

end ArrayCalc
