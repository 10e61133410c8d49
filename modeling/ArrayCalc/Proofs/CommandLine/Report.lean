import ArrayCalc.CommandLine.Report
import ArrayCalc.Proofs.Load.Bytes
import ArrayCalc.Proofs.Load.Names
import ArrayCalc.Proofs.Text.Words

/-! The command line answers as the library does. Reading the expression, opening the values, loading
them and evaluating fail in this order, and only the first failure is told. The listing stands before
the result or before the failure of an evaluation, never before a failure to load. -/
namespace ArrayCalc

/-- An expression over a source is evaluated exactly if the source loads without a fault. -/
theorem evaluateSource_eq_iff (text source : String) (outcome : Except EvalError Float) :
    evaluateSource text source = outcome.mapError .evaluation ↔
      ((discover text).loadText source).fault = none ∧
        evaluate text ((discover text).loadText source).table = outcome := by
  simp only [evaluateSource]
  cases ((discover text).loadText source).fault with
  | some e => cases outcome <;> simp [Except.mapError]
  | none =>
    cases evaluate text ((discover text).loadText source).table <;> cases outcome <;>
      simp [Except.mapError]

namespace CommandLine

open Text

/-- The texts that the options give as the expression: the argument, or what the file of that name
holds between whitespace. -/
inductive GivesText (read : String → FileContent) (o : Options) : String → Prop where
  | argument (direct : o.fromFile = false) : GivesText read o o.expression
  | file {content text : String} (named : o.fromFile = true)
      (found : read o.expression = .bytes (utf8 content))
      (trims : Trims content.toList text.toList) : GivesText read o text

/-- The bytes that the options give as values; there are none without a file. -/
inductive GivesValues (read : String → FileContent) (o : Options) : List UInt8 → Prop where
  | none (unnamed : o.values = none) : GivesValues read o []
  | file {path : String} {content : List UInt8} (named : o.values = some path)
      (found : read path = .bytes content) : GivesValues read o content

def listed (o : Options) (t : Table) : String :=
  if o.list then
    String.join (t.scalars.map (·.line ++ "\n")) ++ String.join (t.arrays.map (·.line ++ "\n"))
  else ""

/-- What stands on the output and on the error output in the end, and the exit code. -/
inductive Prints (read : String → FileContent) (o : Options) : String → String → UInt32 → Prop where
  | noText (none : ∀ text, ¬ GivesText read o text) :
      Prints read o "" (cannotRead "expression" o.expression ++ "\n") 1
  | noValues {text path : String} (given : GivesText read o text) (named : o.values = some path)
      (missing : read path = .missing) : Prints read o "" (cannotRead "values" path ++ "\n") 1
  | directory {text path : String} (given : GivesText read o text) (named : o.values = some path)
      (found : read path = .directory) :
      Prints read o "" ((LoadError.unreadable .isDirectory).message ++ "\n") 1
  | load {text : String} {values : List UInt8} {e : LoadError} (given : GivesText read o text)
      (source : GivesValues read o values)
      (fault : ((discover text).loadBytes values).fault = some e) :
      Prints read o "" (e.message ++ "\n") 1
  | value {text source : String} {value : Float} (given : GivesText read o text)
      (values : GivesValues read o (utf8 source)) (result : evaluateSource text source = .ok value) :
      Prints read o
        (listed o ((discover text).loadText source).table ++ (Number.text value ++ "\n")) "" 0
  | evaluation {text source : String} {e : EvalError} (given : GivesText read o text)
      (values : GivesValues read o (utf8 source))
      (result : evaluateSource text source = .error (.evaluation e)) :
      Prints read o (listed o ((discover text).loadText source).table) (e.message ++ "\n") 1

variable {read : String → FileContent} {o : Options} {text : String}

theorem expressionText_eq_some_iff : expressionText read o = some text ↔ GivesText read o text := by
  rw [expressionText]
  constructor
  · intro given
    split at given
    next named =>
      split at given
      next bytes found =>
        obtain ⟨content, decoded, rfl⟩ := Option.map_eq_some_iff.mp given
        obtain rfl := fromUTF8?_eq_some_iff.mp decoded
        exact .file named found (trims_iff.mpr String.toList_ofList)
      next => simp at given
    next direct =>
      obtain rfl := Option.some.inj given
      exact .argument (by simpa using direct)
  · intro given
    cases given with
    | argument direct => rw [if_neg (by simp [direct])]
    | file named found trims =>
      simp only [named, found, if_true, fromUTF8?_utf8, Option.map_some, ← trims_iff.mp trims,
        String.ofList_toList]

theorem loadValues_eq {values : List UInt8} (source : GivesValues read o values) (t : Table) :
    loadValues read o t = .ok (t.loadBytes values) := by
  rw [loadValues]
  cases source with
  | none unnamed => simp only [unnamed]; rfl
  | file named found => simp only [named, found]

theorem report_of_fault {values : List UInt8} {e : LoadError} (given : GivesText read o text)
    (source : GivesValues read o values)
    (fault : ((discover text).loadBytes values).fault = some e) :
    report read o = .failure [] e.message := by
  simp only [report, expressionText_eq_some_iff.mpr given, loadValues_eq source, fault]

theorem report_of_faultless {source : String} (given : GivesText read o text)
    (values : GivesValues read o (utf8 source))
    (faultless : ((discover text).loadText source).fault = none) :
    report read o = reportValue o text ((discover text).loadText source).table := by
  simp only [report, expressionText_eq_some_iff.mpr given, loadValues_eq values,
    Table.loadBytes_utf8, faultless]

theorem Report.errorText_failure (output : List String) (complaint : String) :
    (failure output complaint).errorText = complaint ++ "\n" := by
  have single : (failure output complaint).errorText = String.join [complaint ++ "\n"] := rfl
  rw [single, String.join_cons, String.join_nil, String.append_empty]

theorem join_listing (o : Options) (t : Table) :
    String.join ((if o.list then t.listing else []).map (· ++ "\n")) = listed o t := by
  rw [listed]
  split
  · simp [Table.listing, String.join_append, Function.comp_def]
  · rfl

theorem reportValue_of_ok {t : Table} {value : Float}
    (result : evaluate text t = .ok value) :
    (reportValue o text t).outputText = listed o t ++ (Number.text value ++ "\n") ∧
      (reportValue o text t).errorText = "" ∧ (reportValue o text t).exitCode = 0 := by
  rw [reportValue, result]
  refine ⟨?_, rfl, rfl⟩
  have lines : ∀ listing : List String,
      Report.outputText { output := listing ++ [Number.text value] } =
        String.join ((listing ++ [Number.text value]).map (· ++ "\n")) := fun _ => rfl
  rw [lines, List.map_append, String.join_append, join_listing]
  simp

theorem reportValue_of_error {t : Table} {e : EvalError}
    (result : evaluate text t = .error e) :
    (reportValue o text t).outputText = listed o t ∧
      (reportValue o text t).errorText = e.message ++ "\n" ∧
      (reportValue o text t).exitCode = 1 := by
  rw [reportValue, result]
  exact ⟨join_listing o t, Report.errorText_failure _ _, rfl⟩

/-- A report without output holds a complaint only. -/
theorem complains_of_report {complaint : String} (eq : report read o = .failure [] complaint) :
    (report read o).outputText = "" ∧ (report read o).errorText = complaint ++ "\n" ∧
      (report read o).exitCode = 1 := by
  rw [eq]
  exact ⟨rfl, Report.errorText_failure [] complaint, rfl⟩

/-- Only the one report is printed. -/
theorem Prints.eq_report {out err : String} {code : UInt32} (h : Prints read o out err code) :
    (report read o).outputText = out ∧ (report read o).errorText = err ∧
      (report read o).exitCode = code := by
  cases h with
  | noText none =>
    have unknown : expressionText read o = .none :=
      Option.eq_none_iff_forall_ne_some.mpr fun text =>
        mt expressionText_eq_some_iff.mp (none text)
    exact complains_of_report (by simp only [report, unknown])
  | noValues given named missing =>
    refine complains_of_report ?_
    simp only [report, expressionText_eq_some_iff.mpr given, loadValues, named, missing]
  | directory given named found =>
    refine complains_of_report ?_
    simp only [report, expressionText_eq_some_iff.mpr given, loadValues, named, found]
  | load given source fault => exact complains_of_report (report_of_fault given source fault)
  | @value text source value given values result =>
    obtain ⟨faultless, evaluated⟩ := (evaluateSource_eq_iff text source (.ok value)).mp result
    rw [report_of_faultless given values faultless]
    exact reportValue_of_ok evaluated
  | @evaluation text source e given values result =>
    obtain ⟨faultless, evaluated⟩ := (evaluateSource_eq_iff text source (.error e)).mp result
    rw [report_of_faultless given values faultless]
    exact reportValue_of_error evaluated

/-- Whatever the files hold, something is printed. -/
theorem exists_prints (read : String → FileContent) (o : Options) :
    ∃ out err code, Prints read o out err code := by
  by_cases given : ∃ text, GivesText read o text
  · obtain ⟨text, given⟩ := given
    by_cases values : ∃ bytes, GivesValues read o bytes
    · obtain ⟨bytes, values⟩ := values
      cases fault : ((discover text).loadBytes bytes).fault with
      | some e => exact ⟨_, _, _, .load given values fault⟩
      | none =>
        obtain ⟨source, rfl⟩ := Table.exists_text_of_faultless fault
        rw [Table.loadBytes_utf8] at fault
        have evaluated := (evaluateSource_eq_iff text source _).mpr ⟨fault, rfl⟩
        cases result : evaluate text ((discover text).loadText source).table with
        | ok value => exact ⟨_, _, _, .value given values (by rw [evaluated, result]; rfl)⟩
        | error e => exact ⟨_, _, _, .evaluation given values (by rw [evaluated, result]; rfl)⟩
    · have named : ∃ path, o.values = some path :=
        Option.ne_none_iff_exists'.mp fun unnamed => values ⟨[], .none unnamed⟩
      obtain ⟨path, named⟩ := named
      cases found : read path with
      | missing => exact ⟨_, _, _, .noValues given named found⟩
      | directory => exact ⟨_, _, _, .directory given named found⟩
      | bytes content => exact absurd ⟨content, .file named found⟩ values
  · exact ⟨_, _, _, .noText (not_exists.mp given)⟩

/-- The program prints and exits as the library evaluates, and the variables are listed in the order
in which they are discovered. -/
theorem respond_iff_prints (read : String → FileContent) (o : Options) :
    (∀ out err code, Prints read o out err code ↔
      (respond read (.evaluate o)).outputText = out ∧
        (respond read (.evaluate o)).errorText = err ∧
        (respond read (.evaluate o)).exitCode = code) ∧
    ∀ text source kind,
      ((discover text).loadText source).table.namesOf kind = (discover text).namesOf kind := by
  refine ⟨?_, fun text source kind => Table.namesOf_loadLines _ _ _ kind⟩
  intro out err code
  refine ⟨Prints.eq_report, ?_⟩
  rintro ⟨rfl, rfl, rfl⟩
  obtain ⟨out, err, code, prints⟩ := exists_prints read o
  obtain ⟨rfl, rfl, rfl⟩ := prints.eq_report
  exact prints

/-- A listing stands before the failure of an evaluation, not before that of a load. -/
theorem respond_iff_prints_listing :
    Prints (fun _ => .bytes (utf8 "x 5\nA 2 (1,7)"))
      { list := true, values := some "values", expression := "A[0]+(x" }
      "x=5\nA=[0, 7]\n" "Error at position 7: Malformed expression: unclosed '('.\n" 1 ∧
    Prints (fun _ => .bytes (utf8 "x 5\nA 2 (2,7)"))
      { list := true, values := some "values", expression := "A[0]+(x" }
      "" "Error on line 2: Index 2 is out of range for array 'A' of size 2.\n" 1 := by
  refine ⟨((respond_iff_prints _ _).1 _ _ _).mpr ?_, ((respond_iff_prints _ _).1 _ _ _).mpr ?_⟩
  · decide +kernel
  · decide +kernel

end CommandLine

end ArrayCalc
