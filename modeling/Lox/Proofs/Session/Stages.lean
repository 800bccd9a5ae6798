import Lox.Proofs.Execute.Output
import Lox.Proofs.Reporting
import Lox.Session

/-! The stages before a text is executed, as one function of the text. What they find says what
becomes of the session, and whether anything is executed. -/
namespace Lox

/-- What is found in a text before it is executed: the errors of the first stage that finds any, the
lines that dumps show of the stages reached, and what parsing and resolving have come to. -/
structure Findings where
  errors : List Diagnostic
  shown : List String
  nextId : NodeId
  located : List Located
  program : List Stmt

namespace Dumps

variable (dumps : Dumps)

/-- What the dump of tokens shows of a scanned text. -/
def ofTokens (scanned : Scan) : List String :=
  if dumps.tokens then scanned.listing.map (·.dump) else []

/-- What the dump of trees shows of a program. -/
def ofTrees (program : List Stmt) : List String :=
  if dumps.trees then program.map (·.render) else []

/-- What is found in a text. -/
def findings (nextId : NodeId) (source : String) : Findings :=
  let scanned := scan source
  let parsed := scanned.parse nextId
  let resolved := resolve parsed.program
  if !scanned.errors.isEmpty then
    ⟨scanned.errors.map (·.diagnostic), dumps.ofTokens scanned, nextId, [], []⟩
  else if !parsed.errors.isEmpty then
    ⟨parsed.errors.map (·.diagnostic), dumps.ofTokens scanned ++ dumps.ofTrees parsed.program,
      parsed.nextId, [], []⟩
  else
    ⟨resolved.errors.map (·.diagnostic), dumps.ofTokens scanned ++ dumps.ofTrees parsed.program,
      parsed.nextId, resolved.located, parsed.program⟩

end Dumps

theorem foldl_print (lines : List String) (m : Machine) :
    lines.foldl Machine.print m = { m with out := m.out ++ unlines lines } := by
  induction lines generalizing m with
  | nil => simp [unlines, String.join]
  | cons line lines ih =>
    rw [List.foldl_cons, ih]
    simp [Machine.print, unlines, String.append_assoc]

@[simp] theorem Reporter.reportAll_nil (r : Reporter) : r.reportAll [] = r := rfl

@[simp] theorem Resolution.recordAll_nil (r : Resolution) : r.recordAll [] = r := rfl

section Findings

variable (dumps other : Dumps) (nextId : NodeId) (source : String)

/-- All errors found are of one stage. -/
theorem Dumps.findings_errors :
    ∃ kind ∈ [Diagnostic.Kind.scan, .parse, .resolve],
      ∀ d ∈ (dumps.findings nextId source).errors, d.kind = kind := by
  simp only [findings]
  split
  · refine ⟨.scan, by simp, ?_⟩
    simp [ScanError.diagnostic]
  · split
    · refine ⟨.parse, by simp, ?_⟩
      simp [SyntaxError.diagnostic, Diagnostic.atToken]
    · refine ⟨.resolve, by simp, ?_⟩
      simp [ScopeError.diagnostic, Diagnostic.atToken]

/-- Dumps make no difference but to what is shown. -/
theorem Dumps.findings_congr :
    dumps.findings nextId source =
      { other.findings nextId source with shown := (dumps.findings nextId source).shown } := by
  simp only [findings]
  split
  · rfl
  · split <;> rfl

end Findings

namespace Session

variable (s : Session) (source : String)

/-- What is found in a text that is run next. -/
def findings : Findings := s.dumps.findings s.nextId source

/-- The session after the stages before execution. -/
def checked : Session :=
  let found := s.findings source
  { s with
    reporter := (s.reporter.reset.register s.path source).reportAll found.errors
    nextId := found.nextId
    machine := { s.machine with
      resolution := s.machine.resolution.recordAll found.located
      out := s.machine.out ++ unlines found.shown } }

theorem errors_checked : (s.checked source).reporter.errors = (s.findings source).errors := by
  simp [checked, Reporter.errors_reportAll, Reporter.register, Reporter.reset]

/-- Before execution there are no errors of the running program. -/
theorem static_of_mem_checked {d : Diagnostic} (hd : d ∈ (s.checked source).reporter.errors) :
    d.kind ≠ .runtime := by
  obtain ⟨kind, hkind, hall⟩ := s.dumps.findings_errors s.nextId source
  rw [errors_checked] at hd
  rw [hall d hd]
  rintro rfl
  simp at hkind

theorem errors_failed (h : (s.findings source).errors = []) (e : RuntimeError) :
    ((s.checked source).reporter.runtimeError e.diagnostic).errors = [e.diagnostic] := by
  rw [Reporter.errors_runtimeError, errors_checked, h]
  rfl

theorem dump_eq (wanted : Bool) (lines : List String) :
    s.dump wanted lines = { s with machine := { s.machine with
      out := s.machine.out ++ unlines (if wanted then lines else []) } } := by
  cases wanted with
  | false => simp [dump, unlines, String.join]
  | true => simp [dump, foldl_print]

/-- A text is executed if no stage finds an error in it; otherwise nothing is. -/
theorem run_eq : s.run source =
    if (s.findings source).errors = [] then (s.checked source).execute (s.findings source).program
    else (.ok .staticError, s.checked source) := by
  simp only [checked, findings, Dumps.findings, Dumps.ofTokens, Dumps.ofTrees]
  by_cases hscan : (scan source).errors = []
  · by_cases hparse : ((scan source).parse s.nextId).errors = []
    · by_cases hresolve : (resolve ((scan source).parse s.nextId).program).errors = [] <;>
        simp [run, parseAndExecute, resolveAndExecute, dump_eq, report, hscan, hparse, hresolve,
          unlines_append, String.append_assoc]
    · simp [run, parseAndExecute, dump_eq, report, hscan, hparse, unlines_append,
        String.append_assoc]
  · simp [run, dump_eq, report, hscan]

/-- How a run ends, and what it leaves. -/
inductive Leads : Ending → Session → Prop where
  | rejected : (s.findings source).errors ≠ [] → Leads (.ok .staticError) (s.checked source)
  | finished {m : Machine} : (s.findings source).errors = [] →
      interpret s.limits (s.findings source).program (s.checked source).machine = .ok () m →
      Leads (.ok .ok) { s.checked source with machine := m }
  | failed {e : RuntimeError} {m : Machine} : (s.findings source).errors = [] →
      interpret s.limits (s.findings source).program (s.checked source).machine =
        .error (.error e) m →
      Leads (.ok .runtimeError) { s.checked source with
        machine := m, reporter := (s.checked source).reporter.runtimeError e.diagnostic }
  | broken {halt : Halt} {m : Machine} : (s.findings source).errors = [] →
      interpret s.limits (s.findings source).program (s.checked source).machine = .error halt m →
      Leads (.error halt.leaving) { s.checked source with machine := m }

theorem leads_run : s.Leads source (s.run source).1 (s.run source).2 := by
  rw [run_eq]
  split
  · next hnone =>
    unfold execute
    split
    · next hrun => exact .finished hnone hrun
    · next hrun => exact .failed hnone hrun
    · next hrun => exact .broken hnone hrun
  · next hsome => exact .rejected hsome

variable {s source}

/-- A run leads where its stages do. -/
theorem leads_of_run {t : Session} {ending : Ending} (h : s.run source = (ending, t)) :
    s.Leads source ending t := by
  have hleads := leads_run s source
  rw [h] at hleads
  exact hleads

/-- How a session ends follows from how the program does. -/
theorem execute_fst (s : Session) (program : List Stmt) : (s.execute program).1 =
    match outcome (interpret s.limits program s.machine) with
    | .ok _ => .ok .ok
    | .error (.error _) => .ok .runtimeError
    | .error halt => .error halt.leaving := by
  unfold execute
  cases interpret s.limits program s.machine with
  | ok => rfl
  | error halt m => cases halt <;> rfl

theorem ending_of_toOption {e : Ending} {status : Status} (h : e.toOption = some status) :
    e = .ok status := by
  cases e with
  | ok => exact congrArg Except.ok (Option.some.inj h)
  | error => cases h

/-- The same is found in a text, but for what is shown of it, where as many identities are used. -/
theorem findings_congr {t : Session} (source : String) (hnext : s.nextId = t.nextId) :
    s.findings source = { t.findings source with shown := (s.findings source).shown } := by
  unfold findings
  rw [hnext]
  exact Dumps.findings_congr _ _ _ _

/-- How a run ends follows from the text, and from the machine without what was printed before; how
errors and dumps are shown is of no account. -/
theorem ending_run_congr {t : Session} (hnext : s.nextId = t.nextId) (hlimits : s.limits = t.limits)
    (hmachine : s.machine = { t.machine with out := s.machine.out }) :
    (s.run source).1 = (t.run source).1 := by
  have hfound := findings_congr source hnext
  have herrors : (s.findings source).errors = (t.findings source).errors := by rw [hfound]
  have hprogram : (s.findings source).program = (t.findings source).program := by rw [hfound]
  have hchecked : (s.checked source).machine =
      { (t.checked source).machine with out := (s.checked source).machine.out } := by
    have hlocated : (s.findings source).located = (t.findings source).located := by rw [hfound]
    simp only [checked, hlocated]
    rw [hmachine]
  have houtcome := (heedless_interpret t.limits (t.findings source).program).outcome
    (t.checked source).machine (s.checked source).machine.out
  rw [run_eq, run_eq, herrors, hprogram]
  split
  · have hsame : (s.checked source).limits = t.limits := hlimits
    rw [execute_fst, execute_fst, hchecked, hsame, houtcome]
    rfl
  · rfl

end Session

end Lox
