import Lox.Proofs.Scan.Fuel
import Lox.Proofs.Session.Stages
import Lox.Proofs.Text.Lines

/-! The source lines that the errors of a run are shown with. -/
namespace Lox.Session

variable {s t : Session} {source : String} {ending : Ending}

/-- A run reports its errors in order, each with its wording and a line of the text that was run. -/
structure Told (s : Session) (source : String) (r : Reporter) : Prop where
  path : r.path = s.path
  lines : r.lines = Text.lines source
  printed : r.printed = s.reporter.printed ++
    unlines (r.errors.map fun d => r.format d (d.kind = .runtime))

/-- Errors found before a run are quoted from the source that was entered. -/
theorem told_checked (s : Session) (source : String) :
    Told s source (s.checked source).reporter := by
  have hstatic : ∀ d ∈ (s.findings source).errors, d.kind ≠ .runtime := by
    intro d hd
    rw [← errors_checked] at hd
    exact static_of_mem_checked s source hd
  simp only [checked, Reporter.reportAll_eq]
  refine ⟨rfl, rfl, ?_⟩
  refine congrArg (s.reporter.printed ++ unlines ·) (List.map_congr_left fun d hd => ?_)
  rw [decide_eq_false (hstatic d hd)]
  rfl

theorem Leads.told (h : s.Leads source ending t) : Told s source t.reporter := by
  have hchecked := told_checked s source
  cases h with
  | rejected | finished | broken => exact hchecked
  | @failed e m hnone hrun =>
    have herrors : (s.checked source).reporter.errors = [] :=
      (errors_checked s source).trans hnone
    refine ⟨hchecked.path, hchecked.lines, ?_⟩
    have hprinted : (s.checked source).reporter.printed = s.reporter.printed := by
      simpa [herrors, unlines, String.join] using hchecked.printed
    simp only [Reporter.errors_runtimeError, herrors]
    simp only [Reporter.runtimeError, Reporter.print, hprinted]
    simp [unlines, RuntimeError.diagnostic, Diagnostic.atToken, String.append_assoc, String.join]
    rfl

/-- An error is shown with a source line of the text that was run. -/
theorem Told.getElem?_lines {r : Reporter} {d : Diagnostic} {line : String} (h : Told s source r)
    (hquoted : r.quoted? d = some line) :
    0 < d.line ∧ (Text.lines source)[d.line.toNat - 1]? = some line := by
  have hline : r.sourceLine? d.line = some line := (Option.filter_eq_some_iff.mp hquoted).1
  simp only [Reporter.sourceLine?, h.lines] at hline
  split at hline
  · next hpos => exact ⟨hpos, hline⟩
  · cases hline

/-- Every error of a run is printed, and if a line is quoted with it, the line that its number names
begins with what is quoted, the lines counted by line feeds. That takes that nothing else ends a
line before the one that is named, but for a carriage return that a line feed follows. -/
theorem run_quotes (s : Session) (source : String) :
    let r := (s.run source).2.reporter
    r.printed = s.reporter.printed ++
        unlines (r.errors.map fun d => r.format d (d.kind = .runtime)) ∧
      ∀ d ∈ r.errors, ∀ line, r.quoted? d = some line →
        (∀ l ∈ (source.toList.splitOn '\n').take (d.line.toNat - 1), Text.isPlain l = true) →
        ∃ l, (source.toList.splitOn '\n')[d.line.toNat - 1]? = some l ∧ line.toList <+: l := by
  have htold := (leads_run s source).told
  refine ⟨htold.printed, fun d _ line hquoted hplain => ?_⟩
  obtain ⟨-, hline⟩ := htold.getElem?_lines hquoted
  obtain ⟨l, hl, hcut⟩ := Text.getElem?_lines hplain hline
  exact ⟨l, hl, hcut ▸ List.takeWhile_prefix _⟩

/-- A stray character on the second line. -/
theorem run_quotes_strayCharacter :
    let r := ((Session.new (.new true false) (some "a.lox") ⟨false, false⟩ (fun _ => 0)).run
      "// a\n@").2.reporter
    ∃ d ∈ r.errors, r.quoted? d = some "@" ∧
      ∃ l, ("// a\n@".toList.splitOn '\n')[1]? = some l ∧ "@".toList <+: l := by
  let s := Session.new (.new true false) (some "a.lox") ⟨false, false⟩ (fun _ => 0)
  let d : Diagnostic := (⟨.unexpectedCharacter '@', 2⟩ : ScanError).diagnostic
  have hscan : scan "// a\n@" = ⟨[], .endOfInput 2, [⟨.unexpectedCharacter '@', 2⟩]⟩ :=
    (scan_eq _).trans rfl
  have herrors : (s.run "// a\n@").2.reporter.errors = [d] := by
    rw [run, hscan]
    rfl
  have hquoted : (s.run "// a\n@").2.reporter.quoted? d = some "@" := by
    rw [run, hscan]
    decide +kernel
  have hd : d ∈ (s.run "// a\n@").2.reporter.errors := by simp [herrors]
  exact ⟨d, hd, hquoted, (run_quotes s "// a\n@").2 d hd "@" hquoted (by decide +kernel)⟩

/-- A form feed in a comment ends a line for the quotation and none for the number: the second line
is an `@`, and what is quoted for it is the rest of the comment in the first. -/
theorem run_quotes_formFeed :
    let s := Session.new (.new true false) (some "a.lox") ⟨false, false⟩ (fun _ => 0)
    let source := "// a\x0cb@\n@"
    let r := (s.run source).2.reporter
    r.errors.map (fun d => (d.line, r.quoted? d)) = [(2, some "b@")] ∧
      source.toList.splitOn '\n' = ["// a\x0cb@".toList, "@".toList] ∧
      ¬ "b@".toList <:+: "@".toList := by
  have hscan : scan "// a\x0cb@\n@" = ⟨[], .endOfInput 2, [⟨.unexpectedCharacter '@', 2⟩]⟩ :=
    (scan_eq _).trans rfl
  refine ⟨?_, by decide +kernel, by decide⟩
  rw [run, hscan]
  decide +kernel

end Lox.Session
