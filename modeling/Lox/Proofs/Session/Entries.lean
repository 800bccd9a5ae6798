import Lox.Proofs.Session.Stages

/-! A session that is fed entry by entry, and what is seen of each. What was reported follows from
how the entry ended and from the errors that were recorded. -/
namespace Lox

/-- What is seen of an entry: how its run ended, the errors recorded with the exit code they call
for, what was printed and what was reported, and the globals as `print` shows them. -/
structure Seen where
  ending : Ending
  errors : List Diagnostic
  exitCode : Int
  out : String
  err : String
  globals : List (String × String)

namespace Session

/-- A session on no file, before its first entry, in which calls may be nested to any depth. -/
def unlimited (color : Bool) (dumps : Dumps) (clock : Nat → Float) (fuel : Nat) : Session :=
  { Session.new (.new true color) none dumps clock with limits := ⟨fuel, none⟩ }

/-- Runs an entry and takes away what was printed and reported. -/
def enter (s : Session) (source : String) : Seen × Session :=
  let (ending, s) := s.run source
  let (_, s) := Session.guard (ending, s)
  let ((out, err), t) := s.drain
  (⟨ending, s.reporter.errors, s.reporter.exitCode, out, err, s.globals⟩, t)

def enterAll (s : Session) : List String → List Seen
  | [] => []
  | source :: rest => (s.enter source).1 :: enterAll (s.enter source).2 rest

variable {s t : Session} {source : String}

/-- A run keeps the path, and reports nothing, one error of the running program, or errors found
before it ran. -/
structure Reports (s : Session) (p : Ending × Session) : Prop where
  path : p.2.path = s.path
  reporter : (p.1 = .ok .runtimeError ∧ ∃ d, p.2.reporter = s.reporter.runtimeError d) ∨
    (p.1 ≠ .ok .runtimeError ∧ ∃ ds, p.2.reporter = s.reporter.reportAll ds)

/-- A run reports what its stages found, and nothing else. -/
theorem reports_run (s : Session) (source : String) :
    Reports { s with reporter := s.reporter.reset.register s.path source } (s.run source) := by
  have hleads := leads_run s source
  generalize s.run source = p at hleads
  obtain ⟨ending, t⟩ := p
  cases hleads with
  | rejected => exact ⟨rfl, .inr ⟨by simp, _, rfl⟩⟩
  | finished => exact ⟨rfl, .inr ⟨by simp, _, rfl⟩⟩
  | broken => exact ⟨rfl, .inr ⟨by simp, _, rfl⟩⟩
  | @failed e m hnone hrun =>
    have hreporter : (s.checked source).reporter = s.reporter.reset.register s.path source := by
      simp [checked, hnone]
    exact ⟨rfl, .inl ⟨rfl, e.diagnostic, by rw [hreporter]⟩⟩

theorem path_run (s : Session) (source : String) : (s.run source).2.path = s.path :=
  (reports_run s source).path

/-- Two runs of a text with the same end and the same errors report the same, if they begin with
nothing reported. -/
theorem reporter_run_congr (hfatal : s.reporter.fatal = t.reporter.fatal)
    (hcolor : s.reporter.color = t.reporter.color) (hpath : s.path = t.path)
    (hprinted : s.reporter.printed = t.reporter.printed)
    (hending : (s.run source).1 = (t.run source).1)
    (herrors : (s.run source).2.reporter.errors = (t.run source).2.reporter.errors) :
    (s.run source).2.reporter = (t.run source).2.reporter := by
  have hs := (reports_run s source).reporter
  have ht := (reports_run t source).reporter
  have hbegin : s.reporter.reset.register s.path source =
      t.reporter.reset.register t.path source := by
    simp [Reporter.reset, Reporter.register, hfatal, hcolor, hpath, hprinted]
  simp only [hbegin, hending] at hs
  have hnone : (t.reporter.reset.register t.path source).errors = [] := rfl
  rcases hs with ⟨he, d, hd⟩ | ⟨he, ds, hds⟩ <;> rcases ht with ⟨he', d', hd'⟩ | ⟨he', ds', hds'⟩
  · rw [hd, hd'] at herrors ⊢
    have hdd : d = d' := by simpa [hnone] using herrors
    rw [hdd]
  · exact absurd he he'
  · exact absurd he' he
  · rw [hds, hds', Reporter.errors_reportAll, Reporter.errors_reportAll, hnone] at herrors
    rw [hds, hds']
    exact congrArg _ (by simpa using herrors)

end Session

end Lox
