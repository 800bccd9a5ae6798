import Lox.CommandLine
import Lox.Proofs.Scan.Fuel
import Lox.Proofs.Session.Stages

/-! The status that a run returns, the exit code, and the errors recorded tell the same. -/
namespace Lox

/-- A file is there, and is read as a text. -/
def ReadAs (files : String → Option ByteArray) (path text : String) : Prop :=
  '\x00' ∉ path.toList ∧ ∃ bytes decoded, files path = some bytes ∧
    Text.decodeUtf8 bytes = .ok decoded ∧ Text.newlines decoded = text

namespace Session

variable {s t : Session} {source : String} {status : Status}

/-- The exit code the reporter would give is that of the status. -/
theorem Leads.exitCode (h : s.Leads source (.ok status) t) :
    t.reporter.exitCode = status.code := by
  cases h with
  | rejected hsome =>
    have hhad : (s.checked source).reporter.hadError = true := by
      simp [checked, Reporter.reportAll_eq, hsome]
    simp [Reporter.exitCode, hhad, Status.code]
  | finished hnone hrun =>
    simp [checked, hnone, Reporter.exitCode, Reporter.register, Reporter.reset, Status.code]
  | failed hnone hrun =>
    simp [checked, hnone, Reporter.exitCode, Reporter.register, Reporter.reset,
      Reporter.runtimeError, Reporter.print, Status.code]

/-- The end of the program on a file is the status of the run of its text in a new session. -/
theorem exit_run_file {arguments : List String} {a : CommandLine.Arguments} {path : String}
    {files : String → Option ByteArray} {clock : Nat → Float} {limits : Limits}
    (hargs : CommandLine.read arguments = .run a) (hpath : a.file = some path)
    (hread : ReadAs files path source) (h : ((a.session clock limits).run source).1 = .ok status)
    (input : String) :
    (CommandLine.run arguments files input clock limits).exit = status.code := by
  obtain ⟨hnul, bytes, decoded, hbytes, hdecoded, rfl⟩ := hread
  have hrun : (a.session clock limits).run (Text.newlines decoded) =
      (.ok status, ((a.session clock limits).run (Text.newlines decoded)).2) := Prod.ext h rfl
  have hfile : (a.session clock limits).runFile path (some bytes) =
      (a.session clock limits).run (Text.newlines decoded) := by
    simp [runFile, hnul, hdecoded]
  simp only [CommandLine.run, hargs, hpath, CommandLine.runFile, hbytes, hfile]
  rw [hrun]
  exact (leads_of_run hrun).exitCode

/-- The status a run returns is the exit code. With a static error, one stage has found errors and
nothing was executed: no limit on execution makes a difference, and all that was printed are the
dumps. With a runtime error it is the only one recorded, and without an error there is none. What
the program returns on a file that is read as the text is the status in a new session, whatever
limits both have. -/
theorem run_status (s t : Session) (source : String) (status : Status)
    (h : s.run source = (.ok status, t)) :
    t.reporter.exitCode = status.code ∧
      (status = .staticError →
        t.reporter.errors ≠ [] ∧
        (∃ kind ∈ [Diagnostic.Kind.scan, .parse, .resolve],
          ∀ d ∈ t.reporter.errors, d.kind = kind) ∧
        (∃ resolution, t.machine = { s.machine with
          resolution, out := s.machine.out ++ unlines (s.findings source).shown }) ∧
        ∀ limits, { s with limits }.run source = (.ok .staticError, { t with limits })) ∧
      (status = .runtimeError → ∃ d, t.reporter.errors = [d] ∧ d.kind = .runtime) ∧
      (status = .ok → t.reporter.errors = []) ∧
      ∀ reporter path dumps clock limits, s = Session.new reporter path dumps clock limits →
        ∀ arguments a file files input, CommandLine.read arguments = .run a →
          a.file = some file → ReadAs files file source →
          (CommandLine.run arguments files input clock limits).exit = status.code := by
  have hleads := leads_of_run h
  refine ⟨hleads.exitCode, ?_, ?_, ?_, ?_⟩
  · rintro rfl
    cases hleads with
    | rejected hsome =>
      rw [errors_checked]
      refine ⟨hsome, Dumps.findings_errors _ _ _, ⟨_, rfl⟩, fun limits => ?_⟩
      rw [run_eq]
      exact if_neg hsome
  · rintro rfl
    cases hleads with
    | @failed e m hnone hrun => exact ⟨e.diagnostic, errors_failed s source hnone e, rfl⟩
  · rintro rfl
    cases hleads with
    | finished hnone hrun => exact (errors_checked s source).trans hnone
  · rintro reporter path dumps clock limits rfl arguments a file files input hargs hfile hread
    refine exit_run_file hargs hfile hread ?_ input
    have hsame : ((Session.new reporter path dumps clock limits).run source).1 =
        ((a.session clock limits).run source).1 := ending_run_congr rfl rfl rfl
    rw [← hsame, h]

/-- The call of what is no function, in a session with dumps and in a file. -/
theorem run_status_calledNil :
    let s := Session.new (.new true true) none ⟨true, true⟩ (fun _ => 0)
    (s.run "nil();").1 = .ok .runtimeError ∧ (s.run "nil();").2.reporter.exitCode = 70 ∧
      (CommandLine.run ["--no-color", "a.lox"] (fun _ => some "nil();".toUTF8) ""
        (fun _ => 0)).exit = 70 := by
  let s := Session.new (.new true true) none ⟨true, true⟩ (fun _ => 0)
  have hending : (s.run "nil();").1 = .ok .runtimeError := by
    have hscan : scan "nil();" = ⟨[⟨.kwNil, "nil", .nil, 1⟩, ⟨.leftParen, "(", .nil, 1⟩,
        ⟨.rightParen, ")", .nil, 1⟩, ⟨.semicolon, ";", .nil, 1⟩], .endOfInput 1, []⟩ :=
      (scan_eq _).trans rfl
    apply ending_of_toOption
    rw [run, hscan]
    decide +kernel
  have hread : ReadAs (fun _ => some "nil();".toUTF8) "a.lox" "nil();" :=
    ⟨by decide, _, "nil();", rfl, by with_unfolding_all rfl, by decide +kernel⟩
  have hargs : CommandLine.read ["--no-color", "a.lox"] =
      .run ⟨some "a.lox", true, false, false, false, []⟩ := by with_unfolding_all rfl
  have hstatus := run_status s (s.run "nil();").2 "nil();" .runtimeError (Prod.ext hending rfl)
  obtain ⟨hcode, -, -, -, hexit⟩ := hstatus
  exact ⟨hending, hcode, hexit _ _ _ _ _ rfl _ _ "a.lox" _ "" hargs rfl hread⟩

end Session

end Lox
