import Lox.Proofs.Parse.Making
import Lox.Proofs.Parse.Programs
import Lox.Proofs.Reference.Kinship
import Lox.Proofs.Resolve.Walk
import Lox.Proofs.Scan.Joining

/-! Texts without an error found before they run, and the program of two of them on lines of their
own. -/
namespace Lox

theorem Stmt.bareAll_eq_map (ss : List Stmt) : Stmt.bareAll ss = ss.map Stmt.bare := by
  induction ss with
  | nil => rfl
  | cons s ss ih => simp [Stmt.bareAll, ih]

namespace Reference

open Lexical (lineAfter)

/-- No line at all. -/
def nowhere : Int → Int := fun _ => 0

/-- No error is found in a text before it runs, and it is read as a program, lines and identities
apart. -/
structure Reads (source : String) (program : List Stmt) : Prop where
  scanned : (scan source).errors = []
  parsed : ((scan source).parse 0).errors = []
  resolved : (resolve ((scan source).parse 0).program).errors = []
  program : Stmt.recastAll nowhere ((scan source).parse 0).program = program

variable {p q : List Stmt} {s t : String}

/-- Whether there are errors does not depend on lines. -/
theorem resolve_errors_congr {g : Int → Int} (h : Stmt.recastAll g p = Stmt.recastAll g q) :
    (resolve p).errors = [] ↔ (resolve q).errors = [] := by
  have herrors := congrArg (fun p => (resolve p).errors) h
  simp only [resolve_recastAll] at herrors
  rw [← List.map_eq_nil_iff (f := Resolve.reline g), herrors, List.map_eq_nil_iff]

theorem recastAll_of_recast {g : Int → Int}
    (h : Stmt.bareAll p = Stmt.bareAll (Stmt.recastAll g q)) :
    Stmt.recastAll nowhere p = Stmt.recastAll nowhere q := by
  rw [Stmt.recastAll_congr h, Stmt.recastAll_recastAll]
  rfl

theorem Reads.join (hs : Reads s p) (ht : Reads t q) : Reads (s ++ "\n" ++ t) (p ++ q) := by
  obtain ⟨htokens, herrors⟩ := Lexical.scan_join hs.scanned (t := t)
  obtain ⟨hparsed, hbare⟩ := parse_join (· + lineAfter s.toList) hs.parsed ht.parsed
    (scan (s ++ "\n" ++ t)).finish 0
  obtain ⟨-, hfresh, htidy⟩ := parse_neat (scan (s ++ "\n" ++ t)).tokens
    (scan (s ++ "\n" ++ t)).finish 0
  rw [← htokens] at hparsed hbare
  rw [Stmt.bareAll_eq_map] at hbare
  obtain ⟨front, back, hjoint, hfront, hback⟩ := List.map_eq_append_iff.mp hbare
  rw [hjoint] at hfresh htidy
  have hp := Stmt.recastAll_congr (g := nowhere) ((Stmt.bareAll_eq_map front).trans hfront)
  have hq := recastAll_of_recast ((Stmt.bareAll_eq_map back).trans hback)
  refine ⟨herrors.mpr ht.scanned, hparsed, ?_, ?_⟩
  · have hresolved := resolve_errors_append htidy hfresh.nodup
    rw [(resolve_errors_congr hp).mpr hs.resolved, (resolve_errors_congr hq).mpr ht.resolved]
      at hresolved
    rw [Scan.parse, hjoint]
    exact hresolved
  · rw [Scan.parse, hjoint, Stmt.recastAll_append, hp, hq]
    rw [← hs.program, ← ht.program]
    rfl

/-! Running a text that is read as a program. -/

/-- Two programs run one after the other are one program run. -/
theorem interpret_append (fuel : Nat) (p q : List Stmt) :
    interpret fuel (p ++ q) = interpret fuel p >>= fun _ => interpret fuel q := by
  induction p with
  | nil => rfl
  | cons s ss ih =>
    rw [List.cons_append, interpret, interpret, ih, bind_assoc]

/-- How a text ends whose program ends so. -/
def ending : EStateM.Result Halt State Unit → Ending
  | .ok .. => .ok .ok
  | .error (.error _) _ => .ok .runtimeError
  | .error halt _ => .error halt.leaving

/-- The errors that are recorded of a program that ends so. -/
def errors : EStateM.Result Halt State Unit → List Diagnostic
  | .error (.error e) _ => [e.diagnostic]
  | _ => []

/-- The state that is left when a program ends so. -/
def left : EStateM.Result Halt State Unit → State
  | .ok _ s | .error _ s => s

variable {x : EStateM.Result Halt State Unit} {g : Int → Int} {before : String} {r : Session}

theorem ending_recast : ending (Recast g before x) = ending x := by
  rcases x with ⟨_, _⟩ | ⟨halt, _⟩
  · rfl
  · cases halt <;> rfl

theorem left_recast : left (Recast g before x) = (left x).recast g before := by
  cases x <;> rfl

theorem eq_ok_of_ending (h : ending x = .ok .ok) : x = .ok () (left x) := by
  rcases x with ⟨_, _⟩ | ⟨halt, _⟩
  · rfl
  · cases halt <;> cases h

/-- What an error says and the text it points at. -/
def said (d : Diagnostic) : String × Option String := (d.message, d.lexeme?)

theorem errors_recast : (errors (Recast g before x)).map said = (errors x).map said := by
  rcases x with ⟨_, _⟩ | ⟨halt, _⟩
  · rfl
  · cases halt <;> rfl

theorem execute_eq (r : Session) (p : List Stmt) :
    r.execute p =
      let x := interpret r.fuel p r.state
      (⟨ending x, errors x, (left x).out, (left x).shown⟩, { r with state := left x }) := by
  simp only [Session.execute]
  cases interpret r.fuel p r.state with
  | ok => rfl
  | error halt => cases halt <;> rfl

variable {source : String}

/-- A text that is read as a program runs as the program does. -/
theorem run_of_reads (h : Reads source p) (hdumps : r.dumps = ⟨false, false⟩) :
    ∃ q nextId, Stmt.recastAll nowhere q = p ∧
      let x := interpret r.fuel q r.state
      r.run source = (⟨ending x, errors x, (left x).out, (left x).shown⟩,
        ⟨left x, nextId, r.dumps, r.fuel⟩) := by
  obtain ⟨herrors, hsame⟩ := parse_renumbered (scan source).tokens (scan source).finish r.nextId 0
  have hprogram := Stmt.recastAll_congr (g := nowhere) hsame
  have hresolved : (resolve ((scan source).parse r.nextId).program).errors = [] :=
    (resolve_errors_congr hprogram).mpr h.resolved
  have hparsed : ((scan source).parse r.nextId).errors = [] := herrors.trans h.parsed
  refine ⟨((scan source).parse r.nextId).program, ((scan source).parse r.nextId).nextId,
    hprogram.trans h.program, ?_⟩
  refine Eq.trans ?_ (execute_eq { r with nextId := ((scan source).parse r.nextId).nextId } _)
  have hquiet (r : Session) (lines : List String) : r.dump false lines = r := rfl
  simp [Session.run, hdumps, hquiet, h.scanned, Session.parseAndExecute, hparsed,
    Session.resolveAndExecute, hresolved]

/-- A text in which no error is found before it runs is read as a program. -/
theorem reads_of_run (hdumps : r.dumps = ⟨false, false⟩)
    (h : (r.run source).1.ending ≠ .ok .staticError) : ∃ p, Reads source p := by
  obtain ⟨herrors, hsame⟩ := parse_renumbered (scan source).tokens (scan source).finish r.nextId 0
  have hquiet (r : Session) (lines : List String) : r.dump false lines = r := rfl
  have hscanned : (scan source).errors = [] :=
    Classical.byContradiction fun hne => h (by simp [Session.run, hne, Session.observe])
  simp only [Session.run, hdumps, hquiet, hscanned, Session.parseAndExecute] at h
  have hparsed : ((scan source).parse r.nextId).errors = [] :=
    Classical.byContradiction fun hne => h (by simp [hne, Session.observe])
  simp only [hparsed, Session.resolveAndExecute] at h
  have hresolved : (resolve ((scan source).parse r.nextId).program).errors = [] :=
    Classical.byContradiction fun hne => h (by simp [hne, Session.observe])
  exact ⟨_, hscanned, herrors.symm.trans hparsed,
    (resolve_errors_congr (g := nowhere) (Stmt.recastAll_congr hsame)).mp hresolved, rfl⟩

end Reference

end Lox
