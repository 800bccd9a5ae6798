import Lox.Proofs.Coloring
import Lox.Proofs.Parse.Origins
import Lox.Proofs.Parse.Renumbering
import Lox.Proofs.Resolve.Origins
import Lox.Proofs.Scan.Characters
import Lox.Proofs.Session.Origins

/-! Dumps and colors are for the eye only: what a session comes to is the same with them, entry by
entry. -/
namespace Lox

open Text (Colorless)

/-- Trees are rendered without their identities. -/
theorem render_renumbered (tokens : List Token) (finish : Token) (m n : NodeId) :
    (parse tokens finish m).program.map Stmt.render =
      (parse tokens finish n).program.map Stmt.render := by
  rw [← Stmt.render_recastAll id, Stmt.recastAll_congr (parse_renumbered tokens finish m n).2,
    Stmt.render_recastAll]

/-- The text of a token is without escape characters. -/
def Token.Plain (token : Token) : Prop := Colorless token.lexeme

/-- A text without escapes has tokens without escapes. -/
theorem plain_of_scan {source : String} (h : Colorless source) :
    ∀ token ∈ (scan source).tokens, token.Plain :=
  fun _ ht => h.of_subset (lexeme_subset_of_scan ht)

theorem Halt.plain_leaving {halt : Halt} (h : ∀ e, halt = .error e → e.diagnostic.Plain) :
    halt.leaving.Plain := by
  cases halt with
  | error e => exact h e rfl
  | tooDeep => trivial
  | dangling => exact ⟨.ofList (by decide), .ofList (by decide)⟩
  | outOfFuel => exact ⟨.ofList (by decide), .ofList (by decide)⟩

namespace Dumps

variable (dumps : Dumps) (nextId : NodeId) (source : String)

/-- What the dumps show of a text: its tokens, and what was parsed of it if they are in order. -/
def text : String :=
  let scanned := scan source
  unlines (dumps.ofTokens scanned ++
    if scanned.errors.isEmpty then dumps.ofTrees (scanned.parse 0).program else [])

/-- What is shown of a text does not depend on the texts before it. -/
theorem unlines_shown : unlines (dumps.findings nextId source).shown = dumps.text source := by
  have hrender := render_renumbered (scan source).tokens (scan source).finish nextId 0
  simp only [findings, text, ofTrees, Scan.parse, hrender]
  cases (scan source).errors.isEmpty with
  | false => simp
  | true =>
    simp only [Bool.not_true, Bool.false_eq_true, if_false, if_true]
    split <;> rfl

theorem text_nothing : text ⟨false, false⟩ source = "" := by
  simp [text, ofTokens, ofTrees, unlines, String.join]

variable {source}

/-- The errors found in a text are without escape characters if the text is. -/
theorem plain_findings (h : Colorless source) :
    ∀ d ∈ (dumps.findings nextId source).errors, d.Plain := by
  have hfinish : (scan source).finish.Plain := .ofList (by decide)
  simp only [findings]
  split
  · rintro _ hd
    obtain ⟨e, he, rfl⟩ := List.mem_map.mp hd
    exact ScanError.plain (h.of_subset (excerpt_subset_of_scan he))
  · split
    · rintro _ hd
      obtain ⟨e, he, rfl⟩ := List.mem_map.mp hd
      exact SyntaxError.plain (parse_blames (plain_of_scan h) hfinish nextId e he)
    · next hparse =>
      have hnone : ((scan source).parse nextId).errors = [] := by simpa using hparse
      rintro _ hd
      obtain ⟨e, he, rfl⟩ := List.mem_map.mp hd
      exact ScopeError.plain (resolve_blames (plain_of_scan h) hnone e he)

end Dumps

/-- What is seen of an entry once the colors are taken out of what was reported. -/
def Seen.faded (color : Bool) (seen : Seen) : Seen :=
  { seen with err := if color then Text.uncolored seen.err else seen.err }

/-- What is seen of an entry with something printed ahead of what it prints. -/
def Seen.behind (text : String) (seen : Seen) : Seen := { seen with out := text ++ seen.out }

namespace Session

variable {s t : Session} {dumps : Dumps} {before source : String}

theorem color_settle (ending : Ending) (r : Reporter) : (settle ending r).color = r.color := by
  cases ending with
  | ok status => rfl
  | error leaving => exact r.color_leave leaving

theorem color_enter (s : Session) (source : String) :
    (s.enter source).2.reporter.color = s.reporter.color := by
  rw [enter_eq]
  refine (color_settle _ _).trans ?_
  rcases (reports_run s source).reporter with ⟨-, d, hd⟩ | ⟨-, ds, hds⟩
  · rw [hd]
    rfl
  · rw [hds]
    exact (reportAll_settings _ ds).2

/-- A session that shows dumps and colors goes along with one that shows neither: but for what is
shown it is in the same state, with the dumps printed ahead. All the other works on is without
escape characters. -/
structure Echoes (dumps : Dumps) (before : String) (s t : Session) : Prop where
  machine : s.machine = t.machine.putBefore before
  reporter : s.reporter.Shades t.reporter
  nextId : s.nextId = t.nextId
  limits : s.limits = t.limits
  path : s.path = t.path
  dumps : s.dumps = dumps
  silent : t.dumps = ⟨false, false⟩
  pathPlain : ∀ p ∈ t.path, Colorless p
  named : t.machine.Holds (Value.From (Task.Named Token.Plain))

/-- The stages before execution add the dumps, and nothing else. -/
theorem Echoes.checked (h : Echoes dumps "" s t) (hout : t.machine.out = "")
    (hsource : Colorless source) :
    Echoes dumps (dumps.text source) (s.checked source) (t.checked source) := by
  have hshown : unlines (s.findings source).shown = dumps.text source := by
    rw [Session.findings, h.dumps, Dumps.unlines_shown]
  have hnothing : unlines (t.findings source).shown = "" := by
    rw [Session.findings, h.silent, Dumps.unlines_shown, Dumps.text_nothing]
  have hfound := findings_congr source h.nextId
  have herrors : (s.findings source).errors = (t.findings source).errors := by rw [hfound]
  have hlocated : (s.findings source).located = (t.findings source).located := by rw [hfound]
  have hid : (s.findings source).nextId = (t.findings source).nextId := by rw [hfound]
  refine ⟨?_, ?_, hid, h.limits, h.path, h.dumps, h.silent, h.pathPlain, ?_⟩
  · simp only [Session.checked, h.machine, hlocated, hshown, hnothing]
    simp [Machine.putBefore, hout]
  · have hplain : ∀ d ∈ (t.findings source).errors, d.Plain :=
      Dumps.plain_findings _ _ hsource
    simp only [Session.checked, herrors, h.path]
    exact (h.reporter.register h.pathPlain hsource).reportAll hplain
  · exact ⟨h.named.locals, h.named.globals⟩

/-- An execution goes the same way whatever was printed before. -/
theorem Echoes.execute (h : Echoes dumps before s t) {program : List Stmt}
    (hprogram : (Task.stmts program).Named Token.Plain) :
    (s.execute program).1 = (t.execute program).1 ∧
      Echoes dumps before (s.execute program).2 (t.execute program).2 ∧
      ∀ leaving, (t.execute program).1 = .error leaving → leaving.Plain := by
  have hnamed := stays_interpret Task.heritable_named t.limits hprogram h.named
  have hhonest := honest_interpret t.limits program t.machine
  have hsame := heedless_interpret t.limits program before t.machine
  rw [← h.machine] at hsame
  nth_rewrite 1 [← h.limits] at hsame
  simp only [Stays, Ends] at hnamed hhonest
  unfold Session.execute
  rw [hsame]
  cases hrun : interpret t.limits program t.machine with
  | ok a m =>
    rw [hrun] at hnamed
    refine ⟨rfl, { h with machine := rfl, named := hnamed.1 }, fun leaving he => ?_⟩
    cases he
  | error halt m =>
    rw [hrun] at hnamed hhonest
    have hplain (e : RuntimeError) (he : halt = .error e) : e.diagnostic.Plain := by
      obtain ⟨k, hk, hblames⟩ := hnamed.2 e he
      exact RuntimeError.plain (hhonest e he) (hk k .refl e.token hblames)
    have hnext : Echoes dumps before { s with machine := m.putBefore before }
        { t with machine := m } :=
      { h with machine := rfl, named := hnamed.1 }
    -- an error of the program is reported by the run, everything else by the guard around it
    cases halt with
    | error e =>
      have hreporter := h.reporter.runtimeError (hplain e rfl)
      refine ⟨rfl, { hnext with reporter := hreporter }, fun leaving he => ?_⟩
      cases he
    | _ =>
      refine ⟨rfl, hnext, fun leaving he => ?_⟩
      cases he
      exact Halt.plain_leaving hplain

/-- The run of a text goes the same way, with the dumps printed ahead. -/
theorem Echoes.run (h : Echoes dumps "" s t) (hout : t.machine.out = "")
    (hsource : Colorless source) :
    (s.run source).1 = (t.run source).1 ∧
      Echoes dumps (dumps.text source) (s.run source).2 (t.run source).2 ∧
      ∀ leaving, (t.run source).1 = .error leaving → leaving.Plain := by
  have hchecked := h.checked hout hsource
  have hfound := findings_congr source h.nextId
  have herrors : (s.findings source).errors = (t.findings source).errors := by rw [hfound]
  have hprogram : (s.findings source).program = (t.findings source).program := by rw [hfound]
  rw [run_eq, run_eq, herrors, hprogram]
  split
  · have hnamed := t.dumps.named_findings t.nextId source
    exact hchecked.execute (hnamed.mono (plain_of_scan hsource))
  · refine ⟨rfl, hchecked, fun leaving he => ?_⟩
    cases he

/-- Handling the same ending keeps two reporters alike up to colors. -/
theorem shades_settle {r r' : Reporter} {ending : Ending} (h : r.Shades r')
    (hl : ∀ leaving, ending = .error leaving → leaving.Plain) :
    (settle ending r).Shades (settle ending r') := by
  cases ending with
  | ok status => exact h
  | error leaving => exact h.leave (hl leaving rfl)

/-- An entry is seen alike, but for the dumps ahead and the colors, and leaves the sessions
alike. -/
theorem Echoes.enter (h : Echoes dumps "" s t) (hout : t.machine.out = "")
    (hsource : Colorless source) :
    (s.enter source).1.faded s.reporter.color =
        (t.enter source).1.behind (dumps.text source) ∧
      Echoes dumps "" (s.enter source).2 (t.enter source).2 := by
  obtain ⟨hending, hrun, hplain⟩ := h.run hout hsource
  have hsettled : (settle (s.run source).1 (s.run source).2.reporter).Shades
      (settle (t.run source).1 (t.run source).2.reporter) := by
    rw [hending]
    exact shades_settle hrun.reporter hplain
  have hglobals : (s.run source).2.globals = (t.run source).2.globals := by
    simp only [Session.globals, hrun.machine, putBefore_globals]
  have hcolor : (settle (s.run source).1 (s.run source).2.reporter).color = s.reporter.color := by
    rw [← color_enter s source, enter_eq]
  have herr := hsettled.uncolored
  rw [hcolor] at herr
  rw [enter_eq, enter_eq]
  refine ⟨?_, { hrun with machine := ?_, reporter := hsettled.drained, named := ?_ }⟩
  · have hprinted : (s.run source).2.machine.out =
        dumps.text source ++ (t.run source).2.machine.out := by
      rw [hrun.machine, Machine.putBefore]
    simp only [Seen.faded, Seen.behind, Seen.mk.injEq]
    exact ⟨hending, hsettled.errors, hsettled.exitCode, hprinted, herr, hglobals⟩
  · simp [hrun.machine, Machine.putBefore]
  · exact ⟨hrun.named.locals, hrun.named.globals⟩

/-- Over all entries, colors and dumps are all that sessions differ in. -/
theorem Echoes.enterAll {sources : List String} (h : Echoes dumps "" s t)
    (hout : t.machine.out = "") (hsources : ∀ source ∈ sources, Colorless source) :
    (s.enterAll sources).map (·.faded s.reporter.color) =
      List.zipWith (fun source seen => seen.behind (dumps.text source)) sources
        (t.enterAll sources) := by
  induction sources generalizing s t with
  | nil => rfl
  | cons source rest ih =>
    rw [List.forall_mem_cons] at hsources
    obtain ⟨hseen, hnext⟩ := h.enter hout hsources.1
    have hdrained : (t.enter source).2.machine.out = "" := by rw [enter_eq]
    have hrest := ih hnext hdrained hsources.2
    rw [color_enter] at hrest
    simp only [Session.enterAll, List.map_cons, List.zipWith_cons_cons, hseen, hrest]

/-- Dumps and colors show a session, and change nothing else of it. With them, every entry of a
session comes to the same, records the same errors and leaves the same globals; it prints the same
behind the dumps, which show the entry itself, whatever was entered before it; and it reports the
same, once the colors are taken out. -/
theorem enterAll_shown (fatal : Bool) (path : Option String) (clock : Nat → Float) (limits : Limits)
    (color : Bool) (dumps : Dumps) (sources : List String)
    (hpath : ∀ p ∈ path, Colorless p) (hsources : ∀ source ∈ sources, Colorless source) :
    let session (colored : Bool) (shown : Dumps) : Session :=
      { Session.new (.new fatal colored) path shown clock with limits }
    ((session color dumps).enterAll sources).map (·.faded color) =
      List.zipWith (fun source seen => seen.behind (dumps.text source)) sources
        ((session false ⟨false, false⟩).enterAll sources) := by
  intro session
  have hreporter (colored : Bool) (shown : Dumps) : (session colored shown).reporter =
      .new (if path.isNone then false else fatal) colored := by
    cases path <;> rfl
  have hshades : (session color dumps).reporter.Shades (session false ⟨false, false⟩).reporter := by
    rw [hreporter, hreporter]
    exact .intro renders_empty (by simp [Reporter.new]) (by simp [Reporter.new])
  have hechoes : Echoes dumps "" (session color dumps) (session false ⟨false, false⟩) :=
    { machine := rfl, reporter := hshades, nextId := rfl, limits := rfl, path := rfl, dumps := rfl
      silent := rfl, pathPlain := hpath
      named := Machine.Holds.start clock fun n => .of_ne (by simp) }
  have hall := hechoes.enterAll rfl hsources
  rw [hreporter] at hall
  exact hall

/-- An entry that prints and one that is no program, with their tokens and trees shown and in
colors. -/
theorem enterAll_shown_strayCharacter :
    let session (colored : Bool) (shown : Dumps) : Session :=
      { Session.new (.new true colored) (some "main.lox") shown (fun _ => 0) with
        limits := ⟨9, none⟩ }
    let sources := ["print true;", "@"]
    let plain := (session false ⟨false, false⟩).enterAll sources
    (∀ p ∈ some "main.lox", Colorless p) ∧ (∀ source ∈ sources, Colorless source) ∧
      ((session true ⟨true, true⟩).enterAll sources).map (·.faded true) =
        List.zipWith (fun source seen => seen.behind (Dumps.text ⟨true, true⟩ source)) sources
          plain ∧
      plain.map (fun seen => (seen.out, seen.err)) =
        [("true\n", ""), ("", "main.lox:1 error: Unexpected character '@'.\n  @\n  ^\n")] := by
  intro session sources plain
  have hpath : ∀ p ∈ some "main.lox", Colorless p := by
    rintro p ⟨⟩
    exact .ofList (by decide)
  have hsources : ∀ source ∈ sources, Colorless source := by
    simp only [sources, List.forall_mem_cons]
    exact ⟨.ofList (by decide), .ofList (by decide), by simp⟩
  have hscan : scan "print true;" = ⟨[⟨.kwPrint, "print", .nil, 1⟩, ⟨.kwTrue, "true", .nil, 1⟩,
        ⟨.semicolon, ";", .nil, 1⟩], .endOfInput 1, []⟩ ∧
      scan "@" = ⟨[], .endOfInput 1, [⟨.unexpectedCharacter '@', 1⟩]⟩ :=
    ⟨(scan_eq _).trans rfl, (scan_eq _).trans rfl⟩
  refine ⟨hpath, hsources, enterAll_shown true (some "main.lox") (fun _ => 0) ⟨9, none⟩ true
    ⟨true, true⟩ sources hpath hsources, ?_⟩
  simp only [plain, sources, session, Session.enterAll, enter_eq, run, hscan.1, hscan.2]
  decide +kernel

end Session

end Lox
