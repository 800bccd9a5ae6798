import Lox.Proofs.Grammar.Blame
import Lox.Proofs.Parse.Programs
import Lox.Proofs.Session.Quotes
import Lox.Proofs.Session.Skipping

/-! Where the tokens come from that errors of a running program are blamed on, over all entries of a
session, and which line is quoted for them. -/
namespace Lox

/-- The tokens that several texts were cut into. -/
def ScannedIn (sources : List String) (token : Token) : Prop :=
  ∃ text ∈ sources, token ∈ (scan text).tokens

theorem Dumps.named_findings (dumps : Dumps) (nextId : NodeId) (source : String) :
    (Task.stmts (dumps.findings nextId source).program).Named (· ∈ (scan source).tokens) := by
  simp only [findings]
  split
  · exact Grammar.named_stmts_nil
  · split
    · exact Grammar.named_stmts_nil
    · next hparse =>
      have hnone : ((scan source).parse nextId).errors = [] := by simpa using hparse
      exact Grammar.named_of_derives (program_of_parse hnone) fun token ht => ht

namespace Session

def after (s : Session) (sources : List String) : Session :=
  sources.foldl (fun s source => (s.enter source).2) s

variable {s : Session} {source : String} {P : Token → Prop}

/-- A run leaves functions that are made of tokens of its text and of those that were there, and so
is the token that an error of the running program is blamed on. -/
theorem named_run (hsource : ∀ token ∈ (scan source).tokens, P token)
    (hm : s.machine.Holds (Value.From (Task.Named P))) :
    (s.run source).2.machine.Holds (Value.From (Task.Named P)) ∧
      ∀ d ∈ (s.run source).2.reporter.errors, d.kind = .runtime →
        ∃ token, d.token = some token ∧ d.line = token.line ∧ P token := by
  have hprogram : (Task.stmts (s.findings source).program).Named P :=
    (s.dumps.named_findings s.nextId source).mono hsource
  have hchecked : (s.checked source).machine.Holds (Value.From (Task.Named P)) :=
    ⟨hm.locals, hm.globals⟩
  have hstays := stays_interpret Task.heritable_named s.limits hprogram hchecked
  have hstatic : ∀ d ∈ (s.checked source).reporter.errors, d.kind ≠ .runtime :=
    fun d => static_of_mem_checked s source
  have hleads := leads_run s source
  revert hleads
  generalize (s.run source).1 = ending, (s.run source).2 = t
  intro hleads
  cases hleads with
  | rejected hsome => exact ⟨hchecked, fun d hd hk => (hstatic d hd hk).elim⟩
  | finished hnone hrun =>
    simp only [Stays, Ends, hrun] at hstays
    exact ⟨hstays.1, fun d hd hk => (hstatic d hd hk).elim⟩
  | broken hnone hrun =>
    simp only [Stays, Ends, hrun] at hstays
    exact ⟨hstays.1, fun d hd hk => (hstatic d hd hk).elim⟩
  | @failed e m hnone hrun =>
    simp only [Stays, Ends, hrun] at hstays
    obtain ⟨hheld, hfrom⟩ := hstays
    refine ⟨hheld, fun d hd _ => ?_⟩
    rw [errors_failed s source hnone] at hd
    obtain rfl := List.mem_singleton.mp hd
    obtain ⟨k, hk, hblames⟩ := hfrom e rfl
    exact ⟨e.token, rfl, rfl, hk k .refl e.token hblames⟩

/-- What came from some sources came from more. -/
theorem Value.From.scannedIn {done sources : List String} {m : Machine}
    (h : m.Holds (Value.From (Task.Named (ScannedIn done)))) (hsub : done ⊆ sources) :
    m.Holds (Value.From (Task.Named (ScannedIn sources))) := by
  refine h.mono fun v hv c hc => (hv c hc).mono ?_
  rintro token ⟨text, htext, ht⟩
  exact ⟨text, hsub htext, ht⟩

/-- All functions that a session has after some entries are made of their tokens. -/
theorem named_after {done : List String} (sources : List String)
    (hm : s.machine.Holds (Value.From (Task.Named (ScannedIn done)))) :
    (s.after sources).machine.Holds (Value.From (Task.Named (ScannedIn (done ++ sources)))) := by
  induction sources generalizing s done with
  | nil => simpa [after] using hm
  | cons source rest ih =>
    have hkept := Value.From.scannedIn hm (List.subset_append_left done [source])
    have hrun := (named_run (fun token ht => ⟨source, by simp, ht⟩) hkept).1
    have henter : (s.enter source).2.machine.Holds
        (Value.From (Task.Named (ScannedIn (done ++ [source])))) := by
      rw [enter_eq]
      exact ⟨hrun.locals, hrun.globals⟩
    have hrest := ih henter
    rw [List.append_assoc] at hrest
    exact hrest

/-- An error of a running program on the command line is blamed on a token of its entry, or of an
entry before it, of which a function was called. The line that is quoted is always the one that its
number names in the entry that is run. So it is the line of the token if that is one of the entry,
and has nothing to do with it otherwise. -/
theorem entry_quotes (reporter : Reporter) (dumps : Dumps) (clock : Nat → Float) (limits : Limits)
    (sources : List String) (i : Nat) (source : String) (hi : sources[i]? = some source)
    (hplain : ∀ c ∈ source.toList, Text.isBreak c = true → c = '\n') :
    let s := after { Session.new reporter none dumps clock with limits } (sources.take i)
    let r := (s.run source).2.reporter
    ∀ d ∈ r.errors, d.kind = .runtime →
      ∃ token, d.token = some token ∧ d.line = token.line ∧
        (∃ j ≤ i, ∃ text, sources[j]? = some text ∧ token ∈ (scan text).tokens) ∧
        ∀ line, r.quoted? d = some line →
          (source.toList.splitOn '\n')[token.line.toNat - 1]? = some line.toList := by
  intro s r d hd hkind
  have hstart : ({ Session.new reporter none dumps clock with limits } : Session).machine.Holds
      (Value.From (Task.Named (ScannedIn []))) :=
    Machine.Holds.start clock fun n => .of_ne (by simp)
  have hbefore := named_after (sources.take i) hstart
  have htake : [] ++ sources.take i ⊆ sources.take (i + 1) := by
    rw [List.nil_append]
    exact List.take_subset_take_left _ (by omega)
  have hsource : source ∈ sources.take (i + 1) := by
    have hlast : (sources.take (i + 1))[i]? = some source := by simpa using hi
    exact List.mem_of_getElem? hlast
  obtain ⟨token, htoken, hline, text, htext, hscan⟩ :=
    (named_run (fun token ht => ⟨source, hsource, ht⟩) (Value.From.scannedIn hbefore htake)).2 d hd
      hkind
  refine ⟨token, htoken, hline, ?_, fun line hquoted => ?_⟩
  · obtain ⟨j, hj⟩ := List.mem_iff_getElem?.mp htext
    rw [List.getElem?_take] at hj
    split at hj
    · next hlt => exact ⟨j, by omega, text, hj, hscan⟩
    · cases hj
  · have hquote := ((leads_run s source).told.getElem?_lines hquoted).2
    rw [← hline]
    exact Text.getElem?_lines_of_lineFeeds hplain hquote

/-- The call of a variable that an entry before it left unset. -/
theorem entry_quotes_calledNil :
    let s := after { Session.new (.new true false) none ⟨false, false⟩ (fun _ => 0) with
      limits := ⟨9, none⟩ } ["var a;"]
    let r := (s.run "a();").2.reporter
    ∃ d ∈ r.errors, d.kind = .runtime ∧ r.quoted? d = some "a();" ∧
      ∃ token, d.token = some token ∧
        ("a();".toList.splitOn '\n')[token.line.toNat - 1]? = some "a();".toList := by
  intro s r
  have hscan : scan "var a;" = ⟨[⟨.kwVar, "var", .nil, 1⟩, ⟨.identifier, "a", .nil, 1⟩,
        ⟨.semicolon, ";", .nil, 1⟩], .endOfInput 1, []⟩ ∧
      scan "a();" = ⟨[⟨.identifier, "a", .nil, 1⟩, ⟨.leftParen, "(", .nil, 1⟩,
        ⟨.rightParen, ")", .nil, 1⟩, ⟨.semicolon, ";", .nil, 1⟩], .endOfInput 1, []⟩ :=
    ⟨(scan_eq _).trans rfl, (scan_eq _).trans rfl⟩
  have hseen : r.errors.map (fun d => (d.kind, r.quoted? d)) = [(.runtime, some "a();")] := by
    simp only [r, s, after, List.foldl, enter_eq, run, hscan.1, hscan.2]
    decide +kernel
  obtain ⟨d, hd, hkind, hquoted⟩ : ∃ d ∈ r.errors, d.kind = .runtime ∧
      r.quoted? d = some "a();" := by
    have hmem : (.runtime, some "a();") ∈ r.errors.map (fun d => (d.kind, r.quoted? d)) := by
      simp [hseen]
    obtain ⟨d, hd, heq⟩ := List.mem_map.mp hmem
    exact ⟨d, hd, (Prod.mk.inj heq).1, (Prod.mk.inj heq).2⟩
  have hplain : ∀ c ∈ "a();".toList, Text.isBreak c = true → c = '\n' := by
    have hnone : "a();".toList.all (!Text.isBreak ·) = true := by decide +kernel
    intro c hc hbreak
    simpa [hbreak] using List.all_eq_true.mp hnone c hc
  obtain ⟨token, htoken, -, -, hline⟩ := entry_quotes (.new true false) ⟨false, false⟩ (fun _ => 0)
    ⟨9, none⟩ ["var a;", "a();"] 1 "a();" rfl hplain d hd hkind
  exact ⟨d, hd, hkind, hquoted, token, htoken, hline _ hquoted⟩

/-- A function fails that an entry before declared. Its operator is no token of the entry that calls
it, but the line that is quoted is that of the call, for the sake of the comment in it. -/
theorem entry_quotes_calledLater :
    let first := "fun f() \x7b return nil + nil; \x7d"
    let second := "f(); // 1 + 1"
    let s := after { Session.new (.new true false) none ⟨false, false⟩ (fun _ => 0) with
      limits := ⟨9, none⟩ } [first]
    let r := (s.run second).2.reporter
    r.errors.map (fun d => (d.kind, d.line, d.lexeme?, r.quoted? d)) =
        [(.runtime, 1, some "+", some second)] ∧
      (scan first).tokens.map (·.lexeme) =
        ["fun", "f", "(", ")", "\x7b", "return", "nil", "+", "nil", ";", "\x7d"] ∧
      (scan second).tokens.map (·.lexeme) = ["f", "(", ")", ";"] ∧
      first.toList.splitOn '\n' = [first.toList] := by
  intro first second s r
  have hscan : scan first = ⟨[⟨.kwFun, "fun", .nil, 1⟩, ⟨.identifier, "f", .nil, 1⟩,
        ⟨.leftParen, "(", .nil, 1⟩, ⟨.rightParen, ")", .nil, 1⟩, ⟨.leftBrace, "\x7b", .nil, 1⟩,
        ⟨.kwReturn, "return", .nil, 1⟩, ⟨.kwNil, "nil", .nil, 1⟩, ⟨.plus, "+", .nil, 1⟩,
        ⟨.kwNil, "nil", .nil, 1⟩, ⟨.semicolon, ";", .nil, 1⟩, ⟨.rightBrace, "\x7d", .nil, 1⟩],
        .endOfInput 1, []⟩ ∧
      scan second = ⟨[⟨.identifier, "f", .nil, 1⟩, ⟨.leftParen, "(", .nil, 1⟩,
        ⟨.rightParen, ")", .nil, 1⟩, ⟨.semicolon, ";", .nil, 1⟩], .endOfInput 1, []⟩ := by
    simp only [first, second, scan_eq]
    exact ⟨rfl, rfl⟩
  refine ⟨?_, by simp [hscan.1], by simp [hscan.2], by decide +kernel⟩
  simp only [r, s, after, List.foldl, enter_eq, run, hscan.1, hscan.2]
  decide +kernel

end Session

end Lox
