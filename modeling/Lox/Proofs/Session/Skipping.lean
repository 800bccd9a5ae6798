import Lox.Proofs.Reference.Kinship
import Lox.Proofs.Reference.Sessions
import Lox.Proofs.Scan.Fuel
import Lox.Proofs.Session.Entries

/-! An entry with an error found before it runs leaves no trace: what is seen of every other entry
is the same without it. -/
namespace Lox.Session

open Reference (Paired Kin)

variable {s t : Session} {β : Reference.Layout} {n : NodeId} {r : Reference.Session}

/-- What a guard reports of the end of a run. -/
def settle (ending : Ending) (r : Reporter) : Reporter :=
  match ending with
  | .ok _ => r
  | .error leaving => (r.leave leaving).1

theorem guard_snd (p : Ending × Session) :
    (guard p).2 = { p.2 with reporter := settle p.1 p.2.reporter } := by
  obtain ⟨ending, s⟩ := p
  cases ending <;> rfl

theorem enter_eq (s : Session) (source : String) :
    s.enter source =
      let p := s.run source
      let reporter := settle p.1 p.2.reporter
      (⟨p.1, reporter.errors, reporter.exitCode, p.2.machine.out, reporter.printed, p.2.globals⟩,
        { p.2 with
          machine := { p.2.machine with out := "" }
          reporter := { reporter with printed := "" } }) := by
  simp only [enter, guard_snd]
  rfl

/-- Taking away what was printed keeps two sessions paired. -/
theorem Paired.drained (h : Paired β n s r) (reporter : Reporter) :
    Paired β n { s with machine := { s.machine with out := "" }, reporter }
      { r with state := { r.state with out := "" } } :=
  { h with sim := { h.sim with out := rfl } }

theorem Kin.drained {r' : Reference.Session} (h : Kin r r') :
    Kin { r with state := { r.state with out := "" } }
      { r' with state := { r'.state with out := "" } } :=
  ⟨congrArg (fun s : Reference.State => { s with out := "" }) h.state, h.dumps, h.fuel⟩

/-- Two sessions of which the same is seen ever after. -/
structure Twins (s t : Session) : Prop where
  path : s.path = t.path
  fatal : s.reporter.fatal = t.reporter.fatal
  color : s.reporter.color = t.reporter.color
  printed : s.reporter.printed = t.reporter.printed
  kin : ∃ β m β' n r r', Paired β m s r ∧ Paired β' n t r' ∧ Kin r r'

/-- The next entry is seen alike, and leaves the sessions alike. -/
theorem Twins.enter (h : Twins s t) (source : String) :
    (s.enter source).1 = (t.enter source).1 ∧
      Twins (s.enter source).2 (t.enter source).2 := by
  obtain ⟨β, m, β', n, r, r', hs, ht, hk⟩ := h.kin
  obtain ⟨hsame, hkin⟩ := hk.run source
  obtain ⟨hsee, β₁, m₁, hs₁⟩ := hs.run source
  obtain ⟨hsee', β₂, n₂, ht₂⟩ := ht.run source
  have hobserve := hsee.trans (hsame.trans hsee'.symm)
  simp only [Reference.observe, Reference.Observation.mk.injEq] at hobserve
  obtain ⟨hending, herrors, hout, hglobals⟩ := hobserve
  have hreporter := reporter_run_congr h.fatal h.color h.path h.printed hending herrors
  simp only [enter_eq, hending, hreporter, hout, hglobals, true_and]
  refine ⟨?_, rfl, rfl, rfl, β₁, m₁, β₂, n₂, _, _, Paired.drained hs₁ _, Paired.drained ht₂ _,
    Kin.drained hkin⟩
  exact (path_run s source).trans (h.path.trans (path_run t source).symm)

/-- Twins answer all further entries alike. -/
theorem Twins.enterAll (h : Twins s t) (sources : List String) :
    s.enterAll sources = t.enterAll sources := by
  induction sources generalizing s t with
  | nil => rfl
  | cons source rest ih =>
    obtain ⟨hseen, hnext⟩ := h.enter source
    simp only [Session.enterAll, hseen, ih hnext]

/-- A session of which everything printed and reported was taken away, and which has a
counterpart that knows no addresses. -/
structure Ready (s : Session) : Prop where
  out : s.machine.out = ""
  printed : s.reporter.printed = ""
  paired : ∃ β n r, Paired β n s r

theorem ready_unlimited (color : Bool) (dumps : Dumps) (clock : Nat → Float) (fuel : Nat) :
    Ready (unlimited color dumps clock fuel) :=
  ⟨rfl, rfl, #[], 0, .new dumps clock fuel, Reference.simulates_start clock, rfl,
    fun id _ => Resolution.find?_empty id, Nat.le_refl 0, rfl, rfl, rfl⟩

theorem Ready.enter (h : Ready s) (source : String) : Ready (s.enter source).2 := by
  obtain ⟨β, n, r, hp⟩ := h.paired
  obtain ⟨-, β', n', hp'⟩ := hp.run source
  rw [enter_eq]
  exact ⟨rfl, rfl, β', n', _, Paired.drained hp' _⟩

theorem reportAll_settings (r : Reporter) (ds : List Diagnostic) :
    (r.reportAll ds).fatal = r.fatal ∧ (r.reportAll ds).color = r.color := by
  rw [r.reportAll_eq]
  exact ⟨rfl, rfl⟩

/-- An entry with an error found before it runs leaves the session as it was, in all that can be
seen of it. -/
theorem Ready.twins (h : Ready s) {source : String}
    (he : (s.enter source).1.ending = .ok .staticError) : Twins (s.enter source).2 s := by
  obtain ⟨β, n, r, hp⟩ := h.paired
  obtain ⟨hsee, β', n', hp'⟩ := hp.run source
  rw [enter_eq] at he ⊢
  simp only at he
  obtain ⟨ds, hds⟩ : ∃ ds, (s.run source).2.reporter =
      (s.reporter.reset.register s.path source).reportAll ds := by
    rcases (reports_run s source).reporter with ⟨hr, -⟩ | ⟨-, hds⟩
    · rw [hr] at he
      cases he
    · exact hds
  obtain ⟨hfatal, hcolor⟩ := reportAll_settings (s.reporter.reset.register s.path source) ds
  have hstatic : (r.run source).1.ending = .ok .staticError := by
    rw [← hsee]
    exact he
  obtain ⟨out, nextId, hr⟩ := Reference.run_staticError hstatic
  have hdrained := Paired.drained hp' { settle (s.run source).1 (s.run source).2.reporter with
    printed := "" }
  refine ⟨path_run s source, ?_, ?_, h.printed.symm, β', n', β, n, _, r, hdrained, hp, ?_⟩
  · simp only [he, settle, hds]
    exact hfatal
  · simp only [he, settle, hds]
    exact hcolor
  · rw [hr]
    have hout : r.state.out = "" := hp.sim.out.symm.trans h.out
    exact ⟨congrArg (Reference.State.recast id "") (by rw [← hout]), rfl, rfl⟩

/-- An entry that the scanner finds errors in is not run. -/
theorem ending_of_scan {source : String} (h : (scan source).errors ≠ []) (s : Session) :
    (s.enter source).1.ending = .ok .staticError := by
  simp only [enter_eq, run, Bool.not_eq_true', List.isEmpty_eq_false_iff]
  rw [if_pos h]

/-- Without an entry that ends with an error found before it runs, the same is seen of every other
entry. -/
theorem enterAll_eraseIdx (color : Bool) (dumps : Dumps) (clock : Nat → Float) (fuel : Nat)
    (sources : List String) (i : Nat)
    (h : (((unlimited color dumps clock fuel).enterAll sources)[i]?).map (·.ending) =
      some (.ok .staticError)) :
    (unlimited color dumps clock fuel).enterAll (sources.eraseIdx i) =
      ((unlimited color dumps clock fuel).enterAll sources).eraseIdx i := by
  have hall : ∀ (s : Session) (i : Nat), Ready s →
      ((s.enterAll sources)[i]?).map (·.ending) = some (.ok .staticError) →
      s.enterAll (sources.eraseIdx i) = (s.enterAll sources).eraseIdx i := by
    clear h
    induction sources with
    | nil => exact fun _ _ _ _ => rfl
    | cons source rest ih =>
      intro s i hready h
      cases i with
      | zero =>
        have hstatic : (s.enter source).1.ending = .ok .staticError := by
          simpa [enterAll] using h
        exact ((hready.twins hstatic).enterAll rest).symm
      | succ i =>
        exact congrArg (_ :: ·) (ih _ i (hready.enter source) (by simpa [enterAll] using h))
  exact hall _ i (ready_unlimited color dumps clock fuel) h

/-- A stray character between two entries, the second of which uses what the first declares. -/
theorem enterAll_eraseIdx_strayCharacter :
    let s := unlimited false ⟨true, false⟩ (fun _ => 0) 100
    ((s.enterAll ["var a = 1;", "@", "print a;"])[1]?).map (·.ending) = some (.ok .staticError) ∧
      s.enterAll ["var a = 1;", "print a;"] =
        (s.enterAll ["var a = 1;", "@", "print a;"]).eraseIdx 1 := by
  have hscan : scan "@" = ⟨[], .endOfInput 1, [⟨.unexpectedCharacter '@', 1⟩]⟩ :=
    (scan_eq _).trans rfl
  have herrors : (scan "@").errors ≠ [] := by simp [hscan]
  have hstatic := congrArg some (ending_of_scan herrors
    ((unlimited false ⟨true, false⟩ (fun _ => 0) 100).enter "var a = 1;").2)
  exact ⟨hstatic, enterAll_eraseIdx false ⟨true, false⟩ (fun _ => 0) 100
    ["var a = 1;", "@", "print a;"] 1 hstatic⟩

end Lox.Session
