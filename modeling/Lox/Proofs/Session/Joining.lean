import Lox.Proofs.Reference.Joining
import Lox.Proofs.Session.Skipping

/-! Entries that were run one after the other, as one text: the same comes of them. -/
namespace Lox.Session

open Reference (Paired Reads nowhere left said)

variable {s : Session} {r : Reference.Session} {source : String} {p : List Stmt}

/-- A session without dumps, of which everything printed was taken away, and its counterpart that
knows no addresses. -/
structure Quiet (s : Session) (r : Reference.Session) : Prop where
  paired : ∃ β n, Paired β n s r
  dumps : r.dumps = ⟨false, false⟩
  out : r.state.out = ""

/-- What is seen is what the run of a program has come to, if `before` was printed before it. -/
structure Shows (seen : Seen) (before : String) (x : EStateM.Result Halt Reference.State Unit) :
    Prop where
  ending : seen.ending = Reference.ending x
  out : (left x).out = before ++ seen.out
  globals : seen.globals = (left x).shown
  errors : ∀ status, Reference.ending x = .ok status →
    seen.errors.map said = (Reference.errors x).map said

theorem quiet_unlimited (color : Bool) (clock : Nat → Float) (fuel : Nat) :
    Quiet (unlimited color ⟨false, false⟩ clock fuel) (.new ⟨false, false⟩ clock fuel) :=
  ⟨⟨#[], 0, Reference.simulates_start clock, rfl, fun id _ => Resolution.find?_empty id,
    Nat.le_refl 0, rfl, rfl, rfl⟩, rfl, rfl⟩

/-- An entry in which no error is found before it runs is read as a program. -/
theorem Quiet.reads (h : Quiet s r) (hending : (s.enter source).1.ending ≠ .ok .staticError) :
    ∃ p, Reads source p := by
  obtain ⟨β, n, hp⟩ := h.paired
  obtain ⟨hsee, -⟩ := hp.run source
  rw [enter_eq] at hending
  refine Reference.reads_of_run h.dumps ?_
  rw [← hsee]
  exact hending

/-- An entry that is read as a program is seen as the run of the program, whatever was printed
before, and so is everything after it. -/
theorem Quiet.enter (h : Quiet s r) (hreads : Reads source p) :
    ∃ r', Quiet (s.enter source).2 r' ∧ r'.fuel = r.fuel ∧ ∀ before,
      let x := Reference.interpret r.fuel p (r.state.recast nowhere before)
      Shows (s.enter source).1 before x ∧
        left x = r'.state.recast nowhere (before ++ (s.enter source).1.out) := by
  obtain ⟨β, n, hp⟩ := h.paired
  obtain ⟨hsee, β', n', hnext⟩ := hp.run source
  obtain ⟨q, nextId, rfl, hrun⟩ := Reference.run_of_reads hreads h.dumps
  rw [hrun] at hsee hnext
  have hx := fun before => Reference.interpret_recast nowhere before r.fuel q r.state
  generalize Reference.interpret r.fuel q r.state = y at hsee hnext hx
  simp only [Reference.observe, Reference.Observation.mk.injEq] at hsee
  obtain ⟨hending, herrors, hout, hglobals⟩ := hsee
  have hdrained := Paired.drained hnext
    { settle (s.run source).1 (s.run source).2.reporter with printed := "" }
  rw [enter_eq]
  refine ⟨⟨{ left y with out := "" }, nextId, r.dumps, r.fuel⟩, ⟨⟨β', n', hdrained⟩, h.dumps, rfl⟩,
    rfl, fun before => ?_⟩
  simp only [hx]
  refine ⟨⟨?_, ?_, ?_, ?_⟩, ?_⟩
  · rw [hending, Reference.ending_recast]
  · rw [hout, Reference.left_recast]
    rfl
  · rw [hglobals, Reference.left_recast, Reference.State.shown_recast]
  · intro status hstatus
    rw [Reference.ending_recast, ← hending] at hstatus
    simp only [hstatus, settle, herrors, Reference.errors_recast]
  · rw [hout, Reference.left_recast]
    simp [Reference.State.recast]

/-- What is seen of a run is determined by the run. -/
theorem Shows.congr {seen seen' : Seen} {before : String}
    {x : EStateM.Result Halt Reference.State Unit} (h : Shows seen before x)
    (h' : Shows seen' before x) :
    seen.ending = seen'.ending ∧ seen.out = seen'.out ∧ seen.globals = seen'.globals ∧
      (seen'.ending = .ok .runtimeError → ∃ d e, seen'.errors = [d] ∧ seen.errors = [e] ∧
        e.message = d.message ∧ e.lexeme? = d.lexeme?) := by
  refine ⟨h.ending.trans h'.ending.symm, ?_, h.globals.trans h'.globals.symm, fun hend => ?_⟩
  · have hout := h.out.symm.trans h'.out
    simpa using hout
  · rw [h'.ending] at hend
    have herrors := h.errors _ hend
    have herrors' := h'.errors _ hend
    obtain ⟨d, hd⟩ : ∃ d, Reference.errors x = [d] := by
      rcases x with ⟨_, _⟩ | ⟨halt, _⟩
      · cases hend
      · cases halt with
        | error e => exact ⟨_, rfl⟩
        | _ => cases hend
    rw [hd] at herrors herrors'
    obtain ⟨e, he, hsaid⟩ := List.map_eq_singleton_iff.mp herrors
    obtain ⟨e', he', hsaid'⟩ := List.map_eq_singleton_iff.mp herrors'
    obtain ⟨hmessage, hlexeme⟩ := Prod.mk.inj (hsaid.trans hsaid'.symm)
    exact ⟨e', e, he', he, hmessage, hlexeme⟩

/-- The programs of several entries, one behind the other, come to what is seen of the last entry,
with the output of all. -/
theorem Quiet.joint (h : Quiet s r) {last : Seen} (first : String) (rest : List String)
    (hlast : (s.enterAll (first :: rest)).getLast? = some last)
    (hok : ∀ seen ∈ (s.enterAll (first :: rest)).dropLast, seen.ending = .ok .ok)
    (hend : last.ending ≠ .ok .staticError) :
    ∃ p, Reads ("\n".intercalate (first :: rest)) p ∧ ∀ before,
      Shows { last with out := String.join ((s.enterAll (first :: rest)).map (·.out)) } before
        (Reference.interpret r.fuel p (r.state.recast nowhere before)) := by
  induction rest generalizing s r first with
  | nil =>
    obtain rfl : (s.enter first).1 = last := by simpa [enterAll] using hlast
    obtain ⟨p, hreads⟩ := h.reads hend
    obtain ⟨r', -, -, hshows⟩ := h.enter hreads
    refine ⟨p, by simpa using hreads, fun before => ?_⟩
    simpa [enterAll, String.join] using (hshows before).1
  | cons second rest ih =>
    have hfirst : (s.enter first).1.ending = .ok .ok := hok _ (by simp [enterAll])
    obtain ⟨p, hreads⟩ : ∃ p, Reads first p := h.reads (by simp [hfirst])
    obtain ⟨r', hquiet, hfuel, hshows⟩ := h.enter hreads
    obtain ⟨q, hreads', hshows'⟩ := ih hquiet second (by simpa [enterAll] using hlast)
      (fun seen hseen => hok seen (by
        simp only [enterAll, List.dropLast_cons_cons] at hseen ⊢
        exact List.mem_cons_of_mem _ hseen))
    refine ⟨p ++ q, ?_, fun before => ?_⟩
    · rw [String.intercalate_cons_cons]
      exact hreads.join hreads'
    · obtain ⟨hseen, hleft⟩ := hshows before
      have hrun := Reference.eq_ok_of_ending (hseen.ending.symm.trans hfirst)
      have hjoint : Reference.interpret r.fuel (p ++ q) (r.state.recast nowhere before) =
          Reference.interpret r'.fuel q
            (r'.state.recast nowhere (before ++ (s.enter first).1.out)) := by
        rw [Reference.interpret_append, hfuel, ← hleft]
        simp only [Bind.bind, EStateM.bind]
        rw [hrun]
        rfl
      have hrest := hshows' (before ++ (s.enter first).1.out)
      rw [hjoint]
      refine { hrest with out := ?_ }
      rw [hrest.out, String.append_assoc]
      exact congrArg (before ++ ·) String.join_cons.symm

/-- Where all entries but the last end well, and the last ends well or with an error of the running
program, the same comes of all of them as one text, a line break between two: the end of the last
entry, the output of all, the globals, and an error that says the same of the same text. -/
theorem enter_intercalate (color : Bool) (clock : Nat → Float) (fuel : Nat) (sources : List String)
    (last : Seen)
    (hlast : ((unlimited color ⟨false, false⟩ clock fuel).enterAll sources).getLast? = some last)
    (hok : ∀ seen ∈ ((unlimited color ⟨false, false⟩ clock fuel).enterAll sources).dropLast,
      seen.ending = .ok .ok)
    (hend : last.ending = .ok .ok ∨ last.ending = .ok .runtimeError) :
    let joint :=
      ((unlimited color ⟨false, false⟩ clock fuel).enter ("\n".intercalate sources)).1
    joint.ending = last.ending ∧
      joint.out = String.join
        (((unlimited color ⟨false, false⟩ clock fuel).enterAll sources).map (·.out)) ∧
      joint.globals = last.globals ∧
      (last.ending = .ok .runtimeError → ∃ d e, last.errors = [d] ∧ joint.errors = [e] ∧
        e.message = d.message ∧ e.lexeme? = d.lexeme?) := by
  have hquiet := quiet_unlimited color clock fuel
  cases sources with
  | nil => simp [enterAll] at hlast
  | cons first rest =>
    obtain ⟨p, hreads, hshows⟩ := hquiet.joint first rest hlast hok
      (by rcases hend with h | h <;> simp [h])
    obtain ⟨_, -, -, hjoint⟩ := hquiet.enter hreads
    exact (hjoint "").1.congr (hshows "")

/-- The call of a variable that an entry before it left unset. -/
theorem enter_intercalate_calledNil :
    let s := unlimited false ⟨false, false⟩ (fun _ => 0) 9
    (s.enterAll ["var a;", "a();"]).map (·.ending) = [.ok .ok, .ok .runtimeError] ∧
      (s.enter ("\n".intercalate ["var a;", "a();"])).1.ending = .ok .runtimeError := by
  let s := unlimited false ⟨false, false⟩ (fun _ => 0) 9
  have hscan : scan "var a;" = ⟨[⟨.kwVar, "var", .nil, 1⟩, ⟨.identifier, "a", .nil, 1⟩,
        ⟨.semicolon, ";", .nil, 1⟩], .endOfInput 1, []⟩ ∧
      scan "a();" = ⟨[⟨.identifier, "a", .nil, 1⟩, ⟨.leftParen, "(", .nil, 1⟩,
        ⟨.rightParen, ")", .nil, 1⟩, ⟨.semicolon, ";", .nil, 1⟩], .endOfInput 1, []⟩ :=
    ⟨(scan_eq _).trans rfl, (scan_eq _).trans rfl⟩
  have hfirst : (s.enter "var a;").1.ending = .ok .ok := by
    refine ending_of_toOption ?_
    rw [enter_eq, run, hscan.1]
    decide +kernel
  have hlast : ((s.enter "var a;").2.enter "a();").1.ending = .ok .runtimeError := by
    refine ending_of_toOption ?_
    rw [enter_eq, enter_eq, run, run, hscan.1, hscan.2]
    decide +kernel
  have hjoint := enter_intercalate false (fun _ => 0) 9 ["var a;", "a();"]
    ((s.enter "var a;").2.enter "a();").1 rfl (by simpa [enterAll] using hfirst) (.inr hlast)
  have hendings : (s.enterAll ["var a;", "a();"]).map (·.ending) =
      [.ok .ok, .ok .runtimeError] := by
    simp only [enterAll, List.map_cons, List.map_nil, hfirst, hlast]
  exact ⟨hendings, hjoint.1.trans hlast⟩

end Lox.Session
