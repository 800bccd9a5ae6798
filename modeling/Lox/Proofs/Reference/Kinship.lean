import Lox.Proofs.Parse.Renumbering
import Lox.Proofs.Reference.Recast
import Lox.Proofs.Resolve.Recast

/-! Sessions whose states differ in identities only: the same is seen of them ever after. -/
namespace Lox.Reference

open Parse (SameStmts)

variable {g : Int → Int} {before : String} {s t : State} {p q : List Stmt} {r r' : Session}

theorem State.out_of_recast (h : s.recast g before = t.recast g before) : s.out = t.out := by
  have hout : before ++ s.out = before ++ t.out := congrArg (·.out) h
  simpa using hout

/-- The globals of a state as `print` shows them. -/
def State.shown (s : State) : List (String × String) :=
  s.globals.entries.map fun (name, value) => (name, value.text)

theorem State.shown_recast (s : State) : (s.recast g before).shown = s.shown := by
  simp [State.shown, State.recast, NameTable.mapValues, Function.comp_def, Value.text_recast]

theorem State.shown_of_recast (h : s.recast g before = t.recast g before) : s.shown = t.shown := by
  rw [← s.shown_recast, h, State.shown_recast]

/-- How the run of a program ends, recast. -/
def Recast (g : Int → Int) (before : String) :
    EStateM.Result Halt State Unit → EStateM.Result Halt State Unit
  | .ok a s => .ok a (s.recast g before)
  | .error halt s => .error (halt.recast g) (s.recast g before)

/-- The run of a recast program from a recast state. -/
theorem interpret_recast (g : Int → Int) (before : String) (fuel : Nat) (p : List Stmt)
    (s : State) : interpret fuel (Stmt.recastAll g p) (s.recast g before) =
      Recast g before (interpret fuel p s) := by
  rw [mirrors_interpret g before fuel p s]
  cases interpret fuel p s <;> rfl

/-- What a run does, recast, follows from the program and the state, recast. -/
theorem interpret_congr (fuel : Nat) (hp : Stmt.recastAll g p = Stmt.recastAll g q)
    (hs : s.recast g before = t.recast g before) :
    Recast g before (interpret fuel p s) = Recast g before (interpret fuel q t) := by
  rw [← interpret_recast, hp, hs, interpret_recast]

theorem Halt.recast_id (halt : Halt) : halt.recast id = halt := by cases halt <;> rfl

/-- Two sessions that differ in identities only. -/
structure Kin (r r' : Session) : Prop where
  state : r.state.recast id "" = r'.state.recast id ""
  dumps : r.dumps = r'.dumps
  fuel : r.fuel = r'.fuel

namespace Kin

theorem observe (h : Kin r r') (ending : Ending) (errors : List Diagnostic) :
    r.observe ending errors = r'.observe ending errors := by
  have hshown := State.shown_of_recast h.state
  simp only [State.shown] at hshown
  simp only [Session.observe, hshown, State.out_of_recast h.state]

theorem dump (h : Kin r r') (wanted : Bool) (lines : List String) :
    Kin (r.dump wanted lines) (r'.dump wanted lines) := by
  have hprint : ∀ s t : State, s.recast id "" = t.recast id "" →
      (lines.foldl State.print s).recast id "" = (lines.foldl State.print t).recast id "" := by
    induction lines with
    | nil => exact fun _ _ h => h
    | cons line lines ih =>
      exact fun s t h => ih _ _ (congrArg (State.print · line) h)
  cases wanted with
  | false => exact h
  | true => exact ⟨hprint _ _ h.state, h.dumps, h.fuel⟩

/-- Sessions of a kind stay so over programs that differ in identities only. -/
theorem execute (h : Kin r r') (hp : SameStmts p q) :
    (r.execute p).1 = (r'.execute q).1 ∧ Kin (r.execute p).2 (r'.execute q).2 := by
  obtain ⟨s, m, dumps, fuel⟩ := r
  obtain ⟨t, n, dumps', fuel'⟩ := r'
  obtain ⟨hstate, hdumps, hfuel⟩ := h
  obtain rfl : dumps = dumps' := hdumps
  obtain rfl : fuel = fuel' := hfuel
  have hrun := interpret_congr fuel (Stmt.recastAll_congr hp) hstate
  simp only [Session.execute]
  generalize interpret fuel p s = x, interpret fuel q t = y at hrun
  cases x with
  | ok a s =>
    cases y with
    | error halt t => cases hrun
    | ok b t =>
      have hk : Kin ⟨s, m, dumps, fuel⟩ ⟨t, n, dumps, fuel⟩ :=
        ⟨(EStateM.Result.ok.inj hrun).2, rfl, rfl⟩
      exact ⟨hk.observe _ _, hk⟩
  | error halt s =>
    cases y with
    | ok b t => cases hrun
    | error halt' t =>
      obtain ⟨hhalt, hst⟩ := EStateM.Result.error.inj hrun
      rw [Halt.recast_id, Halt.recast_id] at hhalt
      subst hhalt
      have hk : Kin ⟨s, m, dumps, fuel⟩ ⟨t, n, dumps, fuel⟩ := ⟨hst, rfl, rfl⟩
      cases halt <;> exact ⟨hk.observe _ _, hk⟩

theorem resolveAndExecute (h : Kin r r') (hp : SameStmts p q) :
    (r.resolveAndExecute p).1 = (r'.resolveAndExecute q).1 ∧
      Kin (r.resolveAndExecute p).2 (r'.resolveAndExecute q).2 := by
  have herrors : (resolve p).errors = (resolve q).errors := by
    have hsame := Stmt.recastAll_congr (g := id) hp
    have hreline : Resolve.reline id = id := rfl
    simpa [resolve_recastAll, hreline] using congrArg (fun p => (resolve p).errors) hsame
  simp only [Session.resolveAndExecute, herrors]
  split
  · exact h.execute hp
  · exact ⟨h.observe _ _, h⟩

/-- Where the identities begin is never seen. -/
theorem parseAndExecute (h : Kin r r') (scanned : Scan) :
    (r.parseAndExecute scanned).1 = (r'.parseAndExecute scanned).1 ∧
      Kin (r.parseAndExecute scanned).2 (r'.parseAndExecute scanned).2 := by
  obtain ⟨s, m, dumps, fuel⟩ := r
  obtain ⟨t, n, dumps', fuel'⟩ := r'
  obtain ⟨hstate, hdumps, hfuel⟩ := h
  obtain rfl : dumps = dumps' := hdumps
  obtain rfl : fuel = fuel' := hfuel
  obtain ⟨herrors, hsame⟩ : (scanned.parse m).errors = (scanned.parse n).errors ∧
      SameStmts (scanned.parse m).program (scanned.parse n).program :=
    parse_renumbered scanned.tokens scanned.finish m n
  have hrender : (scanned.parse m).program.map Stmt.render =
      (scanned.parse n).program.map Stmt.render := by
    rw [← Stmt.render_recastAll id, Stmt.recastAll_congr hsame, Stmt.render_recastAll]
  have hnext : Kin ⟨s, (scanned.parse m).nextId, dumps, fuel⟩
      ⟨t, (scanned.parse n).nextId, dumps, fuel⟩ := ⟨hstate, rfl, rfl⟩
  have hk := hnext.dump dumps.trees ((scanned.parse n).program.map Stmt.render)
  simp only [Session.parseAndExecute, herrors, hrender]
  split
  · exact ⟨hk.observe _ _, hk⟩
  · exact hk.resolveAndExecute hsame

/-- Whatever text is run next, the same is seen of both. -/
theorem run (h : Kin r r') (source : String) :
    (r.run source).1 = (r'.run source).1 ∧ Kin (r.run source).2 (r'.run source).2 := by
  have hk := h.dump r.dumps.tokens ((scan source).listing.map (·.dump))
  simp only [Session.run, ← h.dumps]
  split
  · exact ⟨hk.observe _ _, hk⟩
  · exact hk.parseAndExecute (scan source)

end Kin

theorem exists_dump_eq (r : Session) (wanted : Bool) (lines : List String) :
    ∃ out, r.dump wanted lines = { r with state := { r.state with out } } := by
  have hprint : ∀ s : State, ∃ out, lines.foldl State.print s = { s with out } := by
    induction lines with
    | nil => exact fun s => ⟨s.out, rfl⟩
    | cons line lines ih =>
      intro s
      obtain ⟨out, h⟩ := ih (s.print line)
      exact ⟨out, h⟩
  cases wanted with
  | false => exact ⟨r.state.out, rfl⟩
  | true =>
    obtain ⟨out, h⟩ := hprint r.state
    exact ⟨out, congrArg (fun state => { r with state }) h⟩

theorem execute_ne_staticError (r : Session) (p : List Stmt) :
    (r.execute p).1.ending ≠ .ok .staticError := by
  unfold Session.execute
  split <;> simp [Session.observe]

/-- A text with an error found before it runs leaves nothing but what was printed of it. -/
theorem run_staticError {source : String}
    (h : (r.run source).1.ending = .ok .staticError) :
    ∃ out nextId, (r.run source).2 = ⟨{ r.state with out }, nextId, r.dumps, r.fuel⟩ := by
  obtain ⟨out, hdump⟩ := exists_dump_eq r r.dumps.tokens ((scan source).listing.map (·.dump))
  simp only [Session.run, hdump] at h ⊢
  split
  · exact ⟨out, r.nextId, rfl⟩
  · next hscan =>
    rw [if_neg hscan] at h
    simp only [Session.parseAndExecute] at h ⊢
    obtain ⟨out', hdump'⟩ := exists_dump_eq
      ⟨{ r.state with out }, ((scan source).parse r.nextId).nextId, r.dumps, r.fuel⟩ r.dumps.trees
      (((scan source).parse r.nextId).program.map Stmt.render)
    simp only [hdump'] at h ⊢
    split
    · exact ⟨out', _, rfl⟩
    · next hparse =>
      rw [if_neg hparse] at h
      simp only [Session.resolveAndExecute] at h ⊢
      split
      · next hresolve =>
        rw [if_pos hresolve] at h
        exact absurd h (execute_ne_staticError _ _)
      · exact ⟨out', _, rfl⟩

end Lox.Reference
