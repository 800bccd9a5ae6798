import Lox.Proofs.Parse.Making
import Lox.Proofs.Reference.Simulation

/-! Sessions of both interpreters, entry by entry. -/
namespace Lox.Reference

open Resolve (after)

variable {β β' : Layout} {n n' : NodeId} {table table' : Resolution} {m : Machine} {t : State}
  {s : Lox.Session} {r : Session} {v : Value} {w : Value Scope} {store : Store} {fuel : Nat}

/-- A program is executed outside of all local scopes. -/
theorem tied_nil : Tied β store none [] none :=
  ⟨by simp, by simp, nofun, fun _ _ => rfl, nofun⟩

/-- A program that is placed and without faults runs as the reference says. -/
theorem agree_interpret {context : Resolve.Context} {program : List Stmt}
    (h : Here n table none [] none β m t)
    (hf : Fine n (Stmt.PlacedAll table [] program) (Stmt.FaultlessAll context [] program)
      (Stmt.idsAll program)) :
    Agree none n β (Lox.interpret ⟨fuel, none⟩ program) m (interpret fuel program) t
      fun _ _ _ _ => True := by
  induction program generalizing β m t with
  | nil => exact agree_pure h.sim trivial
  | cons s program ih =>
    have hΓ : after [] s = [] := by cases s <;> rfl
    have hs := (inStep fuel).exec h level_outside (fun _ _ => rfl)
      (hf.part (·.1) (·.1) (by simp [Stmt.idsAll]))
    refine hs.next fun β₁ m₁ t₁ c d ho _ => ?_
    have hrest := hf.part (·.2) (·.2) (List.subset_append_right s.ids _)
    rw [hΓ] at hrest
    exact ih (h.onward ho) hrest

/-- More addresses may be filed, but no other ones for identities that were given out. -/
theorem SameIn.file (h : SameIn β n table store v w) (hn : n ≤ n')
    (ht : ∀ id, id < n → table'.find? id = table.find? id) : SameIn β n' table' store v w := by
  cases h with
  | closure hp hf hids htied =>
    exact .closure (hp.congr fun id hid => ht id (hids id hid)) hf
      (fun id hid => Nat.lt_of_lt_of_le (hids id hid) hn) htied
  | _ => constructor

/-- Addresses of new identities make no difference to what is there. -/
theorem Simulates.file (h : Simulates β n m t) (hn : n ≤ n')
    (ht : ∀ id, id < n → table'.find? id = m.resolution.find? id) :
    Simulates β n' { m with resolution := table' } t :=
  { h with
    cells := fun cell place hc => rel_imp (h.cells cell place hc) fun _ _ h => h.file hn ht
    globals := h.globals.imp fun _ _ h => ⟨h.1, h.2.file hn ht⟩ }

theorem simulates_start (clock : Nat → Float) :
    Simulates #[] n (.start clock) (.start clock) where
  size := rfl
  frames := by simp
  injective := by simp
  cells := by simp
  globals := .cons ⟨rfl, .native .clock⟩ .nil
  out := rfl
  closures := rfl
  clock := rfl
  ticks := rfl

/-- Two sessions have come to the same. Addresses are filed for identities up to `n`. -/
structure Paired (β : Layout) (n : NodeId) (s : Lox.Session) (r : Session) : Prop where
  sim : Simulates β n s.machine r.state
  frame : s.machine.frame = none
  fresh : ∀ id, n ≤ id → s.machine.resolution.find? id = none
  filed : n ≤ s.nextId
  nextId : s.nextId = r.nextId
  dumps : s.dumps = r.dumps
  limits : s.limits = ⟨r.fuel, none⟩

namespace Paired

/-- Both show the same globals, in the order they were made in. -/
theorem globals (h : Paired β n s r) :
    s.globals = r.state.globals.entries.map fun (name, value) => (name, value.text) := by
  have hg := h.sim.globals
  simp only [Session.globals]
  generalize s.machine.globals.entries = es, r.state.globals.entries = fs at hg
  induction hg with
  | nil => rfl
  | cons hef _ ih => simp [hef.1, hef.2.text, ih]

theorem observe (h : Paired β n s r) (ending : Ending) :
    observe ending s = r.observe ending s.reporter.errors := by
  simp only [Reference.observe, Session.observe, h.globals, h.sim.out]

theorem reporter (h : Paired β n s r) (reporter : Reporter) : Paired β n { s with reporter } r :=
  { h with }

theorem dump (h : Paired β n s r) (wanted : Bool) (lines : List String) :
    Paired β n (s.dump wanted lines) (r.dump wanted lines) := by
  have hprint : ∀ (m : Machine) (t : State), Simulates β n m t →
      Simulates β n (lines.foldl Machine.print m) (lines.foldl State.print t) ∧
        (lines.foldl Machine.print m).frame = m.frame ∧
        (lines.foldl Machine.print m).resolution = m.resolution := by
    induction lines with
    | nil => exact fun m t hs => ⟨hs, rfl, rfl⟩
    | cons line lines ih => exact fun m t hs => ih _ _ (hs.print line)
  cases wanted with
  | false => exact h
  | true =>
    obtain ⟨hsim, hframe, hres⟩ := hprint _ _ h.sim
    exact ⟨hsim, hframe.trans h.frame, fun id hid => hres ▸ h.fresh id hid, h.filed, h.nextId,
      h.dumps, h.limits⟩

/-- Both sessions go on from what an execution has led to. -/
theorem machine (h : Paired β n s r) {m : Machine} {t : State} (hs : Simulates β' n m t)
    (hframe : m.frame = s.machine.frame) (hres : m.resolution = s.machine.resolution) :
    Paired β' n { s with machine := m } { r with state := t } :=
  ⟨hs, hframe.trans h.frame, fun id hid => hres ▸ h.fresh id hid, h.filed, h.nextId, h.dumps,
    h.limits⟩

end Paired

/-- The same is seen of two runs, and they lead to the same. -/
def Matches (p : Ending × Lox.Session) (q : Observation × Session) : Prop :=
  observe p.1 p.2 = q.1 ∧ ∃ β n, Paired β n p.2 q.2

theorem Paired.ends (h : Paired β n s r) (ending : Ending) {errors : List Diagnostic}
    (he : s.reporter.errors = errors) : Matches (ending, s) (r.observe ending errors, r) :=
  ⟨he ▸ h.observe ending, β, n, h⟩

/-- Running the program leaves sessions paired, and the same to be seen. -/
theorem Paired.execute {context : Resolve.Context} {program : List Stmt} (h : Paired β n s r)
    (hf : Fine n (Stmt.PlacedAll s.machine.resolution [] program)
      (Stmt.FaultlessAll context [] program) (Stmt.idsAll program))
    (he : s.reporter.errors = []) : Matches (s.execute program) (r.execute program) := by
  have hrun : Agree none n β (Lox.interpret ⟨r.fuel, none⟩ program) s.machine
      (interpret r.fuel program) r.state fun _ _ _ _ => True :=
    agree_interpret ⟨h.sim, tied_nil, h.frame, rfl⟩ hf
  rw [← h.limits] at hrun
  simp only [Agree] at hrun
  simp only [Lox.Session.execute, Session.execute]
  split at hrun
  · next m t hx hy =>
    obtain ⟨β', ho, -⟩ := hrun
    simp only [hx, hy]
    exact (h.machine ho.sim ho.frame ho.extend.resolution).ends (.ok .ok) he
  · next halt m halt' t hx hy =>
    obtain ⟨rfl, hframe, hres, β', hsim⟩ := hrun
    simp only [hx, hy]
    have hp := h.machine hsim hframe hres
    cases halt with
    | error e =>
      refine (hp.reporter (s.reporter.runtimeError e.diagnostic)).ends (.ok .runtimeError) ?_
      simp [he]
    | _ => exact hp.ends _ he
  · exact hrun.elim

/-- The addresses of a program are filed, and it is executed if it is in order. -/
theorem Paired.resolveAndExecute (h : Paired β n s r) {program : List Stmt}
    (hf : Fresh n s.nextId (Stmt.idsAll program)) (ht : Stmt.TidyAll program)
    (he : s.reporter.errors = []) :
    Matches (s.resolveAndExecute program) (r.resolveAndExecute program) := by
  obtain ⟨hplaced, hold, hnew, hfault⟩ := resolve_placed hf ht h.fresh
  have hfiled : Paired β s.nextId { s with machine := { s.machine with
      resolution := s.machine.resolution.recordAll (resolve program).located } } r :=
    ⟨h.sim.file h.filed hold, h.frame, fun id hid => hnew id hid (Nat.le_trans h.filed hid),
      Nat.le_refl _, h.nextId, h.dumps, h.limits⟩
  have hp := hfiled.reporter (s.reporter.reportAll ((resolve program).errors.map (·.diagnostic)))
  simp only [Lox.Session.resolveAndExecute, Session.resolveAndExecute, Lox.Session.report]
  cases hr : (resolve program).errors with
  | nil =>
    rw [hr] at hp
    exact hp.execute ⟨hplaced, hfault hr, fun id hid => (hf.range id hid).2⟩ he
  | cons e es =>
    rw [hr] at hp
    refine hp.ends (.ok .staticError) ?_
    simp [Reporter.errors_reportAll, he]

theorem reporter_dump (s : Lox.Session) (wanted : Bool) (lines : List String) :
    (s.dump wanted lines).reporter = s.reporter := by cases wanted <;> rfl

theorem nextId_dump (s : Lox.Session) (wanted : Bool) (lines : List String) :
    (s.dump wanted lines).nextId = s.nextId := by cases wanted <;> rfl

/-- A program that is turned down is so on both sides, with the same errors. -/
theorem Paired.parseAndExecute (h : Paired β n s r) (he : s.reporter.errors = [])
    (scanned : Scan) : Matches (s.parseAndExecute scanned) (r.parseAndExecute scanned) := by
  obtain ⟨hle, hf, ht⟩ := parse_neat scanned.tokens scanned.finish s.nextId
  have hparsed : Paired β n { s with nextId := (scanned.parse s.nextId).nextId }
      ⟨r.state, (scanned.parse s.nextId).nextId, s.dumps, r.fuel⟩ :=
    { h with filed := Nat.le_trans h.filed hle, nextId := rfl, dumps := rfl }
  have hp := (hparsed.reporter
    (s.reporter.reportAll ((scanned.parse s.nextId).errors.map (·.diagnostic)))).dump s.dumps.trees
      ((scanned.parse s.nextId).program.map Stmt.render)
  simp only [Lox.Session.parseAndExecute, Session.parseAndExecute, Lox.Session.report, ← h.nextId,
    ← h.dumps]
  cases herr : (scanned.parse s.nextId).errors with
  | nil =>
    rw [herr] at hp
    refine hp.resolveAndExecute ?_ ht ?_
    · rw [nextId_dump]
      exact hf.mono h.filed (Nat.le_refl _)
    · rw [reporter_dump]
      exact he
  | cons e es =>
    rw [herr] at hp
    refine hp.ends (.ok .staticError) ?_
    simp [reporter_dump, Reporter.errors_reportAll, he]

/-- An entry is answered alike by sessions that are paired. -/
theorem Paired.run (h : Paired β n s r) (source : String) :
    Matches (s.run source) (r.run source) := by
  have hp := (h.reporter ((s.reporter.reset.register s.path source).reportAll
    ((scan source).errors.map (·.diagnostic)))).dump s.dumps.tokens
      ((scan source).listing.map (·.dump))
  simp only [Lox.Session.run, Session.run, Lox.Session.report, ← h.dumps]
  cases herr : (scan source).errors with
  | nil =>
    rw [herr] at hp
    refine hp.parseAndExecute ?_ (scan source)
    rw [reporter_dump]
    rfl
  | cons e es =>
    rw [herr] at hp
    refine hp.ends (.ok .staticError) ?_
    rw [reporter_dump]
    simp [Reporter.errors_reportAll, Reporter.reset, Reporter.register]

/-- Whatever texts are run, one after the other, the same is seen whether variables are found by
their addresses or by their names. -/
theorem observeAll_eq_runAll (reporter : Reporter) (path : Option String) (dumps : Dumps)
    (clock : Nat → Float) (fuel : Nat) (sources : List String) :
    observeAll { Lox.Session.new reporter path dumps clock with limits := ⟨fuel, none⟩ } sources =
      (Session.new dumps clock fuel).runAll sources := by
  have hall : ∀ (β : Layout) (n : NodeId) (s : Lox.Session) (r : Session), Paired β n s r →
      observeAll s sources = r.runAll sources := by
    induction sources with
    | nil => exact fun _ _ _ _ _ => rfl
    | cons source rest ih =>
      intro β n s r h
      obtain ⟨hsource, β', n', hp⟩ := h.run source
      exact congrArg₂ List.cons hsource (ih β' n' _ _ hp)
  exact hall #[] 0 _ _ ⟨simulates_start clock, rfl, fun id _ => Resolution.find?_empty id,
    Nat.le_refl 0, rfl, rfl, rfl⟩

end Lox.Reference
