import Lox.Proofs.Renaming.Resolving
import Lox.Proofs.Renaming.Running
import Lox.Session

/-! A program and the same with local variables renamed: they resolve alike and run alike. -/
namespace Lox

variable {old new : String} {program program' : List Stmt} {b : Bool}

/-- A renamed program resolves without error, with the same addresses for the same uses. Where those
are known, the program can be got back. -/
theorem resolve_renamed (h : Stmt.RenamedAll old new false false program program' b)
    (hnew : new ∉ Stmt.namesAll program) (hok : (resolve program).errors = []) :
    (resolve program').errors = [] ∧
      List.Forall₂ (Located.Renamed old new) (resolve program).located (resolve program').located ∧
      ∀ known, (∀ u ∈ (resolve program).located, known u.id = true) →
        Stmt.formerlyAll old new known false program' = program := by
  have hstart : Resolve.Twin old new false .start .start := ⟨.nil, .nil, rfl⟩
  have hfollows := Resolve.follows_stmts program h hnew .program hstart nofun
    (Array.toList_eq_nil_iff.mp hok)
  exact ⟨Array.toList_eq_nil_iff.mpr hfollows.twin.errors, hfollows.twin.located, hfollows.former⟩

/-- The same addresses are filed. -/
theorem recordAll_renamed {us us' : List Located}
    (h : List.Forall₂ (Located.Renamed old new) us us') (table : Resolution) :
    table.recordAll us' = table.recordAll us := by
  induction h generalizing table with
  | nil => rfl
  | cons hu _ ih =>
    obtain ⟨renamed, rfl⟩ := hu
    exact ih _

theorem knows_recordAll {us : List Located} {id : NodeId} {table : Resolution}
    (h : table.knows id = true ∨ ∃ u ∈ us, u.id = id) : (table.recordAll us).knows id = true := by
  induction us generalizing table with
  | nil => simpa [Resolution.recordAll] using h
  | cons u us ih =>
    have hrecord : (table.record u.id u.address).knows id = (id = u.id || table.knows id) := by
      simp only [Resolution.knows, Resolution.find?_record]
      split <;> simp [*]
    refine ih ?_
    rw [hrecord]
    simp only [List.mem_cons, exists_eq_or_imp] at h
    rcases h with h | rfl | h
    · simp [h]
    · simp
    · exact .inr h

/-- Two executions lead to machines that are the same under the old name, and stop, if they do, for
the same reason. -/
def RunAlike (old new : String) (known : NodeId → Bool) :
    EStateM.Result Halt Machine Unit → EStateM.Result Halt Machine Unit → Prop
  | .ok _ t, .ok _ t' => t'.formerly old new known = t.formerly old new known
  | .error halt t, .error halt' t' =>
    t'.formerly old new known = t.formerly old new known ∧
      halt'.former old new = halt.former old new
  | _, _ => False

theorem Halt.alike {halt halt' : Halt} (h : halt'.former old new = halt.former old new) :
    halt' = halt ∨ ∃ e e', halt = .error e ∧ halt' = .error e' ∧
      e'.former old new = e.former old new := by
  cases halt <;> cases halt' <;> simp_all [Halt.former]

/-- Both programs do what the program read under the old name does, and that is one program. -/
theorem interpret_renamed {limits : Limits} {m : Machine}
    (hnew : new ∉ Stmt.namesAll program)
    (hformer : Stmt.formerlyAll old new m.resolution.knows false program' = program) :
    RunAlike old new m.resolution.knows (interpret limits program m)
      (interpret limits program' m) := by
  have hrun := parallel_interpret old new m.resolution limits program m rfl nofun
  have hrun' := parallel_interpret old new m.resolution limits program' m rfl nofun
  rw [Stmt.formerlyAll_eq_self false program hnew] at hrun
  rw [hformer] at hrun'
  cases hx : interpret limits program m with
  | ok a t =>
    rw [hx] at hrun
    cases hy : interpret limits program' m with
    | ok a' t' =>
      rw [hy] at hrun'
      have := hrun'.1.symm.trans hrun.1
      simpa [RunAlike] using this
    | error halt' t' =>
      rw [hy] at hrun'
      obtain ⟨halt, hrun', -⟩ := hrun'
      have := hrun'.symm.trans hrun.1
      cases this
  | error halt t =>
    rw [hx] at hrun
    obtain ⟨h₀, hrun, hhalt⟩ := hrun
    cases hy : interpret limits program' m with
    | ok a' t' =>
      rw [hy] at hrun'
      have := hrun'.1.symm.trans hrun
      cases this
    | error halt' t' =>
      rw [hy] at hrun'
      obtain ⟨h₁, hrun', hhalt'⟩ := hrun'
      obtain ⟨rfl, hmachine⟩ : h₁ = h₀ ∧ t'.formerly old new _ = t.formerly old new _ := by
        simpa using hrun'.symm.trans hrun
      exact ⟨hmachine, hhalt'.symm.trans hhalt⟩

theorem out_alike {known : NodeId → Bool} {m m' : Machine}
    (h : m'.formerly old new known = m.formerly old new known) : m'.out = m.out := by
  have hout := congrArg Machine.out h
  exact hout

/-- Values that are the same under the old name are shown alike. -/
theorem globals_alike {known : NodeId → Bool} {m m' : Machine}
    (h : m'.formerly old new known = m.formerly old new known) :
    m'.globals.entries.map (fun (name, value) => (name, value.text)) =
      m.globals.entries.map fun (name, value) => (name, value.text) := by
  have hshown : ∀ m : Machine, m.globals.entries.map (fun (name, value) => (name, value.text)) =
      (m.formerly old new known).globals.entries.map fun (name, value) => (name, value.text) := by
    intro m
    simp [Machine.formerly, NameTable.mapValues, Value.text_formerly]
  rw [hshown m', h, ← hshown m]

namespace Session

/-- The same is seen of two executions, but for the name in an error that stops them. -/
structure Alike (old new : String) (errors : List Diagnostic) (r r' : Ending × Session) :
    Prop where
  ending : r'.1 = r.1
  out : r'.2.machine.out = r.2.machine.out
  globals : r'.2.globals = r.2.globals
  exitCode : r'.2.reporter.exitCode = r.2.reporter.exitCode
  errors : r'.2.reporter.errors = r.2.reporter.errors ∨
    ∃ e e' : RuntimeError, r.2.reporter.errors = errors ++ [e.diagnostic] ∧
      r'.2.reporter.errors = errors ++ [e'.diagnostic] ∧ e'.former old new = e.former old new

/-- Runs that are alike are reported alike, but for the name in an error. -/
theorem alike_execute (s : Session) {known : NodeId → Bool}
    (h : RunAlike old new known (interpret s.limits program s.machine)
      (interpret s.limits program' s.machine)) :
    Alike old new s.reporter.errors (s.execute program) (s.execute program') := by
  simp only [execute]
  cases hx : interpret s.limits program s.machine with
  | ok a t =>
    cases hy : interpret s.limits program' s.machine with
    | error halt' t' => simp [hx, hy, RunAlike] at h
    | ok a' t' =>
      rw [hx, hy] at h
      have hout := out_alike h
      exact ⟨rfl, hout, globals_alike h, rfl, .inl rfl⟩
  | error halt t =>
    cases hy : interpret s.limits program' s.machine with
    | ok a' t' => simp [hx, hy, RunAlike] at h
    | error halt' t' =>
      rw [hx, hy] at h
      have hout := out_alike h.1
      rcases Halt.alike h.2 with rfl | ⟨e, e', rfl, rfl, he⟩
      · cases halt' <;> exact ⟨rfl, hout, globals_alike h.1, rfl, .inl rfl⟩
      · have hcode (e : RuntimeError) : (s.reporter.runtimeError e.diagnostic).exitCode =
            if s.reporter.hadError then exitStatic else exitRuntime := rfl
        exact ⟨rfl, hout, globals_alike h.1, (hcode e').trans (hcode e).symm,
          .inr ⟨e, e', rfl, rfl, he⟩⟩

/-- Local variables may be renamed. Take a program that resolves without error, and the same with
some of its parameters and local `var` declarations of one name, and exactly the uses that mean
them, under a name that occurs nowhere in it. The second resolves without error as well, with the
same addresses use by use; and in every session the same is seen when either is executed: how it
ends, the output, the globals, the exit code, and the errors but for that name. -/
theorem alike_of_renamed (s : Session)
    (h : Stmt.RenamedAll old new false false program program' b)
    (hnew : new ∉ Stmt.namesAll program) (hok : (resolve program).errors = []) :
    (resolve program').errors = [] ∧
      List.Forall₂ (Located.Renamed old new) (resolve program).located (resolve program').located ∧
      Alike old new s.reporter.errors (s.resolveAndExecute program)
        (s.resolveAndExecute program') := by
  obtain ⟨hok', hlocated, hformer⟩ := resolve_renamed h hnew hok
  refine ⟨hok', hlocated, ?_⟩
  let filed : Session := { s with machine := { s.machine with
    resolution := s.machine.resolution.recordAll (resolve program).located } }
  have hknown : ∀ u ∈ (resolve program).located, filed.machine.resolution.knows u.id = true :=
    fun u hu => knows_recordAll (.inr ⟨u, hu, rfl⟩)
  have hrun : RunAlike old new filed.machine.resolution.knows
      (interpret s.limits program filed.machine) (interpret s.limits program' filed.machine) :=
    interpret_renamed hnew (hformer _ hknown)
  have halike := alike_execute filed hrun
  simpa [resolveAndExecute, hok, hok', recordAll_renamed hlocated, report, Reporter.reportAll]
    using halike

/-- The tokens of a variable that is used in a block within its own. -/
def usedWithin (name : String) : List Token :=
  [⟨.leftBrace, "\x7b", .nil, 1⟩, ⟨.kwVar, "var", .nil, 1⟩, ⟨.identifier, name, .nil, 1⟩,
    ⟨.semicolon, ";", .nil, 1⟩, ⟨.leftBrace, "\x7b", .nil, 1⟩, ⟨.kwPrint, "print", .nil, 1⟩,
    ⟨.identifier, name, .nil, 1⟩, ⟨.semicolon, ";", .nil, 1⟩, ⟨.rightBrace, "\x7d", .nil, 1⟩,
    ⟨.rightBrace, "\x7d", .nil, 1⟩]

theorem alike_of_renamed_usedWithin :
    let s := Session.new (.new true false) none ⟨false, false⟩ fun _ => 0
    let program := (parse (usedWithin "a") (.endOfInput 1) 0).program
    let program' := (parse (usedWithin "b") (.endOfInput 1) 0).program
    Stmt.RenamedAll "a" "b" false false program program' false ∧
      "b" ∉ Stmt.namesAll program ∧ (resolve program).errors = [] ∧
      (resolve program').errors = [] ∧
      Alike "a" "b" [] (s.resolveAndExecute program) (s.resolveAndExecute program') := by
  intro s program program'
  have hrenamed : Stmt.RenamedAll "a" "b" false false program program' false :=
    .cons (.block (.cons (.var true (fun _ => rfl) .none)
      (.cons (.block (.cons (.print .reference) .nil)) .nil))) .nil
  have hnew : "b" ∉ Stmt.namesAll program := by decide
  have hresolve : (resolve program).errors = [] := rfl
  obtain ⟨hresolve', -, halike⟩ := alike_of_renamed s hrenamed hnew hresolve
  exact ⟨hrenamed, hnew, hresolve, hresolve', halike⟩

end Session

end Lox
