import Lox.Proofs.Execute.Filling
import Lox.Proofs.Execute.Jumps
import Lox.Proofs.Session.Origins

/-! The worlds that sessions come through. What is known of all worlds that programs without errors
lead to is so known of every session, whatever was rejected in it and whatever failed. -/
namespace Lox

/-- Programs are admitted if no error is found in them. -/
abbrev Accepted (clock : Nat → Float) (calls : Option Nat) : World → Prop :=
  Reachable clock calls fun program => (resolve program).errors = []

variable {clock : Nat → Float} {w : World}

/-- However the run of a program ends that has been taken in, it leads to another world, if it has
fuel enough. -/
theorem Reachable.interpret {limits : Limits} {admitted : List Stmt → Prop}
    (hw : Reachable clock limits.calls admitted w) {program : List Stmt}
    (hp : ∀ s ∈ program, s ∈ w.loaded) :
    Ends (interpret limits program) w.machine
      (fun _ m => ∃ v, Reachable clock limits.calls admitted v ∧ v.machine = m ∧
        v.nextId = w.nextId)
      fun halt m => halt ≠ .outOfFuel → ∃ v, Reachable clock limits.calls admitted v ∧
        v.machine = m ∧ v.nextId = w.nextId := by
  induction program generalizing w with
  | nil => exact ⟨w, hw, rfl, rfl⟩
  | cons s ss ih =>
    have hs : s ∈ w.loaded := hp s List.mem_cons_self
    have hexec : Ends (exec limits.fuel limits.calls s) w.machine
        (fun _ m => Reachable clock limits.calls admitted
          (w.ran ⟨.stmt s, limits.calls, w.machine⟩ m))
        fun halt m => halt ≠ .outOfFuel → ∃ v, Reachable clock limits.calls admitted v ∧
          v.machine = m ∧ v.nextId = w.nextId := by
      unfold Ends
      split
      · next hr => exact .execute hw hs hr
      · next hr => exact fun hh => ⟨_, .stop hw hs hr hh, rfl, rfl⟩
    exact hexec.bind fun _ _ hran => ih hran fun s hs => hp s (List.mem_cons_of_mem _ hs)

/-- What is found in a text is either an error before any address, or the addresses of a program
that is parsed without error. -/
theorem Dumps.findings_cases (dumps : Dumps) (nextId : NodeId) (source : String) :
    let found := dumps.findings nextId source
    let parsed := (scan source).parse nextId
    (found.errors ≠ [] ∧ found.located = [] ∧ nextId ≤ found.nextId) ∨
      (parsed.errors = [] ∧ (found.errors = [] → (resolve parsed.program).errors = []) ∧
        found.located = (resolve parsed.program).located ∧ found.nextId = parsed.nextId ∧
        found.program = parsed.program) := by
  intro found parsed
  have hle : nextId ≤ parsed.nextId := (parse_neat _ _ _).1
  simp only [found, findings]
  split
  · next hscan => exact .inl ⟨by simpa using hscan, rfl, Nat.le_refl _⟩
  · split
    · next hparse => exact .inl ⟨by simpa using hparse, rfl, hle⟩
    · next hparse => exact .inr ⟨by simpa using hparse, by simp [parsed], rfl, rfl, rfl⟩

namespace Session

/-- A session is in a world: it goes on from its machine, with identities not used in it. -/
structure IsIn (s : Session) (w : World) : Prop where
  machine : s.machine = w.machine
  nextId : w.nextId ≤ s.nextId

def HasFuel (s : Session) : List String → Prop
  | [] => True
  | source :: rest =>
    (s.run source).1 ≠ .error Halt.outOfFuel.leaving ∧ HasFuel (s.enter source).2 rest

variable {s : Session} {calls : Option Nat} {source : String}

/-- What was printed makes no difference to which world a session is in. -/
theorem exists_world_of_machine_eq (hw : Accepted clock calls w)
    (hm : s.machine = { w.machine with out := s.machine.out }) (hid : w.nextId ≤ s.nextId) :
    ∃ v, Accepted clock calls v ∧ s.IsIn v ∧ v.loaded = w.loaded :=
  ⟨_, .print hw, ⟨hm, hid⟩, rfl⟩

/-- Checking a text leads to a world in which its program is taken in, if no error is found in
it. -/
theorem IsIn.checked (hs : s.IsIn w) (hw : Accepted clock calls w) (source : String) :
    ∃ v, Accepted clock calls v ∧ (s.checked source).IsIn v ∧
      ((s.findings source).errors = [] → ∀ t ∈ (s.findings source).program, t ∈ v.loaded) := by
  obtain ⟨hmachine, hnext⟩ := hs
  have hchecked : (s.checked source).machine = { w.machine with
      resolution := w.machine.resolution.recordAll (s.findings source).located
      out := (s.checked source).machine.out } := by
    simp only [Session.checked, hmachine]
  rcases s.dumps.findings_cases s.nextId source with ⟨herrors, hlocated, hle⟩ |
    ⟨hparse, hresolve, hlocated, hid, hprogram⟩
  · rw [findings, hlocated] at hchecked
    obtain ⟨v, hv, hin, -⟩ := exists_world_of_machine_eq hw hchecked (Nat.le_trans hnext hle)
    exact ⟨v, hv, hin, fun hnone => absurd hnone herrors⟩
  · rw [findings, hlocated] at hchecked
    by_cases hnone : (s.findings source).errors = []
    · obtain ⟨v, hv, hin, hloaded⟩ := exists_world_of_machine_eq
        (.load hw hnext hparse (hresolve hnone)) hchecked hid.ge
      refine ⟨v, hv, hin, fun _ t ht => ?_⟩
      rw [hloaded]
      exact List.mem_append_right _ (hprogram ▸ ht)
    · obtain ⟨v, hv, hin, -⟩ :=
        exists_world_of_machine_eq (.file hw hnext hparse) hchecked hid.ge
      exact ⟨v, hv, hin, fun h => absurd h hnone⟩

/-- The run of a text leads to a world, however it ends, unless for want of fuel. -/
theorem IsIn.run (hs : s.IsIn w) (hw : Accepted clock s.limits.calls w)
    (hfuel : (s.run source).1 ≠ .error Halt.outOfFuel.leaving) :
    ∃ v, Accepted clock s.limits.calls v ∧ (s.run source).2.IsIn v := by
  obtain ⟨v, hv, hin, hloaded⟩ := hs.checked hw source
  have hrun := fun hnone => hv.interpret (hloaded hnone)
  rw [← hin.machine] at hrun
  have hleft {t : Session} {m : Machine} (hu : ∃ u, Accepted clock s.limits.calls u ∧
      u.machine = m ∧ u.nextId = v.nextId) (hm : t.machine = m)
      (hid : t.nextId = (s.checked source).nextId) :
      ∃ u, Accepted clock s.limits.calls u ∧ t.IsIn u := by
    obtain ⟨u, hu, rfl, hnext⟩ := hu
    exact ⟨u, hu, hm, by rw [hnext, hid]; exact hin.nextId⟩
  have hleads := leads_run s source
  revert hfuel hleads
  generalize (s.run source).1 = ending, (s.run source).2 = t
  intro hfuel hleads
  cases hleads with
  | rejected => exact ⟨v, hv, hin⟩
  | finished hnone hr =>
    have hend := hrun hnone
    simp only [Ends, hr] at hend
    exact hleft hend rfl rfl
  | failed hnone hr =>
    have hend := hrun hnone
    simp only [Ends, hr] at hend
    exact hleft (hend (by simp)) rfl rfl
  | broken hnone hr =>
    have hend := hrun hnone
    simp only [Ends, hr] at hend
    exact hleft (hend fun hout => hfuel (by rw [hout])) rfl rfl

theorem limits_run (s : Session) (source : String) : (s.run source).2.limits = s.limits := by
  have hleads := leads_run s source
  generalize s.run source = p at hleads
  obtain ⟨ending, t⟩ := p
  cases hleads <;> rfl

/-- Entries lead from worlds to worlds: whatever was rejected or failed before, the machine of a
session is one that programs without errors lead to. -/
theorem IsIn.after (hs : s.IsIn w) (hw : Accepted clock s.limits.calls w) {sources : List String}
    (hfuel : s.HasFuel sources) :
    ∃ v, Accepted clock s.limits.calls v ∧ (s.after sources).IsIn v := by
  induction sources generalizing s w with
  | nil => exact ⟨w, hw, hs⟩
  | cons source rest ih =>
    obtain ⟨v, hv, hin⟩ := hs.run hw hfuel.1
    have hrest := hfuel.2
    have hlimits := limits_run s source
    have hsame : (s.enter source).2.limits = s.limits := by
      rw [enter_eq]
      exact hlimits
    have henter : (s.enter source).2.IsIn { v with machine := { v.machine with out := "" } } := by
      rw [enter_eq]
      exact ⟨by simp [hin.machine], hin.nextId⟩
    rw [← hsame] at hv ⊢
    exact ih henter (.print hv) hrest

/-- A session that begins anew stays among the worlds that programs without errors lead to. -/
theorem exists_world_after (reporter : Reporter) (path : Option String) (dumps : Dumps)
    (clock : Nat → Float) (limits : Limits) {sources : List String}
    (hfuel : HasFuel (Session.new reporter path dumps clock limits) sources) :
    ∃ w, Accepted clock limits.calls w ∧
      (after (Session.new reporter path dumps clock limits) sources).IsIn w :=
  have hstart : IsIn (Session.new reporter path dumps clock limits)
      ⟨.start clock, 0, [], []⟩ := ⟨rfl, Nat.le_refl 0⟩
  hstart.after .start hfuel

/-- Between its entries a session is outside of all local scopes, also after one that failed within
some, and nothing is at fault in the functions it holds. -/
theorem outside_after (reporter : Reporter) (path : Option String) (dumps : Dumps)
    (clock : Nat → Float) (limits : Limits) {sources : List String}
    (hfuel : HasFuel (Session.new reporter path dumps clock limits) sources) :
    let s := after (Session.new reporter path dumps clock limits) sources
    s.machine.frame = none ∧ s.machine.Holds Value.Faultless := by
  obtain ⟨w, hw, hin⟩ := exists_world_after reporter path dumps clock limits hfuel
  simp only [hin.machine]
  exact ⟨hw.orderly.outside, hw.faultless.machine⟩

end Session

end Lox
