import Lox.Proofs.Execute.Secure
import Lox.Proofs.Parse.Making
import Lox.Proofs.Resolve.Walk

/-! Programs never go astray: an address leads to a frame that is there, and to a variable that is
there unless its declaration is not complete. This needs no more than a parse without errors; names
may have been entered twice or read too early. -/
namespace Lox

open Resolve (after)

variable {E : Pending → Prop} {n : NodeId} {table : Resolution} {m : Machine} {fuel : Nat}
  {c d : Config}

/-- A task reads or writes a variable, on the machine given. -/
inductive Accesses : Config → NodeId → Token → Machine → Prop
  | read {id name room m} : Accesses ⟨.expr (.reference id name), room, m⟩ id name m
  | write {id name e room m fuel v t} (he : eval fuel room e m = .ok v t) :
    Accesses ⟨.expr (.assign id name e), room, m⟩ id name t

/-- Every task that is reached is as safe as the first, if the declarations that are open on the way
count as well. -/
theorem Reaches.safe (h : Reaches c d) (hc : c.Safe E n) :
    d.Safe (fun p => E p ∨ Open c d p) n := by
  induction h with
  | refl => exact hc.imp fun _ => Or.inl
  | @tail d e hd hs ih =>
    obtain ⟨fuel, hs⟩ := hs
    refine (hs.safe (secure fuel) ih).imp ?_
    rintro p ((hp | ⟨hr, hf, ho⟩) | hp)
    · exact Or.inl hp
    · exact Or.inr ⟨hr, hf, ho.tail ⟨fuel, hs⟩⟩
    · cases hp with
      | intro hf =>
        cases hs
        exact Or.inr ⟨hd, hf, .refl⟩

/-- A task ends well: with a result or by an error of the program. -/
theorem Config.Safe.run (hc : c.Safe E n) {halt : Halt} {t : Machine}
    (hr : c.task.run fuel c.room c.machine = .error halt t) :
    halt = .outOfFuel ∨ ∃ e, halt = .error e := by
  obtain ⟨k, room, m⟩ := c
  obtain rfl : room = none := hc.room
  have stop {α : Type} {x : Run α} {d : Config} {ok : α → Machine → Prop}
      (h : Goes E n d x m ok) (hr : (discard x : Run Unit) m = .error halt t) :
      halt = .outOfFuel ∨ ∃ e, halt = .error e := by
    simp only [Goes, Ends] at h
    cases hx : x m with
    | ok a u => simp [discard, Functor.mapConst, EStateM.map, hx] at hr
    | error halt' u =>
      rw [hx] at h
      obtain ⟨rfl, rfl⟩ : halt' = halt ∧ u = t := by
        simpa [discard, Functor.map, Functor.mapConst, EStateM.map, hx] using hr
      cases halt' <;> simp_all [Stops]
  have h := secure fuel
  cases k with
  | expr e => exact stop (h.eval E n e m hc) hr
  | exprs es => exact stop (h.evalAll E n es m hc) hr
  | stmt s => exact stop (h.exec E n s m hc) hr
  | stmts ss => exact stop (h.execAll E n ss m hc) hr
  | body fn =>
    exact stop (h.execAll E n fn.body m ((secure 0).start hc (by simp) .statements)) hr

/-- A variable that is accessed by its address is in a frame of the chain, and misses there only
while its declaration is not complete. -/
theorem Config.Safe.access (hc : c.Safe E n) {id : NodeId} {name : Token} {t : Machine}
    {a : Address} (ha : Accesses c id name t) (hf : t.resolution.find? id = some a) :
    ∃ i target f, t.frame = some i ∧ t.store.ancestor? a.distance i = some target ∧
      t.store.frames[target]? = some f ∧ (a.slot < t.store.slots target ∨
        a.slot = t.store.slots target ∧ ∃ p, E p ∧ p.Explains target a.slot name.lexeme [id]) := by
  obtain ⟨k, room, m⟩ := c
  obtain ⟨hroom, ⟨Γ, hk⟩, hm⟩ := hc
  obtain rfl : room = none := hroom
  cases ha with
  | read => exact hk.fits.address (hk.placed.symm.trans hf)
  | @write _ _ e _ _ fuel v _ he =>
    have hkeep := (((secure fuel).eval E n e m
      (.expr hm hk hk.placed.1 (List.subset_append_left _ _))).result he).1
    have hk := hk.keep hkeep
    exact (hk.fits.subset (List.subset_append_right _ _)).address (hk.placed.2.symm.trans hf)

namespace World

variable {w : World}

/-- The declarations aborted so far. -/
def Aborted (w : World) (p : Pending) : Prop := ∃ run ∈ w.runs, Lox.Aborted run p

/-- Programs that were parsed without error are in their places, and the machine is as they left
it. -/
structure Safe (w : World) : Prop where
  machine : w.machine.Safe w.Aborted w.nextId
  frame : w.machine.frame = none
  loaded : ∀ s ∈ w.loaded, s.Placed w.machine.resolution [] ∧ ∀ id ∈ s.ids, id < w.nextId
  fresh : ∀ id, w.nextId ≤ id → w.machine.resolution.find? id = none

theorem Safe.config (h : w.Safe) {s : Stmt} (hs : s ∈ w.loaded) :
    Config.Safe w.Aborted w.nextId ⟨.stmt s, none, w.machine⟩ := by
  obtain ⟨hp, hn⟩ := h.loaded s hs
  refine ⟨rfl, ⟨[], hp, hn, ?_, ?_⟩, h.machine⟩
  · rw [h.frame]
    trivial
  · simp [Roomy]

end World

theorem Stmt.PlacedAll.mem {ss : List Stmt} (h : Stmt.PlacedAll table [] ss) {s : Stmt}
    (hs : s ∈ ss) : s.Placed table [] ∧ s.ids ⊆ Stmt.idsAll ss := by
  induction ss with
  | nil => simp at hs
  | cons u ss ih =>
    have hΓ : after [] u = [] := by cases u <;> rfl
    rcases List.mem_cons.mp hs with rfl | hs
    · exact ⟨h.1, List.subset_append_left _ _⟩
    · obtain ⟨hp, hi⟩ := ih (by simpa [hΓ] using h.2) hs
      exact ⟨hp, fun id hid => List.mem_append_right _ (hi hid)⟩

namespace World

variable {w : World} {clock : Nat → Float}

theorem Safe.file (h : w.Safe) {tokens : List Token} {finish : Token} {firstId : NodeId}
    (hid : w.nextId ≤ firstId) : (w.file (parse tokens finish firstId)).Safe := by
  obtain ⟨hle, hf, ht⟩ := parse_neat tokens finish firstId
  obtain ⟨-, hold, hnew, -⟩ := resolve_placed hf ht fun id hlo => h.fresh id (Nat.le_trans hid hlo)
  have same : ∀ id, id < w.nextId → (w.machine.resolution.recordAll
      (resolve (parse tokens finish firstId).program).located).find? id =
        w.machine.resolution.find? id := fun id hlt => hold id (Nat.lt_of_lt_of_le hlt hid)
  have later : ∀ id, id < w.nextId → id < (parse tokens finish firstId).nextId :=
    fun id hlt => Nat.lt_of_lt_of_le hlt (Nat.le_trans hid hle)
  refine ⟨?_, h.frame, ?_, fun id hle' => hnew id hle' (Nat.le_trans hle hle')⟩
  · refine Machine.Holds.mono ⟨h.machine.locals, h.machine.globals⟩ ?_
    intro v hv c hc
    obtain ⟨Γ, hp, hn, hfits⟩ := hv c hc
    exact ⟨Γ, hp.congr fun id hid => same id (hn id hid), fun id hid => later id (hn id hid), hfits⟩
  · intro s hs
    obtain ⟨hp, hn⟩ := h.loaded s hs
    exact ⟨hp.congr fun id hid => same id (hn id hid), fun id hid => later id (hn id hid)⟩

/-- Reading one more program keeps a world safe: its identities are new, and its addresses those of
its own variables. -/
theorem Safe.load (h : w.Safe) {tokens : List Token} {finish : Token} {firstId : NodeId}
    (hid : w.nextId ≤ firstId) : (w.load (parse tokens finish firstId)).Safe := by
  obtain ⟨-, hf, ht⟩ := parse_neat tokens finish firstId
  obtain ⟨hp, -⟩ := resolve_placed hf ht fun id hlo => h.fresh id (Nat.le_trans hid hlo)
  have hfile : (w.file (parse tokens finish firstId)).Safe := h.file hid
  refine ⟨hfile.machine, hfile.frame, fun s hs => ?_, hfile.fresh⟩
  rcases List.mem_append.mp hs with hs | hs
  · exact hfile.loaded s hs
  · obtain ⟨hp, hi⟩ := hp.mem hs
    exact ⟨hp, fun id hid => (hf.range id (hi hid)).2⟩

end World

/-- Every world that is reached is safe, whatever its programs were and however they ended. -/
theorem Reachable.safe {clock : Nat → Float} {admitted : List Stmt → Prop} {w : World}
    (h : Reachable clock none admitted w) : w.Safe := by
  induction h with
  | start =>
    exact ⟨Machine.Holds.start clock fun _ => Value.safe_of_ne nofun, rfl, by simp,
      fun id _ => Resolution.find?_empty id⟩
  | load _ hid _ _ ih => exact ih.load hid
  | file _ hid _ ih => exact ih.file hid
  | @execute w s fuel c m _ hs hr ih =>
    obtain ⟨hkeep, hm, -⟩ := ((secure fuel).exec _ _ _ _ (ih.config hs)).result hr
    refine ⟨hm.imp ?_, hkeep.frame.trans ih.frame, ?_, ?_⟩
    · rintro p ⟨run, hrun, hp⟩
      exact ⟨run, List.mem_append_left _ hrun, hp⟩
    · exact fun s hs => hkeep.resolution ▸ ih.loaded s hs
    · exact fun id hid => hkeep.resolution ▸ ih.fresh id hid
  | @stop w s fuel halt m _ hs hr hh ih =>
    have hgo := (secure fuel).exec _ _ _ _ (ih.config hs)
    simp only [Goes, Ends, hr] at hgo
    cases halt with
    | error e =>
      obtain ⟨hkeep, hm⟩ := hgo
      refine ⟨hm.imp ?_, hkeep.frame.trans ih.frame, ?_, ?_⟩
      · rintro p (⟨run, hrun, hp⟩ | hp)
        · exact ⟨run, List.mem_append_left _ hrun, hp⟩
        · exact ⟨_, List.mem_append_right _ List.mem_cons_self, hp⟩
      · exact fun s hs => hkeep.resolution ▸ ih.loaded s hs
      · exact fun id hid => hkeep.resolution ▸ ih.fresh id hid
    | outOfFuel => exact (hh rfl).elim
    | _ => exact hgo.elim
  | print _ ih => exact ⟨⟨ih.machine.locals, ih.machine.globals⟩, ih.frame, ih.loaded, ih.fresh⟩

/-- Programs that are parsed without error do not go astray, whatever their names are at fault. What
is evaluated or executed ends with a result or by an error of the program, if calls may be nested
without limit. A use with an address finds its frame, and its variable as well unless the
declaration of that, in that very frame, is not complete: it has the name, the use stands in its
initial value, and this is still being evaluated or was given up because of an error. -/
theorem resolved_uses_are_safe {clock : Nat → Float} {w : World}
    (hw : Reachable clock none (fun _ => True) w) {s : Stmt} (hs : s ∈ w.loaded) {c : Config}
    (hc : Reaches ⟨.stmt s, none, w.machine⟩ c) :
    (∀ fuel halt t, c.task.run fuel c.room c.machine = .error halt t →
      halt = .outOfFuel ∨ ∃ e, halt = .error e) ∧
    ∀ id name t a, Accesses c id name t → t.resolution.find? id = some a →
      ∃ i target, t.frame = some i ∧ t.store.ancestor? a.distance i = some target ∧
        ((t.store.locate i a.distance a.slot = .ok target ∧
            ∃ v, t.store.read i a.distance a.slot = .ok v) ∨
          t.store.locate i a.distance a.slot = .error .noSlot ∧
            t.store.slots target = a.slot ∧
            ∃ p, p.Explains target a.slot name.lexeme [id] ∧
              (Open ⟨.stmt s, none, w.machine⟩ c p ∨ ∃ run ∈ w.runs, Aborted run p)) := by
  have hsafe := Reaches.safe hc (hw.safe.config hs)
  refine ⟨fun fuel halt t hr => hsafe.run hr, fun id name t a ha hf => ?_⟩
  obtain ⟨i, target, f, hi, hanc, hframe, hslot⟩ := hsafe.access ha hf
  refine ⟨i, target, hi, hanc, ?_⟩
  have hl := Store.locate_of_ancestor? hanc hframe a.slot
  rcases hslot with hlt | ⟨heq, p, hp, hx⟩
  · have hl := hl.trans (if_pos hlt)
    exact Or.inl ⟨hl, Store.exists_read hl⟩
  · exact Or.inr ⟨hl.trans (if_neg (by omega)), heq.symm, p, hx, hp.symm⟩

/-- The name in `ownInitializer`. -/
def selfNamed : Token := ⟨.identifier, "a", .nil, 1⟩

/-- The tokens of a block with a variable that is its own initial value. -/
def ownInitializer : List Token :=
  [⟨.leftBrace, "\x7b", .nil, 1⟩, ⟨.kwVar, "var", .nil, 1⟩, selfNamed, ⟨.equal, "=", .nil, 1⟩,
    selfNamed, ⟨.semicolon, ";", .nil, 1⟩, ⟨.rightBrace, "\x7d", .nil, 1⟩]

/-- The world in which `ownInitializer` has been read. -/
def selfish : World :=
  World.load ⟨.start fun _ => 0, 0, [], []⟩ (parse ownInitializer (.endOfInput 1) 0)

theorem resolved_uses_are_safe_ownInitializer :
    ∃ c p, Open ⟨.stmt (.block [.var selfNamed (some (.reference 0 selfNamed))]), none,
      selfish.machine⟩ c p ∧ p.Explains 0 0 "a" [0] := by
  have hw : Reachable (fun _ => 0) none (fun _ => True) selfish :=
    .load .start (Nat.le_refl 0) rfl trivial
  have hs : .block [.var selfNamed (some (.reference 0 selfNamed))] ∈ selfish.loaded :=
    List.mem_singleton.mpr rfl
  have hc : Reaches ⟨.stmt (.block [.var selfNamed (some (.reference 0 selfNamed))]), none,
      selfish.machine⟩ ⟨.expr (.reference 0 selfNamed), none, selfish.machine.enter none #[]⟩ :=
    .tail (.tail (.single ⟨0, .block⟩) ⟨0, .statement⟩) ⟨0, .initial⟩
  obtain ⟨i, target, hi, hanc, h⟩ :=
    (resolved_uses_are_safe hw hs hc).2 0 selfNamed _ ⟨0, 0⟩ .read rfl
  cases hi
  cases hanc
  rcases h with ⟨hl, -⟩ | ⟨-, -, p, hx, ho | ⟨run, hrun, -⟩⟩
  · cases hl
  · exact ⟨_, p, ho, hx⟩
  · cases hrun

end Lox
