import Lox.Proofs.Resolve.Scopes

/-! A walk goes on from the open scopes alone: what it found before is kept, and what it finds
places every use, and says that nothing is at fault if it finds no error. -/
namespace Lox.Resolve

variable {f g : Walk → Walk} {Γ Δ Θ : List LocalScope} {as bs : List NodeId}
  {p q : Resolution → Prop} {P Q : Prop} {name : Token}

/-- A table has the addresses of some uses, and no others for some identities. -/
def Files (table : Resolution) (uses : Array Located) (ids : List NodeId) : Prop :=
  ∀ id ∈ ids, table.find? id = (uses.toList.find? (·.id = id)).map (·.address)

/-- From `Γ` a walk goes to `Δ`. `placed` holds of the tables with the uses it finds under `ids`,
and `faultless` if it finds no error. -/
def Finds (f : Walk → Walk) (Γ Δ : List LocalScope) (ids : List NodeId)
    (placed : Resolution → Prop) (faultless : Prop) : Prop :=
  ∃ (uses : Array Located) (errors : Array ScopeError),
    (∀ us es, f ⟨Γ, us, es⟩ = ⟨Δ, us ++ uses, es ++ errors⟩) ∧
    (uses.toList.map (·.id)).Sublist ids ∧
    (∀ table, Files table uses ids → placed table) ∧
    (errors = #[] → faultless)

theorem Files.subset {table : Resolution} {uses : Array Located} (h : Files table uses bs)
    (hab : as ⊆ bs) : Files table uses as := fun id hid => h id (hab hid)

theorem find_none {uses : Array Located} {id : NodeId} (h : id ∉ uses.toList.map (·.id)) :
    uses.toList.find? (·.id = id) = none := by
  rw [List.find?_eq_none]
  intro u hu he
  exact h (List.mem_map.mpr ⟨u, hu, by simpa using he⟩)

/-- The uses of two walks are filed apart if their identities are. -/
theorem Files.split {table : Resolution} {us vs : Array Located}
    (h : Files table (us ++ vs) (as ++ bs)) (hd : (as ++ bs).Nodup)
    (hus : (us.toList.map (·.id)).Sublist as) (hvs : (vs.toList.map (·.id)).Sublist bs) :
    Files table us as ∧ Files table vs bs := by
  have apart := (List.nodup_append.mp hd).2.2
  constructor
  · intro id hid
    rw [h id (List.mem_append_left _ hid), Array.toList_append, List.find?_append,
      find_none fun hv => apart id hid id (hvs.subset hv) rfl, Option.or_none]
  · intro id hid
    rw [h id (List.mem_append_right _ hid), Array.toList_append, List.find?_append,
      find_none fun hu => apart id (hus.subset hu) id hid rfl, Option.none_or]

theorem Finds.nothing (hp : ∀ table, p table) (hP : P) : Finds id Γ Γ [] p P :=
  ⟨#[], #[], by simp, by simp, fun table _ => hp table, fun _ => hP⟩

/-- Walks one after the other find what each finds, on different identities. -/
theorem Finds.seq (hf : Finds f Γ Δ as p P) (hg : Finds g Δ Θ bs q Q) (hd : (as ++ bs).Nodup) :
    Finds (fun w => g (f w)) Γ Θ (as ++ bs) (fun table => p table ∧ q table) (P ∧ Q) := by
  obtain ⟨us, es, hf, hus, hp, hP⟩ := hf
  obtain ⟨vs, fs, hg, hvs, hq, hQ⟩ := hg
  refine ⟨us ++ vs, es ++ fs, ?_, ?_, ?_, ?_⟩
  · intro us' es'
    simp [hf, hg, Array.append_assoc]
  · simpa using hus.append hvs
  · intro table h
    have := h.split hd hus hvs
    exact ⟨hp table this.1, hq table this.2⟩
  · intro h
    have := Array.append_eq_empty_iff.mp h
    exact ⟨hP this.1, hQ this.2⟩

theorem Finds.mono (hf : Finds f Γ Δ as p P) (hab : as.Sublist bs)
    (hpq : ∀ table, p table → q table) (hPQ : P → Q) : Finds f Γ Δ bs q Q := by
  obtain ⟨us, es, hf, hus, hp, hP⟩ := hf
  exact ⟨us, es, hf, hus.trans hab, fun table h => hpq table (hp table (h.subset hab.subset)),
    fun h => hPQ (hP h)⟩

theorem Finds.imp (hf : Finds f Γ Δ as p P) (hpq : ∀ table, p table → q table) (hPQ : P → Q) :
    Finds f Γ Δ as q Q := hf.mono (List.Sublist.refl _) hpq hPQ

/-- The identity of an expression that is no use. -/
theorem Finds.root (hf : Finds f Γ Δ as p P) (id : NodeId) : Finds f Γ Δ (as ++ [id]) p P :=
  hf.mono (List.sublist_append_left _ _) (fun _ h => h) fun h => h

/-- A declaration is at fault where the scope has the name already. -/
theorem finds_declare :
    Finds (declare name) Γ (declared name Γ) [] (fun _ => True) (New Γ name) := by
  unfold declare declared
  cases Γ with
  | nil => exact ⟨#[], #[], by simp, by simp, by simp, by simp [New]⟩
  | cons scope outer =>
    by_cases h : scope.contains name.lexeme = true
    · exact ⟨#[], #[⟨.redeclared, name⟩], by simp [h, complain], by simp, by simp, by simp⟩
    · refine ⟨#[], #[], by simp [h], by simp, by simp, ?_⟩
      simpa [New, NameTable.contains] using h

theorem put_put {α : Type} (table : NameTable α) (name : String) (a b : α) :
    (table.put name a).put name b = table.put name b := by
  obtain ⟨es⟩ := table
  simp only [NameTable.put, NameTable.mk.injEq]
  induction es with
  | nil => simp [NameTable.putEntry]
  | cons e es ih => by_cases h : e.1 = name <;> simp [NameTable.putEntry, h, ih]

theorem finds_define :
    Finds (define name) (declared name Γ) (entered name Γ) [] (fun _ => True) True := by
  refine ⟨#[], #[], ?_, by simp, by simp, by simp⟩
  intro us es
  cases Γ with
  | nil => simp [define, declared, entered]
  | cons scope outer =>
    simp [define, declared, entered, NameTable.get?_put, put_put]

/-- A name is entered at once if nothing is resolved in between. -/
theorem finds_enter :
    Finds (fun w => define name (declare name w)) Γ (entered name Γ) [] (fun _ => True)
      (New Γ name) :=
  (finds_declare.seq finds_define (by simp)).imp (fun _ _ => trivial) fun h => h.1

theorem finds_parameters (names : List Token) :
    Finds (parameters names) Γ (enteredAll names Γ) [] (fun _ => True) (NewAll Γ names) := by
  induction names generalizing Γ with
  | nil => exact Finds.nothing (fun _ => trivial) trivial
  | cons name names ih =>
    exact (finds_enter.seq (ih (Γ := entered name Γ)) (by simp)).imp (fun _ _ => trivial) fun h => h

/-- A use is filed with the address of the name in the scopes around. -/
theorem finds_use (id : NodeId) (access : Access) :
    Finds (use id access name) Γ Γ [id] (At · Γ id name) True := by
  cases h : address? name.lexeme Γ with
  | none =>
    refine ⟨#[], #[], by simp [use, h], by simp, ?_, by simp⟩
    intro table ht
    simpa [At, h] using ht id (by simp)
  | some address =>
    refine ⟨#[⟨id, access, name, address⟩], #[], by simp [use, h], by simp, ?_, by simp⟩
    intro table ht
    simpa [At, h] using ht id (by simp)

/-- A read is at fault while the variable is not ready. -/
theorem finds_checkReady :
    Finds (checkReady name) Γ Γ [] (fun _ => True) (Ready Γ name) := by
  cases Γ with
  | nil => exact ⟨#[], #[], by simp [checkReady], by simp, by simp, by simp [Ready]⟩
  | cons scope outer =>
    cases h : scope.get? name.lexeme with
    | none => exact ⟨#[], #[], by simp [checkReady, h], by simp, by simp, by simp [Ready, h]⟩
    | some binding =>
      obtain ⟨slot, ready⟩ := binding
      cases ready with
      | true => exact ⟨#[], #[], by simp [checkReady, h], by simp, by simp, by simp [Ready, h]⟩
      | false =>
        exact ⟨#[], #[⟨.ownInitializer, name⟩], by simp [checkReady, h, complain], by simp,
          by simp, by simp⟩

theorem Finds.inScope (hf : Finds f (.empty :: Γ) Δ as p P) (h : Δ.tail = Γ) :
    Finds (inScope f) Γ Γ as p P := by
  obtain ⟨us, es, hf, hus, hp, hP⟩ := hf
  exact ⟨us, es, fun us' es' => by simp [Resolve.inScope, hf, h], hus, hp, hP⟩

def afterAll (Γ : List LocalScope) (ss : List Stmt) : List LocalScope := ss.foldl after Γ

theorem tail_entered : (entered name Γ).tail = Γ.tail := by cases Γ <;> rfl

theorem tail_enteredAll (names : List Token) : (enteredAll names Γ).tail = Γ.tail := by
  induction names generalizing Γ with
  | nil => rfl
  | cons name names ih => exact ih.trans tail_entered

theorem tail_afterAll (ss : List Stmt) : (afterAll Γ ss).tail = Γ.tail := by
  induction ss generalizing Γ with
  | nil => rfl
  | cons s ss ih =>
    refine ih.trans ?_
    cases s <;> first | rfl | exact tail_entered

variable {context : Context}

mutual

/-- The walk files an expression as it is placed, and complains of it exactly if it is faulty. -/
theorem finds_expr : ∀ (e : Expr) (Γ : List LocalScope), e.Tidy → e.ids.Nodup →
    Finds (expr e) Γ Γ e.ids (e.Placed · Γ) (e.Faultless Γ)
  | .literal id _, Γ, _, _ =>
    (Finds.nothing (fun _ => trivial) trivial).mono (List.nil_sublist _) (fun _ h => h) fun h => h
  | .group id inner, Γ, ht, hd =>
    (finds_expr inner Γ ht (hd.sublist (List.sublist_append_left _ _))).root id
  | .unary id _ _ operand, Γ, ht, hd =>
    (finds_expr operand Γ ht (hd.sublist (List.sublist_append_left _ _))).root id
  | .binary id left _ _ right, Γ, ht, hd => by
    rw [Expr.ids, ← List.append_assoc] at hd ⊢
    have hd := hd.sublist (List.sublist_append_left _ _)
    have hs := List.nodup_append.mp hd
    exact ((finds_expr left Γ ht.1 hs.1).seq (finds_expr right Γ ht.2 hs.2.1) hd).root id
  | .logical id left _ _ right, Γ, ht, hd => by
    rw [Expr.ids, ← List.append_assoc] at hd ⊢
    have hd := hd.sublist (List.sublist_append_left _ _)
    have hs := List.nodup_append.mp hd
    exact ((finds_expr left Γ ht.1 hs.1).seq (finds_expr right Γ ht.2 hs.2.1) hd).root id
  | .reference id name, Γ, _, _ =>
    (finds_checkReady.seq (finds_use id .read) (by simp)).imp (fun _ h => h.2) fun h => h.1
  | .assign id name value, Γ, ht, hd =>
    ((finds_expr value Γ ht (hd.sublist (List.sublist_append_left _ _))).seq
      (finds_use id .write) hd).imp (fun _ h => h) fun h => h.1
  | .call id callee _ arguments, Γ, ht, hd => by
    rw [Expr.ids, ← List.append_assoc] at hd ⊢
    have hd := hd.sublist (List.sublist_append_left _ _)
    have hs := List.nodup_append.mp hd
    exact ((finds_expr callee Γ ht.1 hs.1).seq (finds_exprs arguments Γ ht.2 hs.2.1) hd).root id
  | .lambda fn, Γ, ht, hd => finds_lambda fn Γ ht hd

theorem finds_exprs : ∀ (es : List Expr) (Γ : List LocalScope), Expr.TidyAll es →
    (Expr.idsAll es).Nodup →
    Finds (exprs es) Γ Γ (Expr.idsAll es) (Expr.PlacedAll · Γ es) (Expr.FaultlessAll Γ es)
  | [], _, _, _ => Finds.nothing (fun _ => trivial) trivial
  | e :: es, Γ, ht, hd =>
    have hs := List.nodup_append.mp hd
    (finds_expr e Γ ht.1 hs.1).seq (finds_exprs es Γ ht.2 hs.2.1) hd

theorem finds_expr? : ∀ (e : Option Expr) (Γ : List LocalScope), Expr.Tidy? e →
    (Expr.ids? e).Nodup →
    Finds (expr? e) Γ Γ (Expr.ids? e) (Expr.Placed? · Γ e) (Expr.Faultless? Γ e)
  | none, _, _, _ => Finds.nothing (fun _ => trivial) trivial
  | some e, Γ, ht, hd => finds_expr e Γ ht hd

theorem finds_lambda : ∀ (fn : Lambda) (Γ : List LocalScope), fn.Tidy → fn.ids.Nodup →
    Finds (lambda fn) Γ Γ fn.ids (fn.Placed · Γ) (fn.Faultless Γ)
  | .mk id names body, Γ, ht, hd => by
    have hd := hd.sublist (List.sublist_append_left _ _)
    have walk := (finds_parameters names (Γ := .empty :: Γ)).seq
      (finds_stmts body .function (enteredAll names (.empty :: Γ)) ht hd) (by simpa using hd)
    refine ((walk.imp (fun _ h => h.2) fun h => h).inScope ?_).root id
    rw [tail_afterAll, tail_enteredAll, List.tail_cons]

/-- The walk files a statement as it is placed, and complains of it exactly if it is faulty. -/
theorem finds_stmt : ∀ (s : Stmt) (context : Context) (Γ : List LocalScope), s.Tidy →
    s.ids.Nodup →
    Finds (stmt context s) Γ (after Γ s) s.ids (s.Placed · Γ) (s.Faultless context Γ)
  | .expression value, _, Γ, ht, hd => finds_expr value Γ ht hd
  | .print value, _, Γ, ht, hd => finds_expr value Γ ht hd
  | .var name initial, _, Γ, ht, hd => by
    have first := finds_declare.seq (finds_expr? initial (declared name Γ) ht hd)
      (by simpa [Stmt.ids] using hd)
    exact (first.seq finds_define (by simpa [Stmt.ids] using hd)).mono (by simp [Stmt.ids])
      (fun _ h => h.1.2) fun h => h.1
  | .block body, context, Γ, ht, hd =>
    (finds_stmts body context (.empty :: Γ) ht hd).inScope (tail_afterAll body)
  | .branch _ condition yes no, context, Γ, ht, hd => by
    obtain ⟨hc, ⟨hy, hyes⟩, hno⟩ := ht
    have hs := List.nodup_append.mp hd
    have hs' := List.nodup_append.mp hs.2.1
    have rest := (finds_stmt yes context Γ hyes hs'.1).seq
      (finds_stmt? no context (after Γ yes) hno hs'.2.1) hs.2.1
    rw [after_of_not_declares hy] at rest
    exact ((finds_expr condition Γ hc hs.1).seq rest hd).imp (fun _ h => ⟨h.1, ⟨hy, h.2.1⟩, h.2.2⟩)
      fun h => h
  | .loop _ condition body, context, Γ, ht, hd => by
    obtain ⟨hc, hb, hbody⟩ := ht
    have hs := List.nodup_append.mp hd
    have rest := finds_stmt body { context with inLoop := true } Γ hbody hs.2.1
    rw [after_of_not_declares hb] at rest
    exact ((finds_expr condition Γ hc hs.1).seq rest hd).imp (fun _ h => ⟨h.1, hb, h.2⟩) fun h => h
  | .breakLoop keyword, context, Γ, _, _ => by
    cases h : context.inLoop with
    | true => exact ⟨#[], #[], by simp [stmt, h, after], by simp, by simp [Stmt.Placed],
        by simp [Stmt.Faultless, h]⟩
    | false => exact ⟨#[], #[⟨.breakOutsideLoop, keyword⟩], by simp [stmt, h, after, complain],
        by simp, by simp [Stmt.Placed], by simp⟩
  | .function name fn, _, Γ, ht, hd =>
    (finds_enter.seq (finds_lambda fn (entered name Γ) ht hd) (by simpa [Stmt.ids] using hd)).imp
      (fun _ h => h.2) fun h => h
  | .giveBack keyword value, context, Γ, ht, hd => by
    have jump : Finds (fun w => if context.inFunction then w
        else complain .returnOutsideFunction keyword w) Γ Γ [] (fun _ => True)
        (context.inFunction = true) := by
      cases h : context.inFunction with
      | true => exact Finds.nothing (fun _ => trivial) rfl
      | false => exact ⟨#[], #[⟨.returnOutsideFunction, keyword⟩], by simp [complain], by simp,
          by simp, by simp⟩
    exact (jump.seq (finds_expr? value Γ ht hd) (by simpa [Stmt.ids] using hd)).imp
      (fun _ h => h.2) fun h => h

theorem finds_stmts : ∀ (ss : List Stmt) (context : Context) (Γ : List LocalScope),
    Stmt.TidyAll ss → (Stmt.idsAll ss).Nodup →
    Finds (stmts context ss) Γ (afterAll Γ ss) (Stmt.idsAll ss) (Stmt.PlacedAll · Γ ss)
      (Stmt.FaultlessAll context Γ ss)
  | [], _, _, _, _ => Finds.nothing (fun _ => trivial) trivial
  | s :: ss, context, Γ, ht, hd =>
    have hs := List.nodup_append.mp hd
    (finds_stmt s context Γ ht.1 hs.1).seq (finds_stmts ss context (after Γ s) ht.2 hs.2.1) hd

theorem finds_stmt? : ∀ (s : Option Stmt) (context : Context) (Γ : List LocalScope),
    Stmt.Tidy? s → (Stmt.ids? s).Nodup →
    Finds (stmt? context s) Γ Γ (Stmt.ids? s) (Stmt.Placed? · Γ s) (Stmt.Faultless? context Γ s)
  | none, _, _, _, _ => Finds.nothing (fun _ => trivial) trivial
  | some s, context, Γ, ht, hd => by
    have walk := finds_stmt s context Γ ht.2 hd
    rw [after_of_not_declares ht.1] at walk
    exact walk.imp (fun _ h => ⟨ht.1, h⟩) fun h => h

end

end Lox.Resolve

namespace Lox

open Resolve

/-- What was filed under an identity, after some uses are filed whose identities differ. -/
theorem find?_recordAll (table : Resolution) (uses : List Located)
    (hd : (uses.map (·.id)).Nodup) (id : NodeId) :
    (table.recordAll uses).find? id =
      ((uses.find? (·.id = id)).map (·.address)).or (table.find? id) := by
  induction uses generalizing table with
  | nil => rfl
  | cons u us ih =>
    obtain ⟨hu, hus⟩ := List.nodup_cons.mp hd
    have step : (table.recordAll (u :: us)).find? id =
        ((table.record u.id u.address).recordAll us).find? id := rfl
    rw [step, ih _ hus, Resolution.find?_record]
    by_cases h : u.id = id
    · have none : us.find? (·.id = id) = none := by
        rw [List.find?_eq_none]
        intro v hv he
        exact hu (List.mem_map.mpr ⟨v, hv, (of_decide_eq_true he).trans h.symm⟩)
      simp [h, none]
    · simp [h, Ne.symm h]

/-- Resolving a tidy program with identities that a table does not know files the address of every
use, and leaves alone what was filed before. -/
theorem resolve_placed {program : List Stmt} {lo hi : Nat} {table : Resolution}
    (hf : Fresh lo hi (Stmt.idsAll program)) (ht : Stmt.TidyAll program)
    (hn : ∀ id, lo ≤ id → table.find? id = none) :
    Stmt.PlacedAll (table.recordAll (resolve program).located) [] program ∧
      (∀ id, id < lo → (table.recordAll (resolve program).located).find? id = table.find? id) ∧
      (∀ id, hi ≤ id → lo ≤ id → (table.recordAll (resolve program).located).find? id = none) ∧
      ((resolve program).errors = [] → Stmt.FaultlessAll .program [] program) := by
  obtain ⟨uses, errors, hw, hsub, hp, hfault⟩ := finds_stmts program .program [] ht hf.nodup
  have walk := hw #[] #[]
  have hloc : (resolve program).located = uses.toList := by simp [resolve, Walk.start, walk]
  have herr : (resolve program).errors = errors.toList := by simp [resolve, Walk.start, walk]
  have hd : (uses.toList.map (·.id)).Nodup := hf.nodup.sublist hsub
  have hfind := find?_recordAll table uses.toList hd
  have other : ∀ id, id ∉ Stmt.idsAll program →
      (table.recordAll uses.toList).find? id = table.find? id := by
    intro id hid
    rw [hfind, find_none fun h => hid (hsub.subset h)]
    rfl
  rw [hloc, herr]
  refine ⟨hp _ ?_, ?_, ?_, ?_⟩
  · intro id hid
    rw [hfind, hn id (hf.range id hid).1, Option.or_none]
  · intro id hid
    exact other id fun h => Nat.not_lt.mpr (hf.range id h).1 hid
  · intro id hid hlo
    rw [other id fun h => Nat.not_lt.mpr hid (hf.range id h).2, hn id hlo]
  · intro he
    exact hfault (by simpa using he)

/-- The walk over statements in order is one walk. -/
theorem Resolve.stmts_append (context : Context) (p q : List Stmt) (w : Walk) :
    stmts context (p ++ q) w = stmts context q (stmts context p w) := by
  induction p generalizing w with
  | nil => rfl
  | cons s ss ih => exact ih (stmt context s w)

/-- Outside of all local scopes no statement opens one. -/
theorem Resolve.afterAll_outside (p : List Stmt) : afterAll [] p = [] := by
  induction p with
  | nil => rfl
  | cons s ss ih =>
    have hs : after [] s = [] := by cases s <;> rfl
    rw [afterAll, List.foldl_cons, hs]
    exact ih

/-- What is wrong with a program does not depend on a program before it. -/
theorem resolve_errors_append {p q : List Stmt} (ht : Stmt.TidyAll (p ++ q))
    (hd : (Stmt.idsAll (p ++ q)).Nodup) :
    (resolve (p ++ q)).errors = (resolve p).errors ++ (resolve q).errors := by
  obtain ⟨hp, hq⟩ := stmt_tidyAll_append.mp ht
  rw [stmt_idsAll_append] at hd
  obtain ⟨hdp, hdq, -⟩ := List.nodup_append.mp hd
  obtain ⟨us, es, hwp, -⟩ := finds_stmts p .program [] hp hdp
  obtain ⟨vs, fs, hwq, -⟩ := finds_stmts q .program [] hq hdq
  rw [afterAll_outside] at hwp hwq
  simp [resolve, Walk.start, stmts_append, hwp, hwq]

end Lox
