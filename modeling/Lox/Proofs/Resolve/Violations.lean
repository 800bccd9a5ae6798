import Lox.Proofs.Parse.Making
import Lox.Proofs.Resolve.Opened

/-! A walk over a program, place by place: the addresses it notes and the errors it reports are
those of the places, in order. -/
namespace Lox

/-- What is around a statement within its innermost function, as a walk knows it. -/
def Surroundings.context (around : Surroundings) : Resolve.Context :=
  ⟨around.inFunction, around.inLoop⟩

/-- The address that a walk notes at a place, if the open scopes have the name. -/
def Place.located? (p : Place) : Option Located :=
  match p.node with
  | .use id access name =>
    (Resolve.address? name.lexeme (Resolve.opened p.around)).map (⟨id, access, name, ·⟩)
  | .other _ | .declared _ | .breakLoop _ | .giveBack _ => none

/-- A place is located if it is a use of a name that some scope around has. -/
theorem Place.located?_eq_some_iff {p : Place} {u : Located} :
    p.located? = some u ↔ p.node = .use u.id u.access u.name ∧
      Resolve.address? u.name.lexeme (Resolve.opened p.around) = some u.address := by
  obtain ⟨around, node⟩ := p
  obtain ⟨id, access, name, address⟩ := u
  cases node with
  | use id' access' name' =>
    simp only [located?, Option.map_eq_some_iff, Located.mk.injEq, Node.use.injEq]
    constructor
    · rintro ⟨a, ha, rfl, rfl, rfl, rfl⟩
      exact ⟨⟨rfl, rfl, rfl⟩, ha⟩
    · rintro ⟨⟨rfl, rfl, rfl⟩, ha⟩
      exact ⟨address, ha, rfl, rfl, rfl, rfl⟩
  | other | declared | breakLoop | giveBack => simp [located?]

namespace Resolve

variable {f g : Walk → Walk} {Γ Δ Θ : List LocalScope} {ps qs : List Place} {name : Token}
  {around : Surroundings} {context : Context}

/-- From `Γ` a walk goes to `Δ`, and finds what is to be found at some places. -/
def Sees (f : Walk → Walk) (Γ Δ : List LocalScope) (ps : List Place) : Prop :=
  ∀ us es, f ⟨Γ, us, es⟩ = ⟨Δ, us ++ (ps.filterMap Place.located?).toArray,
    es ++ (ps.filterMap Place.violation?).toArray⟩

theorem Sees.nothing : Sees id Γ Γ [] := by simp [Sees]

/-- A walk in two parts sees the places of both, in order. -/
theorem Sees.seq (hf : Sees f Γ Δ ps) (hg : Sees g Δ Θ qs) :
    Sees (fun w => g (f w)) Γ Θ (ps ++ qs) := by
  intro us es
  simp only [hf us es, hg _ _, List.filterMap_append, Array.append_assoc, List.append_toArray]

theorem Sees.inScope (hf : Sees f (.empty :: Γ) Δ ps) (h : Δ.tail = Γ) :
    Sees (inScope f) Γ Γ ps := by
  intro us es
  simp [Resolve.inScope, hf us es, h]

theorem sees_place {p : Place} (h : ∀ us es, f ⟨Γ, us, es⟩ =
    ⟨Δ, us ++ p.located?.toList.toArray, es ++ p.violation?.toList.toArray⟩) :
    Sees f Γ Δ [p] := by
  intro us es
  rw [h us es]
  cases hl : p.located? <;> cases hv : p.violation? <;> simp [hl, hv]

/-- An expression that is no use adds nothing. -/
theorem Sees.other (hf : Sees f Γ Δ ps) (around : Surroundings) (id : NodeId) :
    Sees f Γ Δ (ps ++ [⟨around, .other id⟩]) :=
  hf.seq (sees_place (f := fun w => w) fun us es => by simp [Place.located?, Place.violation?])

theorem use_eq (id : NodeId) (access : Access) (us : Array Located) (es : Array ScopeError) :
    use id access name ⟨Γ, us, es⟩ = ⟨Γ, us ++ ((address? name.lexeme Γ).map
      (⟨id, access, name, ·⟩ : Address → Located)).toList.toArray, es⟩ := by
  unfold use
  cases address? name.lexeme Γ <;> simp

theorem checkReady_eq (us : Array Located) (es : Array ScopeError) [Decidable (Ready Γ name)] :
    checkReady name ⟨Γ, us, es⟩ =
      ⟨Γ, us, if Ready Γ name then es else es.push ⟨.ownInitializer, name⟩⟩ := by
  unfold checkReady
  cases Γ with
  | nil => simp [Ready]
  | cons scope outer =>
    cases h : scope.get? name.lexeme with
    | none => simp [Ready, h]
    | some binding =>
      obtain ⟨slot, _ | _⟩ := binding <;> simp [Ready, h, complain]

/-- A read is checked first and then located, as one place. -/
theorem sees_read (id : NodeId) (h : Faithful around) :
    Sees (fun w => use id .read name (checkReady name w)) (opened around) (opened around)
      [⟨around, .use id .read name⟩] := by
  classical
  refine sees_place fun us es => ?_
  simp only [checkReady_eq, use_eq, h name, Place.located?, Place.violation?]
  cases around.initializes name.lexeme <;> simp

theorem sees_write (id : NodeId) :
    Sees (use id .write name) (opened around) (opened around) [⟨around, .use id .write name⟩] :=
  sees_place fun us es => by simp [use_eq, Place.located?, Place.violation?]

theorem sees_declare :
    Sees (declare name) (opened around) (declared name (opened around))
      [⟨around, .declared name⟩] := by
  refine sees_place fun us es => ?_
  have hrecords := opened_records around
  simp only [declare, declared, Place.located?, Place.violation?]
  cases h : opened around with
  | nil =>
    rw [h] at hrecords
    simp [List.forall₂_nil_left_iff.mp hrecords]
  | cons scope outer =>
    rw [h] at hrecords
    simp only [← contains_head hrecords]
    by_cases hc : scope.contains name.lexeme <;> simp [complain, hc]

theorem sees_define : Sees (define name) (declared name Γ) (entered name Γ) [] := by
  intro us es
  cases Γ with
  | nil => simp [define, declared, entered]
  | cons scope outer => simp [define, declared, entered, NameTable.get?_put, put_put]

theorem sees_enter :
    Sees (fun w => define name (declare name w)) (opened around) (entered name (opened around))
      [⟨around, .declared name⟩] := sees_declare.seq sees_define

/-- Parameters are seen one after the other, each with those before it. -/
theorem sees_parameters (names : List Token) : ∀ before : List Token,
    Sees (parameters names) (opened (.body before [] :: around))
      (opened (.body (before ++ names) [] :: around)) (paramPlaces around before names) := by
  induction names with
  | nil =>
    intro before
    rw [List.append_nil]
    exact Sees.nothing
  | cons name names ih =>
    intro before
    have hstep : entered name (opened (.body before [] :: around)) =
        opened (.body (before ++ [name]) [] :: around) := by
      simp [opened, enteredAll, afterAll]
    have hrest := ih (before ++ [name])
    rw [← hstep, List.append_assoc] at hrest
    exact sees_enter.seq hrest

theorem sees_breakLoop (keyword : Token) :
    Sees (stmt around.context (.breakLoop keyword)) Γ Γ [⟨around, .breakLoop keyword⟩] := by
  refine sees_place fun us es => ?_
  simp only [stmt, Surroundings.context, Place.located?, Place.violation?]
  by_cases h : around.inLoop <;> simp [complain, h]

theorem sees_giveBack (keyword : Token) :
    Sees (fun w => if around.context.inFunction then w
      else complain .returnOutsideFunction keyword w) Γ Γ [⟨around, .giveBack keyword⟩] := by
  refine sees_place fun us es => ?_
  simp only [Surroundings.context, Place.located?, Place.violation?]
  by_cases h : around.inFunction <;> simp [complain, h]

/-- What is around each statement of a list, given by those before it, as a walk over the list
finds it. -/
structure Lists (context : Context) (within : List Stmt → Surroundings) : Prop where
  settled : ∀ before, Settled (within before)
  context : ∀ before, (within before).context = context
  opened : ∀ before s, opened (within (before ++ [s])) = after (opened (within before)) s

theorem lists_program : Lists .program fun _ => [] :=
  ⟨fun _ => trivial, fun _ => rfl, fun _ s => by cases s <;> rfl⟩

theorem afterAll_concat (before : List Stmt) (s : Stmt) :
    afterAll Γ (before ++ [s]) = after (afterAll Γ before) s := by simp [afterAll]

theorem lists_block (h : Settled around) :
    Lists around.context fun before => .block before :: around :=
  ⟨fun _ => h, fun _ => rfl, fun before s => afterAll_concat before s⟩

theorem lists_body (around : Surroundings) (params : List Token) :
    Lists .function fun before => .body params before :: around :=
  ⟨fun _ => trivial, fun _ => rfl, fun before s => afterAll_concat before s⟩

mutual

/-- The walk over an expression sees its places. -/
theorem sees_expr : ∀ (e : Expr) (around : Surroundings), Faithful around → e.Tidy →
    Sees (expr e) (opened around) (opened around) (e.places around)
  | .literal id _, around, _, _ => Sees.nothing.other around id
  | .group id inner, around, hf, ht => (sees_expr inner around hf ht).other around id
  | .unary id _ _ operand, around, hf, ht => (sees_expr operand around hf ht).other around id
  | .binary id left _ _ right, around, hf, ht =>
    (sees_expr left around hf ht.1).seq ((sees_expr right around hf ht.2).other around id)
  | .logical id left _ _ right, around, hf, ht =>
    (sees_expr left around hf ht.1).seq ((sees_expr right around hf ht.2).other around id)
  | .reference id _, _, hf, _ => sees_read id hf
  | .assign id _ value, around, hf, ht => (sees_expr value around hf ht).seq (sees_write id)
  | .call id callee _ arguments, around, hf, ht =>
    (sees_expr callee around hf ht.1).seq ((sees_exprs arguments around hf ht.2).other around id)
  | .lambda fn, around, _, ht => sees_lambda fn around ht

theorem sees_exprs : ∀ (es : List Expr) (around : Surroundings), Faithful around →
    Expr.TidyAll es → Sees (exprs es) (opened around) (opened around) (Expr.placesAll around es)
  | [], _, _, _ => Sees.nothing
  | e :: es, around, hf, ht => (sees_expr e around hf ht.1).seq (sees_exprs es around hf ht.2)

theorem sees_expr? : ∀ (e : Option Expr) (around : Surroundings), Faithful around →
    Expr.Tidy? e → Sees (expr? e) (opened around) (opened around) (Expr.places? around e)
  | none, _, _, _ => Sees.nothing
  | some e, around, hf, ht => sees_expr e around hf ht

theorem sees_lambda : ∀ (fn : Lambda) (around : Surroundings), fn.Tidy →
    Sees (lambda fn) (opened around) (opened around) (fn.places around)
  | .mk id names body, around, ht => by
    have walk := (sees_parameters names []).seq
      ((sees_stmts body (lists_body around names) [] ht).other around id)
    refine walk.inScope ?_
    simp only [List.nil_append, opened, tail_afterAll, tail_enteredAll, List.tail_cons]

/-- The walk over a statement sees its places and ends in the scopes that the statement leaves. -/
theorem sees_stmt : ∀ (s : Stmt) (around : Surroundings), Settled around → s.Tidy →
    Sees (stmt around.context s) (opened around) (after (opened around) s) (s.places around)
  | .expression value, around, hs, ht => sees_expr value around hs.faithful ht
  | .print value, around, hs, ht => sees_expr value around hs.faithful ht
  | .var name initial, around, hs, ht => by
    have first := sees_declare.seq (sees_expr? initial (.initial name :: around)
      (hs.initial name) ht)
    have walk := first.seq sees_define
    rwa [List.append_nil] at walk
  | .block body, around, hs, ht =>
    (sees_stmts body (lists_block hs) [] ht).inScope (tail_afterAll body)
  | .branch _ condition yes no, around, hs, ⟨hc, ⟨hy, hyes⟩, hno⟩ => by
    have first := sees_stmt yes around hs hyes
    rw [after_of_not_declares hy] at first
    exact (sees_expr condition around hs.faithful hc).seq (first.seq (sees_stmt? no around hs hno))
  | .loop _ condition body, around, hs, ⟨hc, hb, hbody⟩ => by
    have turn := sees_stmt body (.loop :: around) hs hbody
    rw [after_of_not_declares hb] at turn
    exact (sees_expr condition around hs.faithful hc).seq turn
  | .breakLoop keyword, _, _, _ => sees_breakLoop keyword
  | .function name fn, around, _, ht =>
    sees_enter.seq (sees_lambda fn (.function name :: around) ht)
  | .giveBack keyword value, around, hs, ht =>
    (sees_giveBack keyword).seq (sees_expr? value around hs.faithful ht)

/-- Statements are seen in order, each among those before it. -/
theorem sees_stmts : ∀ (ss : List Stmt) {context : Context} {within : List Stmt → Surroundings},
    Lists context within → ∀ before : List Stmt, Stmt.TidyAll ss →
    Sees (stmts context ss) (opened (within before)) (opened (within (before ++ ss)))
      (Stmt.placesAll within before ss)
  | [], _, _, _, before, _ => by
    rw [List.append_nil]
    exact Sees.nothing
  | s :: ss, _, within, hl, before, ht => by
    have first := sees_stmt s (within before) (hl.settled before) ht.1
    have rest := sees_stmts ss hl (before ++ [s]) ht.2
    rw [hl.context before, ← hl.opened before s] at first
    rw [List.append_assoc] at rest
    exact first.seq rest

theorem sees_stmt? : ∀ (s : Option Stmt) (around : Surroundings), Settled around →
    Stmt.Tidy? s →
    Sees (stmt? around.context s) (opened around) (opened around) (Stmt.places? around s)
  | none, _, _, _ => Sees.nothing
  | some s, around, hs, ht => by
    have walk := sees_stmt s around hs ht.2
    rw [after_of_not_declares ht.1] at walk
    exact walk

end

end Resolve

/-- What resolving a tidy program finds, place by place. -/
theorem resolve_eq_places {program : List Stmt} (ht : Stmt.TidyAll program) :
    resolve program = ⟨(places program).filterMap Place.located?,
      (places program).filterMap Place.violation?⟩ := by
  have walk := Resolve.sees_stmts program Resolve.lists_program [] ht #[] #[]
  rw [Resolve.opened] at walk
  simp [resolve, Resolve.Walk.start, walk, places]

/-- Resolving reports one error for each place that violates a rule of scope, in the order of
reading, and no other. So it reports none exactly if no place violates one. -/
theorem resolve_errors_eq_violations (tokens : List Token) (finish : Token) (firstId : NodeId) :
    let program := (parse tokens finish firstId).program
    (resolve program).errors = (places program).filterMap Place.violation? ∧
      ((resolve program).errors = [] ↔ ∀ p ∈ places program, p.violation? = none) := by
  intro program
  have h := congrArg Resolve.errors (resolve_eq_places (parse_neat tokens finish firstId).2.2)
  exact ⟨h, by rw [h, List.filterMap_eq_nil_iff]⟩

end Lox
