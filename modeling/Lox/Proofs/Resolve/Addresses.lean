import Lox.Proofs.Resolve.Violations

/-! The addresses that resolving records are those which the rules of scope give, if it reports no
error. -/
namespace Lox

open Resolve

section Denotes

variable {scopes outer : List (List String)} {names before after : List String} {name : String}
  {address : Address} {Γ : List LocalScope}

/-- A name of the innermost scope is found in no other. -/
theorem denotes_cons_of_mem (h : name ∈ names) :
    Denotes (names :: outer) name address ↔
      ∃ before after, names = before ++ name :: after ∧ address = ⟨0, before.length⟩ := by
  constructor
  · rintro ⟨inner, scope, rest, before, after, heq, hinner, hscope, rfl⟩
    cases inner with
    | nil =>
      obtain ⟨rfl, rfl⟩ := List.cons.inj heq
      exact ⟨before, after, hscope, rfl⟩
    | cons names' inner =>
      obtain ⟨rfl, -⟩ := List.cons.inj heq
      exact absurd h (hinner _ (List.mem_cons_self ..))
  · rintro ⟨before, after, hsplit, rfl⟩
    exact ⟨[], names, outer, before, after, rfl, by simp, hsplit, rfl⟩

/-- A name that the innermost scope does not have is one scope further out. -/
theorem denotes_cons_of_notMem (h : name ∉ names) :
    Denotes (names :: outer) name address ↔
      ∃ a, Denotes outer name a ∧ address = ⟨a.distance + 1, a.slot⟩ := by
  constructor
  · rintro ⟨inner, scope, rest, before, after, heq, hinner, hscope, rfl⟩
    cases inner with
    | nil =>
      obtain ⟨rfl, rfl⟩ := List.cons.inj heq
      exact absurd (hscope ▸ by simp) h
    | cons names' inner =>
      obtain ⟨rfl, rfl⟩ := List.cons.inj heq
      exact ⟨_, ⟨inner, scope, rest, before, after, rfl,
        fun other ho => hinner other (List.mem_cons_of_mem _ ho), hscope, rfl⟩, rfl⟩
  · rintro ⟨_, ⟨inner, scope, rest, before, after, rfl, hinner, hscope, rfl⟩, rfl⟩
    refine ⟨names :: inner, scope, rest, before, after, rfl, ?_, hscope, rfl⟩
    simpa [h] using hinner

/-- A name means a local variable exactly if some scope declares it. -/
theorem exists_denotes_iff :
    (∃ address, Denotes scopes name address) ↔ ∃ names ∈ scopes, name ∈ names := by
  induction scopes with
  | nil => simp [Denotes]
  | cons names outer ih =>
    by_cases h : name ∈ names
    · obtain ⟨before, after, hsplit⟩ := List.append_of_mem h
      exact iff_of_true ⟨_, (denotes_cons_of_mem h).mpr ⟨before, after, hsplit, rfl⟩⟩
        ⟨names, List.mem_cons_self .., h⟩
    · simp [denotes_cons_of_notMem h, h, ← ih]

theorem idxOf_of_split (hd : names.Nodup) (h : names = before ++ name :: after) :
    names.idxOf name = before.length := by
  subst h
  have hnew : name ∉ before := fun hm =>
    (List.nodup_append.mp hd).2.2 name hm name (List.mem_cons_self ..) rfl
  simp [List.idxOf_append_of_notMem hnew]

/-- Where no scope declares a name twice, the open scopes have the address that the rules give. -/
theorem address?_eq_some_iff (h : RecordsAll Γ scopes) (hd : ∀ names ∈ scopes, names.Nodup) :
    address? name Γ = some address ↔ Denotes scopes name address := by
  induction h generalizing address with
  | nil => simp [address?, Denotes]
  | @cons scope names Γ outer hhead htail ih =>
    obtain ⟨hnames, houter⟩ := List.forall_mem_cons.mp hd
    cases hb : scope.get? name with
    | none =>
      have hnew : name ∉ names := by simp [← hhead.contains, NameTable.contains, hb]
      simp only [denotes_cons_of_notMem hnew, address?, hb, Option.map_eq_some_iff, ih houter,
        @eq_comm _ address]
    | some binding =>
      have hmem : name ∈ names := by simp [← hhead.contains, NameTable.contains, hb]
      rw [denotes_cons_of_mem hmem]
      simp only [address?, hb, Option.some.injEq, hhead.slot hnames name binding hb]
      constructor
      · rintro rfl
        obtain ⟨before, after, hsplit⟩ := List.append_of_mem hmem
        exact ⟨before, after, hsplit, by rw [idxOf_of_split hnames hsplit]⟩
      · rintro ⟨before, after, hsplit, rfl⟩
        rw [idxOf_of_split hnames hsplit]

end Denotes

section Distinct

variable {around inner last : Surroundings} {ps qs : List Place} {name : Token}

/-- No scope around a place declares a name twice. -/
def Distinct (around : Surroundings) : Prop := ∀ names ∈ around.scopes, names.Nodup

/-- If no place violates a rule, then no scope around any declares a name twice, nor one around what
comes next, provided it is so around what came first. -/
def Keeps (ps : List Place) (around inner : Surroundings) : Prop :=
  (∀ p ∈ ps, p.violation? = none) → Distinct around →
    (∀ p ∈ ps, Distinct p.around) ∧ Distinct inner

theorem Keeps.nil : Keeps [] around around := fun _ hd => ⟨by simp, hd⟩

/-- Places keep scopes distinct if they do in turn. -/
theorem Keeps.append (hp : Keeps ps around inner) (hq : Keeps qs inner last) :
    Keeps (ps ++ qs) around last := by
  intro hc hd
  simp only [List.mem_append, or_imp, forall_and] at hc ⊢
  obtain ⟨hps, hinner⟩ := hp hc.1 hd
  obtain ⟨hqs, hlast⟩ := hq hc.2 hinner
  exact ⟨⟨hps, hqs⟩, hlast⟩

/-- What is done within a part does not matter after it. -/
theorem Keeps.within (hp : Keeps ps inner last) (h : Distinct around → Distinct inner) :
    Keeps ps around around := fun hc hd => ⟨(hp hc (h hd)).1, hd⟩

theorem keeps_place (node : Node) : Keeps [⟨around, node⟩] around around :=
  fun _ hd => ⟨by simpa using hd, hd⟩

theorem distinct_noted (hp : Place.violation? ⟨around, .declared name⟩ = none)
    (hd : Distinct around) : ∀ names ∈ noted name around.scopes, names.Nodup := by
  simp only [Distinct, Place.violation?] at hp hd
  cases h : around.scopes with
  | nil => simp [noted]
  | cons names outer =>
    simp only [h, List.forall_mem_cons, noted] at hd ⊢
    exact ⟨nodup_concat.mpr ⟨hd.1, by simpa [h] using hp⟩, hd.2⟩

theorem keeps_own :
    Keeps [⟨around, .declared name⟩] around (.initial name :: around) ∧
      Keeps [⟨around, .declared name⟩] around (.function name :: around) := by
  constructor <;> intro hc hd <;>
    refine ⟨by simpa using hd, ?_⟩
  · rw [Distinct, (scopes_own name around).1]
    exact distinct_noted (hc _ (by simp)) hd
  · rw [Distinct, (scopes_own name around).2]
    exact distinct_noted (hc _ (by simp)) hd

theorem distinct_scope (h : Distinct around) :
    Distinct (.block [] :: around) ∧ Distinct (.body [] [] :: around) := by
  simpa [Distinct, Surroundings.scopes] using h

theorem keeps_paramPlaces (around : Surroundings) (names : List Token) : ∀ before : List Token,
    Keeps (paramPlaces around before names) (.body before [] :: around)
      (.body (before ++ names) [] :: around) := by
  induction names with
  | nil =>
    intro before
    rw [List.append_nil]
    exact Keeps.nil
  | cons name names ih =>
    intro before
    have first : Keeps [⟨.body before [] :: around, .declared name⟩] (.body before [] :: around)
        (.body (before ++ [name]) [] :: around) := by
      intro hc hd
      refine ⟨by simpa using hd, ?_⟩
      simpa [Distinct, noted, Surroundings.scopes] using distinct_noted (hc _ (by simp)) hd
    have rest := ih (before ++ [name])
    rw [List.append_assoc] at rest
    exact first.append rest

/-- What is around the statements of a list has the names that those before declare. -/
def Counts (within : List Stmt → Surroundings) : Prop :=
  ∀ before s, (within (before ++ [s])).scopes =
    s.declaredName?.elim (within before).scopes fun name => noted name (within before).scopes

theorem counts_program : Counts fun _ => [] := by
  intro _ s
  cases s.declaredName? <;> rfl

theorem counts_block : Counts fun before => .block before :: around := by
  intro before s
  cases h : s.declaredName? <;> simp [Surroundings.scopes, h, noted]

theorem counts_body (params : List Token) : Counts fun before => .body params before :: around := by
  intro before s
  cases h : s.declaredName? <;> simp [Surroundings.scopes, h, noted]

theorem declared_mem_places {s : Stmt} (h : s.declaredName? = some name) :
    ⟨around, .declared name⟩ ∈ s.places around := by
  cases s <;> simp_all [Stmt.declaredName?, Stmt.places]

theorem keeps_next {within : List Stmt → Surroundings} {before : List Stmt} {s : Stmt}
    (hw : Counts within) (h : Keeps (s.places (within before)) (within before) (within before)) :
    Keeps (s.places (within before)) (within before) (within (before ++ [s])) := by
  intro hc hd
  refine ⟨(h hc hd).1, ?_⟩
  rw [Distinct, hw before s]
  cases hs : s.declaredName? with
  | none => exact hd
  | some name => exact distinct_noted (hc _ (declared_mem_places hs)) hd

mutual

theorem keeps_expr : ∀ (e : Expr) (around : Surroundings), Keeps (e.places around) around around
  | .literal .., _ | .reference .., _ => keeps_place _
  | .group _ inner, around => (keeps_expr inner around).append (keeps_place _)
  | .unary _ _ _ operand, around => (keeps_expr operand around).append (keeps_place _)
  | .binary _ left _ _ right, around =>
    (keeps_expr left around).append ((keeps_expr right around).append (keeps_place _))
  | .logical _ left _ _ right, around =>
    (keeps_expr left around).append ((keeps_expr right around).append (keeps_place _))
  | .assign _ _ value, around => (keeps_expr value around).append (keeps_place _)
  | .call _ callee _ arguments, around =>
    (keeps_expr callee around).append ((keeps_exprs arguments around).append (keeps_place _))
  | .lambda fn, around => keeps_lambda fn around

theorem keeps_exprs : ∀ (es : List Expr) (around : Surroundings),
    Keeps (Expr.placesAll around es) around around
  | [], _ => Keeps.nil
  | e :: es, around => (keeps_expr e around).append (keeps_exprs es around)

theorem keeps_expr? : ∀ (e : Option Expr) (around : Surroundings),
    Keeps (Expr.places? around e) around around
  | none, _ => Keeps.nil
  | some e, around => keeps_expr e around

theorem keeps_lambda : ∀ (fn : Lambda) (around : Surroundings),
    Keeps (fn.places around) around around
  | .mk _ names body, around => by
    rw [Lambda.places, ← List.append_assoc]
    have walk := (keeps_paramPlaces around names []).append
      (keeps_stmts body (counts_body names) [])
    exact (walk.within fun h => (distinct_scope h).2).append (keeps_place _)

/-- A statement without violations leaves no name twice in a scope. -/
theorem keeps_stmt : ∀ (s : Stmt) (around : Surroundings), Keeps (s.places around) around around
  | .expression value, around | .print value, around => keeps_expr value around
  | .var name initial, around =>
    (keeps_own.1.append (keeps_expr? initial (.initial name :: around))).within id
  | .block body, _ =>
    (keeps_stmts body counts_block []).within fun h => (distinct_scope h).1
  | .branch _ condition yes no, around =>
    (keeps_expr condition around).append ((keeps_stmt yes around).append (keeps_stmt? no around))
  | .loop _ condition body, around =>
    (keeps_expr condition around).append ((keeps_stmt body (.loop :: around)).within id)
  | .breakLoop _, _ => keeps_place _
  | .function name fn, around =>
    (keeps_own.2.append (keeps_lambda fn (.function name :: around))).within id
  | .giveBack _ value, around => (keeps_place _).append (keeps_expr? value around)

/-- Statements without violations leave no name twice in a scope, each declaring in that of those
before. -/
theorem keeps_stmts : ∀ (ss : List Stmt) {within : List Stmt → Surroundings}, Counts within →
    ∀ before : List Stmt,
      Keeps (Stmt.placesAll within before ss) (within before) (within (before ++ ss))
  | [], _, _, before => by
    rw [List.append_nil]
    exact Keeps.nil
  | s :: ss, within, hw, before => by
    have rest := keeps_stmts ss hw (before ++ [s])
    rw [List.append_assoc] at rest
    exact (keeps_next hw (keeps_stmt s (within before))).append rest

theorem keeps_stmt? : ∀ (s : Option Stmt) (around : Surroundings),
    Keeps (Stmt.places? around s) around around
  | none, _ => Keeps.nil
  | some s, around => keeps_stmt s around

end

/-- In a program without a violation no scope declares a name twice. -/
theorem distinct_of_places {program : List Stmt}
    (h : ∀ p ∈ places program, p.violation? = none) : ∀ p ∈ places program, Distinct p.around :=
  (keeps_stmts program counts_program [] h (by simp [Distinct, Surroundings.scopes])).1

end Distinct

/-- What is noted at a place has the identity of the expression there. -/
theorem Place.id?_of_located? {p : Place} {u : Located} (h : p.located? = some u) :
    p.node.id? = some u.id := by
  unfold Place.located? at h
  split at h
  · next hnode =>
    obtain ⟨address, -, rfl⟩ := Option.map_eq_some_iff.mp h
    simp [hnode]
  all_goals exact absurd h (by simp)

theorem located_ids_sublist (ps : List Place) :
    ((ps.filterMap Place.located?).map (·.id)).Sublist (ps.filterMap (·.node.id?)) := by
  induction ps with
  | nil => exact List.Sublist.slnil
  | cons p ps ih =>
    cases h : p.located? with
    | none =>
      rw [List.filterMap_cons_none h]
      exact ih.trans ((List.sublist_cons_self p ps).filterMap _)
    | some u =>
      rw [List.filterMap_cons_some h,
        List.filterMap_cons_some (f := fun p : Place => p.node.id?) (Place.id?_of_located? h)]
      exact ih.cons_cons _

/-- Different places have different expressions, if no identity is used twice. -/
theorem place_unique {ps : List Place} (hd : (ps.filterMap (·.node.id?)).Nodup) {p q : Place}
    (hp : p ∈ ps) (hq : q ∈ ps) (id : NodeId) (hpid : p.node.id? = some id)
    (hqid : q.node.id? = some id) : p = q := by
  induction ps with
  | nil => simp at hp
  | cons r ps ih =>
    have other : ∀ {p : Place}, p ∈ ps → p.node.id? = some id → r.node.id? ≠ some id := by
      intro p hp hpid hr
      rw [List.filterMap_cons_some (f := fun p : Place => p.node.id?) hr] at hd
      exact (List.nodup_cons.mp hd).1 (List.mem_filterMap.mpr ⟨p, hp, hpid⟩)
    rcases List.mem_cons.mp hp with hpr | hp <;> rcases List.mem_cons.mp hq with hqr | hq
    · exact hpr.trans hqr.symm
    · exact absurd (hpr ▸ hpid) (other hq hqid)
    · exact absurd (hqr ▸ hqid) (other hp hpid)
    · exact ih (hd.sublist ((List.sublist_cons_self r ps).filterMap _)) hp hq

/-- With distinct names, the address of a use is the one that its name denotes. -/
theorem mem_located_iff {u : Located} {p : Place} (hd : Distinct p.around) :
    p.located? = some u ↔
      p.node = .use u.id u.access u.name ∧ Denotes p.around.scopes u.name.lexeme u.address := by
  rw [Place.located?_eq_some_iff, address?_eq_some_iff (opened_records p.around) hd]

section Found

variable {program : List Stmt} (hf : (Stmt.idsAll program).Nodup) (ht : Stmt.TidyAll program)
  (hc : (resolve program).errors = [])

include ht hc

/-- What is recorded is the address of the variable that is meant at some place. -/
theorem mem_resolve_located (u : Located) :
    u ∈ (resolve program).located ↔ ∃ p ∈ places program,
      p.node = .use u.id u.access u.name ∧ Denotes p.around.scopes u.name.lexeme u.address := by
  have hdistinct := @distinct_of_places program
  rw [resolve_eq_places ht, List.filterMap_eq_nil_iff] at hc
  rw [resolve_eq_places ht, List.mem_filterMap]
  exact exists_congr fun p => and_congr_right fun hp => mem_located_iff (hdistinct hc p hp)

include hf

/-- A use has a record exactly if a scope around it declares the name. -/
theorem recorded_iff {p : Place} (hp : p ∈ places program) {id : NodeId} {access : Access}
    {name : Token} (hnode : p.node = .use id access name) :
    (∃ u ∈ (resolve program).located, u.id = id) ↔
      ∃ names ∈ p.around.scopes, name.lexeme ∈ names := by
  rw [← exists_denotes_iff]
  constructor
  · rintro ⟨u, hu, rfl⟩
    obtain ⟨q, hq, hqnode, hmeans⟩ := (mem_resolve_located ht hc u).mp hu
    have hpq : p = q := by
      refine place_unique ?_ hp hq u.id (by simp [hnode]) (by simp [hqnode])
      rwa [places, Stmt.filterMap_placesAll]
    subst hpq
    obtain ⟨-, -, rfl⟩ := Node.use.inj (hnode.symm.trans hqnode)
    exact ⟨u.address, hmeans⟩
  · rintro ⟨address, hmeans⟩
    exact ⟨⟨id, access, name, address⟩,
      (mem_resolve_located ht hc _).mpr ⟨p, hp, hnode, hmeans⟩, rfl⟩

/-- An expression that is no use has no record. -/
theorem not_recorded {p : Place} (hp : p ∈ places program) {id : NodeId}
    (hnode : p.node = .other id) : ∀ u ∈ (resolve program).located, u.id ≠ id := by
  rintro u hu rfl
  obtain ⟨q, hq, hqnode, -⟩ := (mem_resolve_located ht hc u).mp hu
  have hpq : p = q := by
    refine place_unique ?_ hp hq u.id (by simp [hnode]) (by simp [hqnode])
    rwa [places, Stmt.filterMap_placesAll]
  subst hpq
  exact absurd (hnode.symm.trans hqnode) (by simp)

end Found

/-- Resolving without an error records, for each use of a name that some scope around it declares,
the address of the variable that the name means there. It records one for each, and nothing for the
other expressions. -/
theorem located_iff_denotes (tokens : List Token) (finish : Token) (firstId : NodeId)
    (hresolve : (resolve (parse tokens finish firstId).program).errors = []) :
    let program := (parse tokens finish firstId).program
    let found := (resolve program).located
    (places program).filterMap (·.node.id?) = Stmt.idsAll program ∧
      (found.map (·.id)).Nodup ∧
      (∀ u, u ∈ found ↔ ∃ p ∈ places program, p.node = .use u.id u.access u.name ∧
        Denotes p.around.scopes u.name.lexeme u.address) ∧
      ∀ p ∈ places program,
        (∀ id access name, p.node = .use id access name →
          ((∃ u ∈ found, u.id = id) ↔ ∃ names ∈ p.around.scopes, name.lexeme ∈ names)) ∧
        ∀ id, p.node = .other id → ∀ u ∈ found, u.id ≠ id := by
  intro program found
  obtain ⟨-, hfresh, htidy⟩ := parse_neat tokens finish firstId
  have hids : (places program).filterMap (·.node.id?) = Stmt.idsAll program :=
    Stmt.filterMap_placesAll program _ _
  refine ⟨hids, ?_, mem_resolve_located htidy hresolve, fun p hp => ⟨?_, ?_⟩⟩
  · have hsub := located_ids_sublist (places program)
    rw [hids] at hsub
    change ((resolve program).located.map (·.id)).Nodup
    rw [resolve_eq_places htidy]
    exact hfresh.nodup.sublist hsub
  · exact fun id access name hnode => recorded_iff hfresh.nodup htidy hresolve hp hnode
  · exact fun id hnode => not_recorded hfresh.nodup htidy hresolve hp hnode

/-- The tokens of a variable that is used in a block within its own. -/
def usedInside : List Token :=
  [⟨.leftBrace, "\x7b", .nil, 1⟩, ⟨.kwVar, "var", .nil, 1⟩, ⟨.identifier, "a", .nil, 1⟩,
    ⟨.semicolon, ";", .nil, 1⟩, ⟨.leftBrace, "\x7b", .nil, 1⟩, ⟨.kwPrint, "print", .nil, 1⟩,
    ⟨.identifier, "a", .nil, 1⟩, ⟨.semicolon, ";", .nil, 1⟩, ⟨.rightBrace, "\x7d", .nil, 1⟩,
    ⟨.rightBrace, "\x7d", .nil, 1⟩]

theorem located_iff_denotes_usedInside :
    (resolve (parse usedInside (.endOfInput 1) 0).program).errors = [] ∧
      ⟨0, .read, ⟨.identifier, "a", .nil, 1⟩, ⟨1, 0⟩⟩ ∈
        (resolve (parse usedInside (.endOfInput 1) 0).program).located := by
  have hresolve : (resolve (parse usedInside (.endOfInput 1) 0).program).errors = [] := rfl
  obtain ⟨-, -, hfound, -⟩ := located_iff_denotes usedInside (.endOfInput 1) 0 hresolve
  refine ⟨hresolve, (hfound _).mpr ⟨⟨[.block [], .block [.var ⟨.identifier, "a", .nil, 1⟩ none]],
    .use 0 .read ⟨.identifier, "a", .nil, 1⟩⟩, ?_, rfl, ?_⟩⟩
  · exact .tail _ (.head _)
  · exact ⟨[[]], ["a"], [], [], [], rfl, by simp, rfl, rfl⟩

end Lox
