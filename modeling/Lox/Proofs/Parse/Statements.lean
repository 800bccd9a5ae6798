import Lox.Proofs.Parse.Expressions

/-! Statements and declarations are parsed as the grammar derives them. -/
namespace Lox.Parse

open Grammar (Derives Phrase)

variable {p : Phrase} {ts us rest : List Token} {cs ds cs' ds' : List Complaint} {e : Expr}
  {level : Level} {fuel : Nat}

theorem complete_braced {ss : List Stmt} {brace : Token} (h : Complete .declarations ts cs ss)
    (hb : brace.kind = .rightBrace) : Complete .block (ts ++ [brace]) cs ss := by
  intro fuel rest hf
  simp only [List.length_append, List.length_cons, List.length_nil] at hf
  obtain ⟨fuel, rfl⟩ := Nat.exists_eq_add_of_le' (show 1 ≤ fuel by omega)
  unfold block
  refine Takes.bind_quiet (h fuel (brace :: rest) true #[] (Or.inr ⟨rfl, brace, rfl, hb⟩)
    (by simp; omega)) ?_
  rintro _ ⟨new, rfl, hnew⟩
  exact Takes.bind_expect hb (Takes.pure (by simpa using hnew))

theorem complete_nothing : Complete .declarations [] [] [] := by
  intro fuel rest inBlock done hr hf
  obtain ⟨fuel, rfl⟩ := Nat.exists_eq_add_of_le' (show 1 ≤ fuel by omega)
  unfold declarations
  refine Takes.bind_get fun s hs => ?_
  refine Takes.bind_check rfl ?_
  rw [if_pos]
  · exact Takes.pure ⟨[], by simp, rfl⟩
  · rcases hr with rfl | ⟨rfl, t, ht, hk⟩
    · simp [hs]
    · simp [Option.mem_def.mp ht, hk]

/-- Declarations in a row are read one by one, each up to where the next begins. -/
theorem complete_next {s : Stmt} {ss : List Stmt} (h : Complete .declaration ts cs s)
    (hts : BeginsDeclaration ts) (hs : Complete .declarations us ds ss)
    (hus : us = [] ∨ BeginsDeclaration us) :
    Complete .declarations (ts ++ us) (cs ++ ds) (s :: ss) := by
  intro fuel rest inBlock done hr hf
  obtain ⟨fuel, rfl⟩ := Nat.exists_eq_add_of_le' (show 1 ≤ fuel by omega)
  obtain ⟨token, vs, rfl, -, hbrace⟩ := hts
  simp only [List.cons_append, List.length_cons, List.length_append] at hf
  unfold declarations
  refine Takes.bind_get fun state hstate => ?_
  refine Takes.bind_check rfl ?_
  rw [if_neg (by simp [hstate, hbrace])]
  refine Takes.bind (h fuel (us ++ rest) ?_ (by simp; omega)) ?_
  · rcases hus with rfl | ⟨other, ws, rfl, he, -⟩
    · rcases hr with rfl | ⟨-, t, ht, hk⟩
      · simp
      · intro u hu
        cases (Option.mem_unique ht hu)
        simp [hk]
    · rintro u ⟨⟩
      exact he
  · rintro _ ⟨t, rfl, ht⟩
    refine (hs fuel rest inBlock (done.push t) hr (by simp; omega)).mono ?_
    rintro _ ⟨new, rfl, hnew⟩
    exact ⟨t :: new, by simp, by simp [Stmt.bareAll, ht, hnew]⟩

theorem complete_binding {name semi : Token} (hn : name.kind = .identifier)
    (hs : semi.kind = .semicolon) : Complete .binding [name, semi] [] (.var name none) := by
  intro fuel rest hf
  unfold varDeclaration
  refine Takes.bind_expect hn ?_
  simp only [bind_assoc]
  refine Takes.bind_accept?_none (by simp [hs]) ?_
  simp only [pure_bind]
  exact Takes.bind_expect hs (Takes.pure rfl)

theorem complete_set {name equal semi : Token} (hn : name.kind = .identifier)
    (he : equal.kind = .equal) (h : Complete .expression ts cs e) (hs : semi.kind = .semicolon) :
    Complete .binding (name :: equal :: (ts ++ [semi])) cs (.var name (some e)) := by
  intro fuel rest hf
  simp only [List.cons_append, List.length_cons, List.length_append, List.length_nil] at hf
  unfold varDeclaration
  refine Takes.bind_expect hn ?_
  simp only [bind_assoc]
  refine Takes.bind_accept? he ?_
  simp only [bind_assoc, pure_bind]
  refine Takes.bind_quiet (h fuel _ (closed_cons (by simp [hs])) (by simp; omega)) ?_
  intro a ha
  exact Takes.bind_expect hs (Takes.pure (by simp [Stmt.bare, Expr.bare?, ha]))

theorem complete_startNothing {semi : Token} (hs : semi.kind = .semicolon) :
    Complete .start [semi] [] none := by
  intro fuel rest hf
  exact Takes.bind_accept? hs (Takes.pure rfl)

theorem complete_startVariable {var : Token} {s : Stmt} (hk : var.kind = .kwVar)
    (h : Complete .binding ts cs s) : Complete .start (var :: ts) cs (some s) := by
  intro fuel rest hf
  simp only [List.cons_append, List.length_cons] at hf
  refine Takes.bind_accept?_none (by simp [hk]) ?_
  refine Takes.bind_accept? hk ?_
  refine Takes.bind_last (h fuel rest (by omega)) ?_
  intro a ha
  exact Takes.pure (by simp [Stmt.bare?, ha])

theorem takes_expressionStatement {semi : Token} (h : Complete .expression ts cs e)
    (hs : semi.kind = .semicolon) (hf : 16 * (ts ++ [semi] ++ rest).length + 9 ≤ fuel) :
    Takes (expressionStatement (expression fuel)) (ts ++ [semi]) rest cs fun s =>
      s.bare = .expression e.bare := by
  refine Takes.bind_quiet (h fuel (semi :: rest) (closed_cons (by simp [hs])) ?_) ?_
  · simp at hf ⊢
    omega
  · intro a ha
    exact Takes.bind_expect hs (Takes.pure (by simp [Stmt.bare, ha]))

theorem complete_startExpression {semi : Token} (h : Complete .expression ts cs e)
    (hs : semi.kind = .semicolon) (hb : BeginsUnary ts) :
    Complete .start (ts ++ [semi]) cs (some (.expression e)) := by
  intro fuel rest hf
  have hx : Takes (expressionStatement (expression fuel)) (ts ++ [semi]) rest cs _ :=
    takes_expressionStatement h hs (by omega)
  obtain ⟨t, us, rfl, ha, -⟩ := hb
  refine Takes.bind_accept?_none ?_ ?_
  · rintro _ ⟨⟩ hk
    simp [atomAt?, unaryAt?, hk] at ha
  refine Takes.bind_accept?_none ?_ ?_
  · rintro _ ⟨⟩ hk
    simp [atomAt?, unaryAt?, hk] at ha
  refine Takes.bind_last hx ?_
  intro a ha
  exact Takes.pure (by simp [Stmt.bare?, Stmt.bare, ha])

theorem complete_evaluate {semi : Token} (h : Complete .expression ts cs e)
    (hs : semi.kind = .semicolon) (hb : BeginsUnary ts) :
    Complete (.statement false) (ts ++ [semi]) cs (.expression e) := by
  intro fuel rest _ hf
  obtain ⟨fuel, rfl⟩ := Nat.exists_eq_add_of_le' (show 1 ≤ fuel by omega)
  have hx : Takes (expressionStatement (expression fuel)) (ts ++ [semi]) rest cs _ :=
    takes_expressionStatement h hs (by omega)
  obtain ⟨t, us, rfl, ha, -⟩ := hb
  unfold statement
  refine Takes.bind_acceptMap?_none ?_ hx
  rintro _ ⟨⟩
  revert ha
  unfold atomAt? unaryAt? openingAt?
  cases t.kind <;> simp

theorem complete_print {keyword semi : Token} (hk : keyword.kind = .kwPrint)
    (h : Complete .expression ts cs e) (hs : semi.kind = .semicolon) :
    Complete (.statement false) (keyword :: (ts ++ [semi])) cs (.print e) := by
  intro fuel rest _ hf
  simp only [List.cons_append, List.length_cons, List.length_append, List.length_nil] at hf
  obtain ⟨fuel, rfl⟩ := Nat.exists_eq_add_of_le' (show 1 ≤ fuel by omega)
  unfold statement
  refine Takes.bind_acceptMap? (c := (.print, keyword)) (by simp [openingAt?, hk]) ?_
  refine Takes.bind_quiet (h fuel _ (closed_cons (by simp [hs])) (by simp; omega)) ?_
  intro a ha
  exact Takes.bind_expect hs (Takes.pure (by simp [Stmt.bare, ha]))

theorem complete_giveBack {keyword semi : Token} {a : Option Expr} (hk : keyword.kind = .kwReturn)
    (h : Complete .optional ts cs a) (hs : semi.kind = .semicolon) :
    Complete (.statement false) (keyword :: (ts ++ [semi])) cs (.giveBack keyword a) := by
  intro fuel rest _ hf
  simp only [List.cons_append, List.length_cons, List.length_append, List.length_nil] at hf
  obtain ⟨fuel, rfl⟩ := Nat.exists_eq_add_of_le' (show 1 ≤ fuel by omega)
  unfold statement
  refine Takes.bind_acceptMap? (c := (.giveBack, keyword)) (by simp [openingAt?, hk]) ?_
  refine Takes.bind_quiet (h fuel _ .semicolon (by simp) ⟨semi, rfl, hs⟩ (by simp; omega)) ?_
  intro b hb
  exact Takes.bind_expect hs (Takes.pure (by simp [Stmt.bare, hb]))

theorem complete_breakLoop {keyword semi : Token} (hk : keyword.kind = .kwBreak)
    (hs : semi.kind = .semicolon) :
    Complete (.statement false) [keyword, semi] [] (.breakLoop keyword) := by
  intro fuel rest _ hf
  obtain ⟨fuel, rfl⟩ := Nat.exists_eq_add_of_le' (show 1 ≤ fuel by omega)
  unfold statement
  refine Takes.bind_acceptMap? (c := (.breakLoop, keyword)) (by simp [openingAt?, hk]) ?_
  exact Takes.bind_expect hs (Takes.pure rfl)

theorem complete_block {brace : Token} {ss : List Stmt} (hk : brace.kind = .leftBrace)
    (h : Complete .block ts cs ss) : Complete (.statement false) (brace :: ts) cs (.block ss) := by
  intro fuel rest _ hf
  simp only [List.cons_append, List.length_cons] at hf
  obtain ⟨fuel, rfl⟩ := Nat.exists_eq_add_of_le' (show 1 ≤ fuel by omega)
  unfold statement
  refine Takes.bind_acceptMap? (c := (.block, brace)) (by simp [openingAt?, hk]) ?_
  refine Takes.bind_last (h fuel rest (by omega)) ?_
  intro body hbody
  exact Takes.pure (by simp [Stmt.bare, hbody])

variable {d d' : Bool} {c : Expr} {s s' : Stmt} {keyword lp rp : Token}

theorem complete_loop (hk : keyword.kind = .kwWhile) (hl : lp.kind = .leftParen)
    (hc : Complete .expression ts cs c) (hr : rp.kind = .rightParen)
    (hs : Complete (.statement d) us ds s) :
    Complete (.statement d) (keyword :: lp :: (ts ++ rp :: us)) (cs ++ ds) (.loop keyword c s) := by
  intro fuel rest hd hf
  simp only [List.cons_append, List.length_cons, List.length_append] at hf
  obtain ⟨fuel, rfl⟩ := Nat.exists_eq_add_of_le' (show 1 ≤ fuel by omega)
  unfold statement
  refine Takes.bind_acceptMap? (c := (.loop, keyword)) (by simp [openingAt?, hk]) ?_
  refine Takes.bind_expect hl ?_
  refine Takes.bind (hc fuel _ (closed_cons (by simp [hr])) (by simp; omega)) ?_
  intro a ha
  refine Takes.bind_expect hr ?_
  refine Takes.bind_last (hs fuel rest hd (by simp; omega)) ?_
  intro b hb
  exact Takes.pure (by simp [Stmt.bare, ha, hb])

theorem complete_branch (hk : keyword.kind = .kwIf) (hl : lp.kind = .leftParen)
    (hc : Complete .expression ts cs c) (hr : rp.kind = .rightParen)
    (hs : Complete (.statement d) us ds s) :
    Complete (.statement true) (keyword :: lp :: (ts ++ rp :: us)) (cs ++ ds)
      (.branch keyword c s none) := by
  intro fuel rest hd hf
  simp only [List.cons_append, List.length_cons, List.length_append] at hf
  obtain ⟨fuel, rfl⟩ := Nat.exists_eq_add_of_le' (show 1 ≤ fuel by omega)
  unfold statement
  refine Takes.bind_acceptMap? (c := (.branch, keyword)) (by simp [openingAt?, hk]) ?_
  refine Takes.bind_expect hl ?_
  refine Takes.bind (hc fuel _ (closed_cons (by simp [hr])) (by simp; omega)) ?_
  intro a ha
  refine Takes.bind_expect hr ?_
  refine Takes.bind_last (hs fuel rest (fun _ => hd rfl) (by simp; omega)) ?_
  intro b hb
  simp only [bind_assoc]
  refine Takes.bind_accept?_none (hd rfl) ?_
  exact Takes.pure (by simp [Stmt.bare, Stmt.bare?, ha, hb])

/-- An `else` is read with the `if` before it, whose own statement is not open for one. -/
theorem complete_branchElse {other : Token} {vs : List Token} (hk : keyword.kind = .kwIf)
    (hl : lp.kind = .leftParen) (hc : Complete .expression ts cs c) (hr : rp.kind = .rightParen)
    (hs : Complete (.statement false) us ds s) (ho : other.kind = .kwElse)
    (hs' : Complete (.statement d') vs cs' s') :
    Complete (.statement d') (keyword :: lp :: (ts ++ rp :: (us ++ other :: vs)))
      (cs ++ (ds ++ cs'))
      (.branch keyword c s (some s')) := by
  intro fuel rest hd hf
  simp only [List.cons_append, List.length_cons, List.length_append] at hf
  obtain ⟨fuel, rfl⟩ := Nat.exists_eq_add_of_le' (show 1 ≤ fuel by omega)
  unfold statement
  refine Takes.bind_acceptMap? (c := (.branch, keyword)) (by simp [openingAt?, hk]) ?_
  refine Takes.bind_expect hl ?_
  refine Takes.bind (hc fuel _ (closed_cons (by simp [hr])) (by simp; omega)) ?_
  intro a ha
  refine Takes.bind_expect hr ?_
  refine Takes.bind (hs fuel _ (by simp) (by simp; omega)) ?_
  intro b hb
  simp only [bind_assoc]
  refine Takes.bind_accept? ho ?_
  simp only [bind_assoc, pure_bind]
  refine Takes.bind_last (hs' fuel rest hd (by simp; omega)) ?_
  intro b' hb'
  exact Takes.pure (by simp [Stmt.bare, Stmt.bare?, ha, hb, hb'])

/-- The clauses of a `for` are read in order, and its tree is that of the grammar. -/
theorem complete_counting {semi : Token} {i : Option Stmt} {a step : Option Expr}
    {vs ws : List Token} {n : NodeId} (hk : keyword.kind = .kwFor) (hl : lp.kind = .leftParen)
    (hi : Complete .start ts cs i) (hc : Complete .optional us ds a) (hm : semi.kind = .semicolon)
    (ht : Complete .optional vs cs' step) (hr : rp.kind = .rightParen)
    (hs : Complete (.statement d) ws ds' s) :
    Complete (.statement d) (keyword :: lp :: (ts ++ (us ++ semi :: (vs ++ rp :: ws))))
      (cs ++ (ds ++ (cs' ++ ds')))
      (.counting keyword i (a.getD (.literal n (.bool true))) step s) := by
  intro fuel rest hd hf
  simp only [List.cons_append, List.length_cons, List.length_append] at hf
  obtain ⟨fuel, rfl⟩ := Nat.exists_eq_add_of_le' (show 1 ≤ fuel by omega)
  unfold statement
  refine Takes.bind_acceptMap? (c := (.counting, keyword)) (by simp [openingAt?, hk]) ?_
  refine Takes.bind_expect hl ?_
  refine Takes.bind (hi fuel _ (by simp; omega)) ?_
  intro i' hi'
  refine Takes.bind (hc fuel _ .semicolon (by simp) ⟨semi, rfl, hm⟩ (by simp; omega)) ?_
  intro a' ha'
  refine Takes.bind_expect hm ?_
  refine Takes.bind (ht fuel _ .rightParen (by simp) ⟨rp, rfl, hr⟩ (by simp; omega)) ?_
  intro step' hstep'
  refine Takes.bind_expect hr ?_
  refine Takes.bind_last (hs fuel rest hd (by simp; omega)) ?_
  intro b hb
  cases a' with
  | some a' =>
    obtain ⟨a, rfl⟩ : ∃ x, a = some x := by cases a <;> simp_all [Expr.bare?]
    exact Takes.pure (bare_counting hi' (by simpa [Expr.bare?] using ha') hstep' hb)
  | none =>
    obtain rfl : a = none := by cases a <;> simp_all [Expr.bare?]
    simp only [bind_assoc, pure_bind]
    exact Takes.bind_fresh fun m => Takes.pure (bare_counting hi' rfl hstep' hb)

/-- Within a declaration what comes before its statement must not be there. -/
theorem takes_declaration {x : Parser Stmt} {s : Stmt}
    (hx : Takes x ts rest cs (·.bare = s.bare)) :
    Takes (recovering x) ts rest cs fun a => ∃ t, a = some t ∧ t.bare = s.bare := by
  intro state hstate
  obtain ⟨a, t, hx, ht, hc, ha⟩ := hx state hstate
  exact ⟨some a, t, by simp [recovering, hx], ht, hc, a, rfl, ha⟩

/-- A `fun` without a name is left for the expression that it begins. -/
theorem takes_acceptFunctionName?_none {f : Option Token → Parser Stmt} {r : Stmt → Prop}
    (h : ∀ t us, ts ++ rest = t :: us → t.kind = .kwFun →
      ∀ u ∈ us.head?, u.kind ≠ .identifier) (hf : Takes (f none) ts rest cs r) :
    Takes (acceptFunctionName? >>= f) ts rest cs r := by
  intro state hstate
  obtain ⟨a, t, hx, ht⟩ := hf state hstate
  refine ⟨a, t, ?_, ht⟩
  rw [← hstate] at h
  have hnone : acceptFunctionName? state = .ok none state := by
    unfold acceptFunctionName?
    split
    · next t u us heq =>
      rw [if_neg]
      intro hk
      simp only [Bool.and_eq_true, decide_eq_true_eq] at hk
      exact h t (u :: us) heq hk.1 u rfl hk.2
    · rfl
  simpa [Bind.bind, EStateM.bind, hnone] using hx

theorem complete_named {fn name : Token} {f : Lambda} (hk : fn.kind = .kwFun)
    (hn : name.kind = .identifier) (h : Complete .function ts cs f) :
    Complete .declaration (fn :: name :: ts) cs (.function name f) := by
  intro fuel rest _ hf
  simp only [List.cons_append, List.length_cons] at hf
  obtain ⟨fuel, rfl⟩ := Nat.exists_eq_add_of_le' (show 1 ≤ fuel by omega)
  unfold declaration
  refine takes_declaration ?_
  intro state hstate
  obtain ⟨a, t, hx, ht, hc, ha⟩ := h fuel rest (by omega) { state with rest := ts ++ rest } rfl
  refine ⟨.function name a, t, ?_, ht, hc, by simp [Stmt.bare, ha]⟩
  simp only [List.cons_append] at hstate
  simp [Bind.bind, EStateM.bind, acceptFunctionName?, hstate, hk, hn, hx, Pure.pure, EStateM.pure]

theorem complete_declared {var : Token} (hk : var.kind = .kwVar) (h : Complete .binding ts cs s) :
    Complete .declaration (var :: ts) cs s := by
  intro fuel rest _ hf
  simp only [List.cons_append, List.length_cons] at hf
  obtain ⟨fuel, rfl⟩ := Nat.exists_eq_add_of_le' (show 1 ≤ fuel by omega)
  unfold declaration
  refine takes_declaration (takes_acceptFunctionName?_none ?_ ?_)
  · rintro _ _ ⟨⟩ hf
    simp [hk] at hf
  · exact Takes.bind_accept? hk (h fuel rest (by omega))

/-- A statement is a declaration where neither `var` nor a named function begins. -/
theorem complete_plain (h : Complete (.statement d) ts cs s) (hb : BeginsStatement ts) :
    Complete .declaration ts cs s := by
  intro fuel rest he hf
  obtain ⟨fuel, rfl⟩ := Nat.exists_eq_add_of_le' (show 1 ≤ fuel by omega)
  have hs := h fuel rest (fun _ => he) (by omega)
  obtain ⟨t, us, rfl, hv, -, -, hfun⟩ := hb
  unfold declaration
  refine takes_declaration (takes_acceptFunctionName?_none ?_ ?_)
  · rintro _ _ ⟨⟩ hk
    obtain ⟨lp, vs, rfl, hl⟩ := hfun hk
    rintro _ ⟨⟩
    simp [hl]
  · exact Takes.bind_accept?_none (by rintro _ ⟨⟩; exact hv) hs

end Lox.Parse
