import Lox.Proofs.Parse.Alike

/-! Every parser runs alike with itself, whatever fuel the two runs have. -/
namespace Lox.Parse

variable {S : Setting} {e e' : Parser Expr} {body body' : Parser Stmt} {keyword : Token}

abbrev SameExpr (a b : Expr) : Prop := a.bare = b.bare
abbrev SameExprs (as bs : List Expr) : Prop := Expr.bareAll as = Expr.bareAll bs
abbrev SameStmt (s t : Stmt) : Prop := s.bare = t.bare
abbrev SameStmts (ss ts : List Stmt) : Prop := Stmt.bareAll ss = Stmt.bareAll ts

theorem Both.bare {a b : Option Expr} (h : Both SameExpr a b) : Expr.bare? a = Expr.bare? b := by
  cases a <;> cases b <;> simp_all [Both, Expr.bare?]

theorem Both.stmt_bare {a b : Option Stmt} (h : Both SameStmt a b) :
    Stmt.bare? a = Stmt.bare? b := by
  cases a <;> cases b <;> simp_all [Both, Stmt.bare?]

theorem Both.eq {α : Type} {a b : Option α} (h : Both (· = ·) a b) : a = b := by
  cases a <;> cases b <;> simp_all [Both]

/-- An order of two parsers on the same tokens. -/
abbrev AlikeExpr (S : Setting) (e e' : Parser Expr) : Prop :=
  Alike S S.before e e' S.before SameExpr

/-- Behind its semicolon an expression statement leaves the two readings with what may differ. -/
theorem alike_expressionStatement (he : AlikeExpr S e e') :
    Alike S S.before (expressionStatement e) (expressionStatement e') S.behind SameStmt := by
  refine .bind he fun a b h => ?_
  exact .bind_semicolon fun _ => .pure (by simp [SameStmt, Stmt.bare, h])

theorem alike_varDeclaration (he : AlikeExpr S e e') :
    Alike S S.before (varDeclaration e) (varDeclaration e') S.behind SameStmt := by
  refine .bind_expect (by decide) fun name => ?_
  simp only [bind_assoc]
  refine .bind_accept? S.head ?_ ?_
  · intro equal hk
    simp only [bind_assoc, pure_bind]
    refine .bind (he.given fun h => S.tail h (by simp [hk])) fun a b h => ?_
    exact .bind_semicolon fun _ => .pure (by simp [SameStmt, Stmt.bare, Expr.bare?, h])
  · simp only [pure_bind]
    exact .given And.left (.bind_semicolon fun _ => .pure rfl)

theorem alike_print (he : AlikeExpr S e e') :
    Alike S S.before (print e) (print e') S.behind SameStmt := by
  refine .bind he fun a b h => ?_
  exact .bind_semicolon fun _ => .pure (by simp [SameStmt, Stmt.bare, h])

theorem alike_giveBack (he : AlikeExpr S e e') :
    Alike S S.before (giveBack keyword e) (giveBack keyword e') S.behind SameStmt := by
  refine .bind (alike_unlessNext he) fun a b h => ?_
  exact .bind_semicolon fun _ => .pure (by simp [SameStmt, Stmt.bare, h.bare])

theorem alike_breakLoop :
    Alike S S.before (breakLoop keyword) (breakLoop keyword) S.behind SameStmt :=
  .bind_semicolon fun _ => .pure rfl

theorem alike_loop (he : AlikeExpr S e e')
    (hb : Alike S S.before body body' S.before SameStmt) :
    Alike S S.before (loop keyword e body) (loop keyword e' body') S.before SameStmt := by
  refine .bind_expect (by decide) fun _ => ?_
  refine .bind he fun c d hc => ?_
  refine .bind_expect (by decide) fun _ => ?_
  exact .bind hb fun s t hs => .pure (by simp [SameStmt, Stmt.bare, hc, hs])

section Whole

variable (hw : S.whole)
include hw

/-- What ends behind a semicolon can be gone on from. -/
theorem Alike.onward {α : Type} {pre : List Token → List Token → Prop} {x y : Parser α}
    {same : α → α → Prop} (h : Alike S pre x y S.behind same) : Alike S pre x y S.before same :=
  h.leaving (S.before_of_behind hw)

/-- Within a whole no token ends the reading. -/
theorem before_of_tail {t : Token} {as bs : List Token} (h : S.before (t :: as) (t :: bs)) :
    S.before as bs := by
  by_cases hk : t.kind = .semicolon
  · exact S.before_of_behind hw (S.semicolon h hk)
  · exact S.tail h hk

theorem alike_countingStart (he : AlikeExpr S e e') :
    Alike S S.before (countingStart e) (countingStart e') S.before (Both SameStmt) := by
  refine .bind_accept? S.head ?_ ?_
  · intro semi _
    exact (Alike.pure trivial).given (before_of_tail hw)
  · refine Alike.given And.left ?_
    refine .bind_accept? S.head ?_ ?_
    · intro var _
      refine Alike.given (before_of_tail hw) ?_
      exact .bind ((alike_varDeclaration he).onward hw) fun _ _ h => .pure h
    · refine Alike.given And.left ?_
      exact .bind ((alike_expressionStatement he).onward hw) fun _ _ h => .pure h

/-- A semicolon on the way. -/
theorem Alike.bind_separator {α : Type} {what : Expectation} {g h : Token → Parser α}
    {post : List Token → List Token → Prop} {same : α → α → Prop}
    (hg : ∀ token, Alike S S.before (g token) (h token) post same) :
    Alike S S.before (expect .semicolon what >>= g) (expect .semicolon what >>= h) post same :=
  .bind_semicolon fun token =>
    (hg token).given (S.before_of_behind hw)

/-- The header of a `for` has semicolons in it, which only readings that are alike as a whole go on
behind. -/
theorem alike_countingLoop (he : AlikeExpr S e e')
    (hb : Alike S S.before body body' S.before SameStmt) :
    Alike S S.before (countingLoop keyword e body) (countingLoop keyword e' body') S.before
      SameStmt := by
  refine .bind_expect (by decide) fun _ => ?_
  refine .bind (alike_countingStart hw he) fun i j hi => ?_
  refine .bind (alike_unlessNext he) fun c d hc => ?_
  refine .bind_separator hw fun _ => ?_
  refine .bind (alike_unlessNext he) fun a b ha => ?_
  refine .bind_expect (by decide) fun _ => ?_
  refine .bind hb fun s t hs => ?_
  cases c with
  | some c =>
    cases d with
    | some d => exact .pure (bare_counting hi.stmt_bare hc ha.bare hs)
    | none => exact hc.elim
  | none =>
    cases d with
    | some d => exact hc.elim
    | none =>
      simp only [bind_assoc, pure_bind]
      exact .bind_fresh fun _ _ => .pure (bare_counting hi.stmt_bare rfl ha.bare hs)

theorem alike_branch (he : AlikeExpr S e e')
    (hb : Alike S S.before body body' S.before SameStmt) :
    Alike S S.before (branch keyword e body) (branch keyword e' body') S.before SameStmt := by
  refine .bind_expect (by decide) fun _ => ?_
  refine .bind he fun c d hc => ?_
  refine .bind_expect (by decide) fun _ => ?_
  refine .bind hb fun s t hs => ?_
  simp only [bind_assoc]
  refine .bind_accept? S.head ?_ ?_
  · intro other _
    simp only [bind_assoc, pure_bind]
    refine Alike.given (before_of_tail hw) ?_
    exact .bind hb fun s' t' hs' => .pure (by simp [SameStmt, Stmt.bare, Stmt.bare?, hc, hs, hs'])
  · simp only [pure_bind]
    refine (Alike.pure ?_).given And.left
    simp [SameStmt, Stmt.bare, Stmt.bare?, hc, hs]

/-- Parameters are read alike with whatever fuel is left. -/
theorem alike_parameters (fuel fuel' : Nat) (done : Array Token) :
    Alike S S.before (parameters fuel done) (parameters fuel' done) S.before (· = ·) := by
  induction fuel generalizing fuel' done with
  | zero => exact .outOfFuel_left
  | succ fuel ih =>
    cases fuel' with
    | zero => exact .outOfFuel_right
    | succ fuel' =>
      unfold parameters
      refine .unless Iff.rfl (by simp) (.bind_expect (by decide) fun name => ?_)
      refine .bind_accept? S.head ?_ ?_
      · intro comma _
        exact (ih fuel' _).given (before_of_tail hw)
      · exact (Alike.pure rfl).given And.left

end Whole

/-- The parser of a declaration, from which `declaration` recovers. -/
def attempt (fuel : Nat) : Parser Stmt := do
  match ← acceptFunctionName? with
  | some name => return .function name (← lambda fuel)
  | none =>
    match ← accept? .kwVar with
    | some _ => varDeclaration (expression fuel)
    | none => statement fuel

theorem declaration_succ (fuel : Nat) : declaration (fuel + 1) = recovering (attempt fuel) := rfl

/-- The parsers that call each other run alike. -/
structure Abreast (S : Setting) (fuel fuel' : Nat) : Prop where
  expression : AlikeExpr S (expression fuel) (expression fuel')
  chain (level : Level) : AlikeExpr S (chain fuel level) (chain fuel' level)
  chainRest (level : Level) (l l' : Expr) (h : SameExpr l l') :
    AlikeExpr S (chainRest fuel level l) (chainRest fuel' level l')
  unary : AlikeExpr S (unary fuel) (unary fuel')
  calls (c c' : Expr) (h : SameExpr c c') : AlikeExpr S (calls fuel c) (calls fuel' c')
  arguments (done done' : Array Expr) (h : SameExprs done.toList done'.toList) :
    Alike S S.before (arguments fuel done) (arguments fuel' done') S.before SameExprs
  atom : AlikeExpr S (atom fuel) (atom fuel')
  lambda (hw : S.whole) :
    Alike S S.before (lambda fuel) (lambda fuel') S.before fun f f' => f.bare = f'.bare
  block (hw : S.whole) : Alike S S.before (block fuel) (block fuel') S.before SameStmts
  statement : Alike S S.before (statement fuel) (statement fuel') S.behind SameStmt
  declaration (hw : S.whole) :
    Alike S S.before (declaration fuel) (declaration fuel') S.before (Both SameStmt)
  declarations (hw : S.whole) (inBlock : Bool) (done done' : Array Stmt)
    (h : SameStmts done.toList done'.toList) :
    Alike S S.before (declarations fuel inBlock done) (declarations fuel' inBlock done') S.before
      SameStmts

variable {fuel fuel' : Nat}

theorem alike_expression (h : Abreast S fuel fuel') :
    AlikeExpr S (expression (fuel + 1)) (expression (fuel' + 1)) := by
  unfold expression
  refine .bind (h.chain .or) fun l l' hl => ?_
  refine .bind_accept? S.head ?_ ?_
  · intro equals hk s t hst
    have hminor := S.minor_at hst
    refine Alike.bind h.expression (fun v v' hv => ?_) s t (S.tail hst (by simp [hk]))
    cases l <;> cases l' <;> simp only [SameExpr, Expr.bare, reduceCtorEq] at hl
    case reference.reference =>
      cases hl
      exact .bind_fresh fun _ _ => .pure (by simp [SameExpr, Expr.bare, hv])
    all_goals
      refine .bind (alike_complain hminor) fun _ _ _ => .pure ?_
      simpa only [SameExpr, Expr.bare] using hl
  · exact (Alike.pure hl).given And.left

theorem operatorAt?_ne_semicolon {level : Level} {token : Token} {c}
    (h : level.operatorAt? token = some c) : token.kind ≠ .semicolon := by
  intro hk
  cases level <;> simp [Level.operatorAt?, Level.operator?, hk] at h

theorem unaryAt?_ne_semicolon {token : Token} {c} (h : unaryAt? token = some c) :
    token.kind ≠ .semicolon := by
  intro hk
  simp [unaryAt?, hk] at h

theorem atomAt?_ne_semicolon {token : Token} {c} (h : atomAt? token = some c) :
    token.kind ≠ .semicolon := by
  intro hk
  simp [atomAt?, hk] at h

theorem alike_operand (h : Abreast S fuel fuel') (level : Level) :
    AlikeExpr S (operandOf level (chain fuel) (unary fuel))
      (operandOf level (chain fuel') (unary fuel')) := by
  cases level
  case factor => exact h.unary
  all_goals exact h.chain _

theorem alike_chain (h : Abreast S fuel fuel') (level : Level) :
    AlikeExpr S (chain (fuel + 1) level) (chain (fuel' + 1) level) := by
  unfold chain
  exact .bind (alike_operand h level) fun l l' hl => h.chainRest level l l' hl

theorem sameExpr_combine {l l' r r' : Expr} {op : LogicalOp ⊕ BinaryOp} {token : Token}
    {m n : NodeId} (hl : SameExpr l l') (hr : SameExpr r r') :
    SameExpr (combine m l op token r) (combine n l' op token r') := by
  cases op <;> simp [SameExpr, combine, Expr.bare, hl, hr]

/-- Further operands join expressions that are alike. -/
theorem alike_chainRest (h : Abreast S fuel fuel') (level : Level) (l l' : Expr)
    (hl : SameExpr l l') :
    AlikeExpr S (chainRest (fuel + 1) level l) (chainRest (fuel' + 1) level l') := by
  unfold chainRest
  refine .bind_acceptMap? S.head ?_ ?_
  · rintro token ⟨op, other⟩ ho
    refine Alike.given (fun h => S.tail h (operatorAt?_ne_semicolon ho)) ?_
    refine .bind (alike_operand h level) fun r r' hr => ?_
    refine .bind_fresh fun m n => ?_
    exact h.chainRest level _ _ (sameExpr_combine hl hr)
  · exact (Alike.pure hl).given And.left

theorem alike_unary (h : Abreast S fuel fuel') :
    AlikeExpr S (unary (fuel + 1)) (unary (fuel' + 1)) := by
  unfold unary
  refine .bind_acceptMap? S.head ?_ ?_
  · rintro token ⟨op, other⟩ ho
    refine Alike.given (fun h => S.tail h (unaryAt?_ne_semicolon ho)) ?_
    refine .bind h.unary fun a b hab => ?_
    exact .bind_fresh fun _ _ => .pure (by simp [SameExpr, Expr.bare, hab])
  · refine Alike.given And.left ?_
    exact .bind h.atom fun c c' hc => h.calls c c' hc

theorem sameExprs_getD {as bs : Option (List Expr)} (h : Both SameExprs as bs) :
    SameExprs (as.getD []) (bs.getD []) := by
  match as, bs, h with
  | none, none, _ => rfl
  | some _, some _, h => exact h

theorem alike_calls (h : Abreast S fuel fuel') (c c' : Expr) (hc : SameExpr c c') :
    AlikeExpr S (calls (fuel + 1) c) (calls (fuel' + 1) c') := by
  unfold calls
  refine .bind_accept? S.head ?_ ?_
  · intro lp hk
    refine Alike.given (fun h => S.tail h (by simp [hk])) ?_
    refine .bind (alike_unlessNext (h.arguments #[] #[] rfl)) fun as bs hab => ?_
    refine .bind_expect (by decide) fun paren => ?_
    refine .bind_fresh fun m n => h.calls _ _ ?_
    simp [SameExpr, Expr.bare, hc, sameExprs_getD hab]
  · exact (Alike.pure hc).given And.left

theorem sameExprs_concat {as bs : List Expr} {a b : Expr} (h : SameExprs as bs)
    (hab : SameExpr a b) : SameExprs (as ++ [a]) (bs ++ [b]) := by
  simp only [SameExprs, SameExpr] at h hab
  simp [SameExprs, bareAll_append, Expr.bareAll, h, hab]

theorem alike_arguments (h : Abreast S fuel fuel') (done done' : Array Expr)
    (hd : SameExprs done.toList done'.toList) :
    Alike S S.before (arguments (fuel + 1) done) (arguments (fuel' + 1) done') S.before
      SameExprs := by
  have hsize : done.size = done'.size := by
    simpa [length_bareAll] using congrArg List.length hd
  unfold arguments
  refine .unless (by rw [hsize]) (by simp) (.bind h.expression fun a b hab => ?_)
  refine .bind_accept? S.head ?_ ?_
  · intro comma hk
    refine (h.arguments _ _ ?_).given fun h => S.tail h (by simp [hk])
    simpa using sameExprs_concat hd hab
  · refine (Alike.pure ?_).given And.left
    simpa using sameExprs_concat hd hab

theorem kind_of_atomAt?_lambda {token : Token} (h : atomAt? token = some .lambda) :
    token.kind = .kwFun := by
  unfold atomAt? at h
  split at h <;> simp_all

theorem alike_atom (h : Abreast S fuel fuel') :
    AlikeExpr S (atom (fuel + 1)) (atom (fuel' + 1)) := by
  unfold atom
  refine .bind_acceptMap? S.head ?_ ?_
  · intro token a ha
    have htail {as bs} (h : S.before (token :: as) (token :: bs)) : S.before as bs :=
      S.tail h (atomAt?_ne_semicolon ha)
    cases a with
    | literal value =>
      exact .given htail (.bind_fresh fun _ _ => .pure rfl)
    | name token =>
      exact .given htail (.bind_fresh fun _ _ => .pure rfl)
    | lambda =>
      intro s t hst
      have hw := S.whole_of_nesting hst (by simp [kind_of_atomAt?_lambda ha])
      refine Alike.bind (h.lambda hw) (fun f f' hf => .pure ?_) s t (htail hst)
      simp [SameExpr, Expr.bare, hf]
    | group =>
      refine Alike.given htail ?_
      refine .bind h.expression fun a b hab => .bind_expect (by decide) fun _ => ?_
      exact .bind_fresh fun _ _ => .pure (by simp [SameExpr, Expr.bare, hab])
  · exact alike_missing.given And.left

theorem alike_lambda (h : Abreast S fuel fuel') (hw : S.whole) :
    Alike S S.before (lambda (fuel + 1)) (lambda (fuel' + 1)) S.before
      fun f f' => f.bare = f'.bare := by
  unfold lambda
  refine .bind_expect (by decide) fun _ => ?_
  refine .bind (alike_unlessNext (alike_parameters hw fuel fuel' #[])) fun ps qs hps => ?_
  refine .bind_expect (by decide) fun _ => .bind_expect (by decide) fun _ => ?_
  refine .bind (h.block hw) fun ss ts hss => .bind_fresh fun _ _ => .pure ?_
  simp [Lambda.bare, hps.eq, hss]

theorem alike_block (h : Abreast S fuel fuel') (hw : S.whole) :
    Alike S S.before (block (fuel + 1)) (block (fuel' + 1)) S.before SameStmts := by
  unfold block
  refine .bind (h.declarations hw true #[] #[] rfl) fun ss ts hss => ?_
  exact .bind_expect (by decide) fun _ => .pure hss

/-- What a statement may begin with: a keyword that ends at the next semicolon, or one that nests.
-/
theorem kind_of_openingAt? {token other : Token} {o : Opening}
    (h : openingAt? token = some (o, other)) :
    token.kind ≠ .semicolon ∧ (o = .print ∨ o = .giveBack ∨ o = .breakLoop ∨
      token.kind ∈ [.kwFun, .kwFor, .kwIf, .kwWhile, .leftBrace]) := by
  unfold openingAt? at h
  split at h <;> simp_all

/-- A statement that nests occurs only where two readings are alike as a whole; any other ends with
its semicolon. -/
theorem alike_statement (h : Abreast S fuel fuel') :
    Alike S S.before (statement (fuel + 1)) (statement (fuel' + 1)) S.behind SameStmt := by
  have hbody (hw : S.whole) :
      Alike S S.before (statement fuel) (statement fuel') S.before SameStmt :=
    h.statement.onward hw
  unfold statement
  refine .bind_acceptMap? S.head ?_ ?_
  · rintro token ⟨o, keyword⟩ ho s t hst
    obtain ⟨hk, hcases⟩ := kind_of_openingAt? ho
    have htail := S.tail hst hk
    have hw (hp : o ≠ .print) (hg : o ≠ .giveBack) (hb : o ≠ .breakLoop) : S.whole :=
      S.whole_of_nesting hst (by simpa [hp, hg, hb] using hcases)
    cases o with
    | print => exact alike_print h.expression s t htail
    | giveBack => exact alike_giveBack h.expression s t htail
    | breakLoop => exact alike_breakLoop s t htail
    | counting =>
      have hw := hw (by simp) (by simp) (by simp)
      refine Alike.leaving ?_ (S.behind_of_before hw) s t htail
      exact alike_countingLoop hw h.expression (hbody hw)
    | branch =>
      have hw := hw (by simp) (by simp) (by simp)
      exact (alike_branch hw h.expression (hbody hw)).leaving (S.behind_of_before hw) s t htail
    | loop =>
      have hw := hw (by simp) (by simp) (by simp)
      exact (alike_loop h.expression (hbody hw)).leaving (S.behind_of_before hw) s t htail
    | block =>
      have hw := hw (by simp) (by simp) (by simp)
      refine Alike.bind ((h.block hw).leaving (S.behind_of_before hw)) (fun ss ts hss => .pure ?_)
        s t htail
      simp [SameStmt, Stmt.bare, hss]
  · exact .given And.left (alike_expressionStatement h.expression)

theorem alike_attempt (h : Abreast S fuel fuel') :
    Alike S S.before (attempt fuel) (attempt fuel') S.behind SameStmt := by
  refine .bind_acceptFunctionName? ?_ ?_
  · intro hw name
    refine .bind ((h.lambda hw).leaving (S.behind_of_before hw)) fun f f' hf => .pure ?_
    simp [SameStmt, Stmt.bare, hf]
  · refine .bind_accept? S.head ?_ ?_
    · intro var hk
      exact .given (fun h => S.tail h (by simp [hk])) (alike_varDeclaration h.expression)
    · exact .given And.left h.statement

/-- Declaration by declaration, two readings collect the same statements. -/
theorem alike_declarations (h : Abreast S fuel fuel') (hw : S.whole) (inBlock : Bool)
    (done done' : Array Stmt) (hd : SameStmts done.toList done'.toList) :
    Alike S S.before (declarations (fuel + 1) inBlock done) (declarations (fuel' + 1) inBlock done')
      S.before SameStmts := by
  unfold declarations
  refine .bind_get fun s t hst => .bind_check S.head fun b => .given And.left ?_
  have hempty : s.rest.isEmpty = t.rest.isEmpty := by
    have hhead := S.head hst
    cases hs : s.rest <;> cases ht : t.rest <;> simp_all
  rw [hempty]
  split
  · exact .pure hd
  · refine .bind (h.declaration hw) fun a b hab => ?_
    match a, b, hab with
    | none, none, _ => exact h.declarations hw inBlock done done' hd
    | some a, some b, hab =>
      have hab : SameStmt a b := hab
      refine h.declarations hw inBlock _ _ ?_
      simp only [SameStmts, SameStmt] at hd hab ⊢
      simp [stmt_bareAll_append, Stmt.bareAll, hd, hab]

/-- Two runs of the same parser are alike. -/
theorem abreast (S : Setting) (fuel fuel' : Nat) : Abreast S fuel fuel' := by
  induction fuel generalizing fuel' with
  | zero =>
    exact ⟨.outOfFuel_left, fun _ => .outOfFuel_left, fun _ _ _ _ => .outOfFuel_left,
      .outOfFuel_left, fun _ _ _ => .outOfFuel_left, fun _ _ _ => .outOfFuel_left, .outOfFuel_left,
      fun _ => .outOfFuel_left, fun _ => .outOfFuel_left, .outOfFuel_left, fun _ => .outOfFuel_left,
      fun _ _ _ _ _ => .outOfFuel_left⟩
  | succ fuel ih =>
    cases fuel' with
    | zero =>
      exact ⟨.outOfFuel_right, fun _ => .outOfFuel_right, fun _ _ _ _ => .outOfFuel_right,
        .outOfFuel_right, fun _ _ _ => .outOfFuel_right, fun _ _ _ => .outOfFuel_right,
        .outOfFuel_right, fun _ => .outOfFuel_right, fun _ => .outOfFuel_right, .outOfFuel_right,
        fun _ => .outOfFuel_right, fun _ _ _ _ _ => .outOfFuel_right⟩
    | succ fuel' =>
      have h := ih fuel'
      exact {
        expression := alike_expression h
        chain := alike_chain h
        chainRest := alike_chainRest h
        unary := alike_unary h
        calls := alike_calls h
        arguments := alike_arguments h
        atom := alike_atom h
        lambda := alike_lambda h
        block := alike_block h
        statement := alike_statement h
        declaration := fun hw => alike_recovering hw (alike_attempt h)
        declarations := alike_declarations h }

end Lox.Parse
