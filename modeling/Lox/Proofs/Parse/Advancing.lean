import Lox.Proofs.Parse.Following
import Lox.Proofs.Parse.FirstBlame

/-! The parser with a cursor does as the parser does, and its cursor never leaves the tokens. -/
namespace Lox.Cursor

open Parse (Level)

variable {I : Input} {fuel d n : Nat} {x : Parser Expr} {y : Parse.Parser Expr}
  {body : Parser Stmt} {body' : Parse.Parser Stmt} {keyword : Token}

theorem follows_expressionStatement (h : Follows I d 0 x y) :
    Follows I d 1 (expressionStatement x) (Parse.expressionStatement y) := by
  unfold expressionStatement Parse.expressionStatement
  exact h.bind fun _ => .bind_expect fun _ => .pure

theorem follows_varDeclaration (h : Follows I 0 0 x y) :
    Follows I 0 0 (varDeclaration x) (Parse.varDeclaration y) := by
  unfold varDeclaration Parse.varDeclaration
  refine .bind_expect fun name => ?_
  refine .bind ?_ fun initial => .bind_expect fun _ => .pure
  refine .bind_accept? (fun _ => ?_) .pure
  exact h.bind fun _ => .pure

theorem follows_countingStart (h : Follows I 0 0 x y) :
    Follows I 0 0 (countingStart x) (Parse.countingStart y) := by
  unfold countingStart Parse.countingStart
  refine .bind_accept? (fun _ => .pure) ?_
  refine .bind_accept? (fun _ => ?_) ?_
  · exact (follows_varDeclaration h).bind fun _ => .pure
  · have hstatement := (follows_expressionStatement h).mono (Nat.le_refl 0) (Nat.zero_le 1)
    exact hstatement.bind fun _ => .pure

theorem follows_countingLoop (hx : Follows I 0 0 x y) (hbody : Follows I 0 0 body body') :
    Follows I 0 0 (countingLoop keyword x body) (Parse.countingLoop keyword y body') := by
  unfold countingLoop Parse.countingLoop
  refine .bind_expect fun _ => ?_
  refine .bind (follows_countingStart hx) fun initial => ?_
  refine .bind (follows_unlessNext hx) fun condition => ?_
  refine .bind_expect fun _ => ?_
  refine .bind (follows_unlessNext hx) fun step => ?_
  refine .bind_expect fun _ => ?_
  refine .bind hbody fun stmt => ?_
  refine .bind ?_ fun _ => .pure
  cases condition with
  | some condition => exact .pure
  | none => exact .bind_fresh fun _ => .pure

theorem follows_branch (hx : Follows I 0 0 x y) (hbody : Follows I 0 0 body body') :
    Follows I 0 0 (branch keyword x body) (Parse.branch keyword y body') := by
  unfold branch Parse.branch
  refine .bind_expect fun _ => ?_
  refine .bind hx fun condition => ?_
  refine .bind_expect fun _ => ?_
  refine .bind hbody fun yes => ?_
  refine .bind ?_ fun _ => .pure
  exact .bind_accept? (fun _ => hbody.bind fun _ => .pure) .pure

theorem follows_loop (hx : Follows I 0 0 x y) (hbody : Follows I 0 0 body body') :
    Follows I 0 0 (loop keyword x body) (Parse.loop keyword y body') := by
  unfold loop Parse.loop
  refine .bind_expect fun _ => ?_
  refine .bind hx fun condition => ?_
  refine .bind_expect fun _ => ?_
  exact hbody.bind fun _ => .pure

theorem follows_print (h : Follows I 0 0 x y) : Follows I 0 0 (print x) (Parse.print y) := by
  unfold print Parse.print
  exact h.bind fun _ => .bind_expect fun _ => .pure

theorem follows_giveBack (h : Follows I 0 0 x y) :
    Follows I 0 0 (giveBack keyword x) (Parse.giveBack keyword y) := by
  unfold giveBack Parse.giveBack
  exact (follows_unlessNext h).bind fun _ => .bind_expect fun _ => .pure

theorem follows_breakLoop : Follows I 0 0 (breakLoop keyword) (Parse.breakLoop keyword) := by
  unfold breakLoop Parse.breakLoop
  exact .bind_expect fun _ => .pure

theorem follows_parameters (fuel : Nat) (done : Array Token) :
    Follows I 0 0 (parameters fuel done) (Parse.parameters fuel done) := by
  induction fuel generalizing done with
  | zero => exact .outOfFuel
  | succ fuel ih =>
    unfold parameters Parse.parameters
    refine .unless ?_
    refine .bind_expect fun name => ?_
    exact .bind_accept? (fun _ => ih _) .pure

/-- The parsers that call each other with one unit of fuel less each time. Those of expressions and
statements pass a token before they run the parser of declarations. -/
structure Advancing (I : Input) (fuel : Nat) : Prop where
  expression : Follows I 1 0 (expression fuel) (Parse.expression fuel)
  chain : ∀ level, Follows I 1 0 (chain fuel level) (Parse.chain fuel level)
  chainRest : ∀ level left,
    Follows I 1 0 (chainRest fuel level left) (Parse.chainRest fuel level left)
  unary : Follows I 1 0 (unary fuel) (Parse.unary fuel)
  calls : ∀ callee, Follows I 1 0 (calls fuel callee) (Parse.calls fuel callee)
  arguments : ∀ done, Follows I 1 0 (arguments fuel done) (Parse.arguments fuel done)
  atom : Follows I 1 0 (atom fuel) (Parse.atom fuel)
  lambda : Follows I 0 0 (lambda fuel) (Parse.lambda fuel)
  block : Follows I 0 0 (block fuel) (Parse.block fuel)
  statement : Follows I 1 1 (statement fuel) (Parse.statement fuel)
  declaration : ∀ c s, Along I c s → s.rest ≠ [] →
    Outcome I 0 1 c (declaration fuel c) (Parse.declaration fuel s)
  declarations : ∀ inBlock done,
    Follows I 0 0 (declarations fuel inBlock done) (Parse.declarations fuel inBlock done)

theorem follows_expression (h : Advancing I fuel) :
    Follows I 1 0 (expression (fuel + 1)) (Parse.expression (fuel + 1)) := by
  unfold expression Parse.expression
  refine .bind (h.chain .or) fun target => ?_
  refine .bind_accept? (fun equals => ?_) .pure
  refine .bind h.expression.further fun value => ?_
  cases target with
  | reference id name => exact .bind_fresh fun _ => .pure
  | _ => exact follows_complain.bind fun _ => .pure

theorem follows_operand (h : Advancing I fuel) (level : Level) :
    Follows I 1 0 (operandOf level (chain fuel) (unary fuel))
      (Parse.operandOf level (Parse.chain fuel) (Parse.unary fuel)) := by
  unfold operandOf Parse.operandOf
  cases level.operand with
  | some tighter => exact h.chain tighter
  | none => exact h.unary

theorem follows_chain (h : Advancing I fuel) (level : Level) :
    Follows I 1 0 (chain (fuel + 1) level) (Parse.chain (fuel + 1) level) := by
  unfold chain Parse.chain
  exact (follows_operand h level).bind fun first => h.chainRest level first

/-- An operator is consumed before each further operand. -/
theorem follows_chainRest (h : Advancing I fuel) (level : Level) (left : Expr) :
    Follows I 1 0 (chainRest (fuel + 1) level left) (Parse.chainRest (fuel + 1) level left) := by
  unfold chainRest Parse.chainRest
  refine .bind_acceptMap? (fun found => ?_) .pure
  obtain ⟨op, token⟩ := found
  refine (follows_operand h level).further.bind fun right => ?_
  exact .bind_fresh fun id => (h.chainRest level _).further

theorem follows_unary (h : Advancing I fuel) :
    Follows I 1 0 (unary (fuel + 1)) (Parse.unary (fuel + 1)) := by
  unfold unary Parse.unary
  refine .bind_acceptMap? (fun found => ?_) ?_
  · obtain ⟨op, token⟩ := found
    exact h.unary.further.bind fun _ => .bind_fresh fun _ => .pure
  · exact h.atom.bind fun callee => h.calls callee

theorem follows_calls (h : Advancing I fuel) (callee : Expr) :
    Follows I 1 0 (calls (fuel + 1) callee) (Parse.calls (fuel + 1) callee) := by
  unfold calls Parse.calls
  refine .bind_accept? (fun _ => ?_) .pure
  refine (follows_unlessNext (h.arguments #[]).further).bind fun given => ?_
  refine .bind_expect fun paren => ?_
  exact .bind_fresh fun id => (h.calls _).further

theorem follows_arguments (h : Advancing I fuel) (done : Array Expr) :
    Follows I 1 0 (arguments (fuel + 1) done) (Parse.arguments (fuel + 1) done) := by
  unfold arguments Parse.arguments
  refine .unless ?_
  refine h.expression.bind fun argument => ?_
  exact .bind_accept? (fun _ => (h.arguments _).further) .pure

theorem follows_atom (h : Advancing I fuel) :
    Follows I 1 0 (atom (fuel + 1)) (Parse.atom (fuel + 1)) := by
  unfold atom Parse.atom
  refine .bind_acceptMap? (fun start => ?_) follows_missing
  cases start with
  | literal value => exact .bind_fresh fun _ => .pure
  | name token => exact .bind_fresh fun _ => .pure
  | lambda => exact h.lambda.bind fun _ => .pure
  | group =>
    refine h.expression.further.bind fun inner => ?_
    exact .bind_expect fun _ => .bind_fresh fun _ => .pure

theorem follows_lambda (h : Advancing I fuel) :
    Follows I 0 0 (lambda (fuel + 1)) (Parse.lambda (fuel + 1)) := by
  unfold lambda Parse.lambda
  refine .bind_expect fun _ => ?_
  refine (follows_unlessNext (follows_parameters fuel #[])).bind fun params => ?_
  refine .bind_expect fun _ => ?_
  refine .bind_expect fun _ => ?_
  exact h.block.bind fun _ => .bind_fresh fun _ => .pure

theorem follows_block (h : Advancing I fuel) :
    Follows I 0 0 (block (fuel + 1)) (Parse.block (fuel + 1)) := by
  unfold block Parse.block
  exact (h.declarations true #[]).bind fun _ => .bind_expect fun _ => .pure

/-- A statement is a token at least, and what it contains starts behind its first. -/
theorem follows_statement (h : Advancing I fuel) :
    Follows I 1 1 (statement (fuel + 1)) (Parse.statement (fuel + 1)) := by
  have hexpression := h.expression.further
  have hstatement := h.statement.further
  unfold statement Parse.statement
  refine .bind_acceptMap? (fun found => ?_) (follows_expressionStatement h.expression)
  obtain ⟨opening, keyword⟩ := found
  cases opening with
  | counting => exact follows_countingLoop hexpression hstatement
  | branch => exact follows_branch hexpression hstatement
  | print => exact follows_print hexpression
  | giveBack => exact follows_giveBack hexpression
  | loop => exact follows_loop hexpression hstatement
  | breakLoop => exact follows_breakLoop
  | block => exact h.block.bind fun _ => .pure

/-- A declaration is begun before a token only, and so it passes one. -/
theorem outcome_declaration (h : Advancing I fuel) {c : State} {s : Parse.State}
    (hc : Along I c s) (hs : s.rest ≠ []) :
    Outcome I 0 1 c (declaration (fuel + 1) c) (Parse.declaration (fuel + 1) s) := by
  unfold declaration Parse.declaration
  refine (Outcome.recovering hc hs ?_).noted
  refine Follows.bind_acceptFunctionName? (fun name => ?_) ?_ c s hc
  · exact h.lambda.bind fun _ => .pure
  · exact .bind_accept? (fun _ => follows_varDeclaration h.expression.further) h.statement

/-- Declarations are read in the same passes by index, each starting further on than the last. -/
theorem follows_declarations (h : Advancing I fuel) (inBlock : Bool) (done : Array Stmt) :
    Follows I 0 0 (declarations (fuel + 1) inBlock done)
      (Parse.declarations (fuel + 1) inBlock done) := by
  intro c s hc
  unfold declarations Parse.declarations
  have hget : (get : Parse.Parser Parse.State) s = .ok s s := rfl
  have hcheck : Parse.check .rightBrace s = .ok (s.rest.head?.any (·.kind = .rightBrace)) s := rfl
  rw [run_bind hc.isAtEnd, run_bind hc.check, run_bind hget, run_bind hcheck]
  by_cases hend : s.rest.isEmpty || (inBlock && s.rest.head?.any (·.kind = .rightBrace))
  · rw [if_pos hend, if_pos hend]
    exact Follows.pure c s hc
  · rw [if_neg hend, if_neg hend]
    have hs : s.rest ≠ [] := fun hs => hend (by simp [hs])
    refine (h.declaration c s hc hs).bind (fun a => ?_) (Nat.zero_le (1 + 0)) (Nat.zero_le (1 + 0))
    cases a with
    | some stmt => exact h.declarations inBlock _
    | none => exact h.declarations inBlock done

theorem advancing (I : Input) (fuel : Nat) : Advancing I fuel := by
  induction fuel with
  | zero =>
    exact {
      expression := .outOfFuel
      chain := fun _ => .outOfFuel
      chainRest := fun _ _ => .outOfFuel
      unary := .outOfFuel
      calls := fun _ => .outOfFuel
      arguments := fun _ => .outOfFuel
      atom := .outOfFuel
      lambda := .outOfFuel
      block := .outOfFuel
      statement := .outOfFuel
      declaration := fun _ _ _ _ => .outOfFuel
      declarations := fun _ _ => .outOfFuel }
  | succ fuel ih =>
    exact {
      expression := follows_expression ih
      chain := fun level => follows_chain ih level
      chainRest := fun level left => follows_chainRest ih level left
      unary := follows_unary ih
      calls := fun callee => follows_calls ih callee
      arguments := fun done => follows_arguments ih done
      atom := follows_atom ih
      lambda := follows_lambda ih
      block := follows_block ih
      statement := follows_statement ih
      declaration := fun _ _ hc hs => outcome_declaration ih hc hs
      declarations := fun inBlock done => follows_declarations ih inBlock done }

/-- Between two states all tokens that were passed were passed by a noted run. -/
structure Covers (c c' : State) : Prop where
  calls : c.calls ⊆ c'.calls
  places : ∀ place, c.cursor ≤ place → place < c'.cursor →
    ∃ call ∈ c'.calls, call.start ≤ place ∧ place < call.stop

theorem Covers.refl (c : State) : Covers c c :=
  ⟨List.Subset.refl _, fun _ hle hlt => absurd hlt (Nat.not_lt_of_le hle)⟩

theorem Covers.trans {c c' c'' : State} (h : Covers c c') (h' : Covers c' c'') : Covers c c'' := by
  refine ⟨List.Subset.trans h.calls h'.calls, fun place hle hlt => ?_⟩
  rcases Nat.lt_or_ge place c'.cursor with hbefore | hbehind
  · obtain ⟨call, hcall, hplace⟩ := h.places place hle hbefore
    exact ⟨call, h'.calls hcall, hplace⟩
  · exact h'.places place hbehind hlt

/-- A declaration covers what it passes, as it is noted itself. -/
theorem covers_declaration {c : State} {s : Parse.State} (hc : Along I c s) (hs : s.rest ≠ []) :
    Ends (declaration fuel) c (fun _ c' => Covers c c' ∧ ∃ s', Along I c' s') fun _ _ => True := by
  have houtcome := (advancing I fuel).declaration c s hc hs
  unfold Ends
  generalize hrun : declaration fuel c = r, Parse.declaration fuel s = r' at houtcome
  cases houtcome with
  | unwind => trivial
  | outOfFuel => trivial
  | ok along moves =>
    obtain ⟨-, new, hnew, -⟩ := moves
    refine ⟨⟨hnew ▸ List.subset_append_left .., fun place hle hlt => ?_⟩, _, along⟩
    cases fuel with
    | zero => cases hrun
    | succ fuel =>
      rw [declaration, run_noted] at hrun
      split at hrun
      · cases hrun
        exact ⟨_, List.mem_append_right _ (List.mem_singleton_self _), hle, hlt⟩
      · cases hrun

/-- Every token that a list of declarations is read from belongs to one of the passes. -/
theorem covers_declarations (inBlock : Bool) (done : Array Stmt) {c : State} {s : Parse.State}
    (hc : Along I c s) :
    Ends (declarations fuel inBlock done) c (fun _ c' => Covers c c') fun _ _ => True := by
  induction fuel generalizing done c s with
  | zero => trivial
  | succ fuel ih =>
    unfold declarations Ends
    rw [run_bind hc.isAtEnd, run_bind hc.check]
    by_cases hend : s.rest.isEmpty || (inBlock && s.rest.head?.any (·.kind = .rightBrace))
    · rw [if_pos hend]
      exact Covers.refl c
    · rw [if_neg hend]
      have hs : s.rest ≠ [] := fun hs => hend (by simp [hs])
      change Ends (declaration fuel >>= _) c (fun _ c' => Covers c c') fun _ _ => True
      refine Ends.bind (covers_declaration hc hs) fun a c' hdeclaration => ?_
      obtain ⟨hcovers, s', hc'⟩ := hdeclaration
      cases a with
      | some stmt => exact (ih _ hc').mono (fun _ _ => hcovers.trans) fun _ _ => id
      | none => exact (ih done hc').mono (fun _ _ => hcovers.trans) fun _ _ => id

variable {tokens : List Token} {finish : Token}

/-- Whatever the tokens are, as long as the end of the input is the last of them and no other one,
all of them are passed, and no place outside of them is ever asked for. Each declaration begun
passes a token at least, whether it has a result or is given up, no two begin at the same one, and
there is none that no declaration passes. What is found is what the parser finds. -/
theorem program_advances (hfinish : finish.kind = .eof) (htokens : ∀ t ∈ tokens, t.kind ≠ .eof)
    (firstId : NodeId) : ∃ c,
      program (tokens ++ [finish]) firstId = .ok (parse tokens finish firstId).program c ∧
        c.errors.toList = (parse tokens finish firstId).errors ∧
        c.nextId = (parse tokens finish firstId).nextId ∧ c.cursor = tokens.length ∧
        (∀ call ∈ c.calls, call.start < call.stop ∧ call.stop ≤ tokens.length) ∧
        (c.calls.map Call.start).Nodup ∧
        ∀ place < tokens.length, ∃ call ∈ c.calls, call.start ≤ place ∧ place < call.stop := by
  let I : Input := ⟨tokens, finish, hfinish, htokens⟩
  have hstart : Along I ⟨tokens ++ [finish], 0, #[], firstId, []⟩ ⟨tokens, #[], firstId⟩ :=
    ⟨rfl, Nat.zero_le _, rfl, rfl, rfl⟩
  obtain ⟨s, hrun, herrors, hnextId, hrest⟩ := Parse.parse_run tokens finish firstId
  have houtcome := (advancing I (16 * (tokens.length + 1))).declarations false #[] _ _ hstart
  have hcovers : Ends (declarations (16 * (tokens.length + 1)) false #[])
    ⟨tokens ++ [finish], 0, #[], firstId, []⟩ _ _ := covers_declarations false #[] hstart
  have hlength : 16 * (tokens ++ [finish]).length = 16 * (tokens.length + 1) := by simp
  unfold program
  unfold Ends at hcovers
  rw [hrun] at houtcome
  rw [hlength]
  generalize declarations (16 * (tokens.length + 1)) false #[] _ = r at houtcome hcovers ⊢
  cases houtcome with
  | ok along moves =>
    rename_i c
    obtain ⟨-, new, hnew, hnodup, hbounds⟩ := moves
    obtain rfl : c.calls = new := hnew
    have hcursor : c.cursor = tokens.length :=
      Nat.le_antisymm along.cursor_le (List.drop_eq_nil_iff.mp (along.rest.symm.trans hrest))
    refine ⟨c, rfl, along.errors.trans herrors.symm, along.nextId.trans hnextId.symm, hcursor,
      fun call hcall => ?_, hnodup, fun place hplace => ?_⟩
    · rw [← hcursor]
      exact (hbounds call hcall).2
    · exact hcovers.places place (Nat.zero_le _) (hcursor ▸ hplace)

theorem program_advances_openBlock :
    let tokens : List Token := [⟨.leftBrace, "\x7b", .nil, 1⟩, ⟨.comma, ",", .nil, 1⟩,
      ⟨.kwPrint, "print", .nil, 1⟩]
    (∀ t ∈ tokens, t.kind ≠ .eof) ∧ ∃ c, program (tokens ++ [.endOfInput 1]) 0 = .ok [] c ∧
      c.errors.toList.map (·.fault) =
        [.expected .expression, .expected .expression, .expected .blockEnd] ∧
      c.cursor = 3 ∧ (c.calls.map Call.start).Nodup ∧ c.calls = [⟨1, 2⟩, ⟨2, 3⟩, ⟨0, 3⟩] := by
  intro tokens
  have htokens : ∀ t ∈ tokens, t.kind ≠ .eof := by decide
  obtain ⟨c, hrun, herrors, -, hcursor, -, hnodup, -⟩ :=
    program_advances (rfl : (Token.endOfInput 1).kind = .eof) htokens 0
  have hcalls : [⟨1, 2⟩, ⟨2, 3⟩, ⟨0, 3⟩] = c.calls :=
    congrArg (fun run => match run with | .ok _ c | .error _ c => c.calls) hrun
  refine ⟨htokens, c, hrun, ?_, hcursor, hnodup, hcalls.symm⟩
  rw [herrors]
  rfl

end Lox.Cursor
