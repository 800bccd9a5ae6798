import Lox.Parse

/-! The grammar of programs as a relation between tokens and trees. Only the kinds of tokens decide
what can be derived; identities are no part of a phrase, so any will do. -/
namespace Lox.Grammar

open Parse (Level)

/-- The phrases of the grammar. A statement is `dangling` if it ends with a branch that could still
take an `else`. -/
inductive Phrase where
  | declarations | declaration | binding | start | statement (dangling : Bool) | block
  | function | parameters | names
  | optional | expression | chain (level : Level) | operand (level : Level) | unary | call
  | primary | arguments | values

/-- What a phrase is read as. -/
@[reducible] def Phrase.Tree : Phrase → Type
  | declarations | block => List Stmt
  | declaration | binding | statement _ => Stmt
  | start => Option Stmt
  | function => Lambda
  | parameters | names => List Token
  | optional => Option Expr
  | expression | chain _ | operand _ | unary | call | primary => Expr
  | arguments | values => List Expr

/-- The operators that may short-circuit, by level. -/
def logicalOperators : Level → List (TokenKind × LogicalOp)
  | .or => [(.kwOr, .or)]
  | .and => [(.kwAnd, .and)]
  | _ => []

/-- The other operators between two operands, by level. -/
def binaryOperators : Level → List (TokenKind × BinaryOp)
  | .equality => [(.bangEqual, .notEqual), (.equalEqual, .equal)]
  | .comparison =>
    [(.greater, .greater), (.greaterEqual, .greaterEqual), (.less, .less), (.lessEqual, .lessEqual)]
  | .term => [(.minus, .subtract), (.plus, .add)]
  | .factor => [(.slash, .divide), (.star, .multiply)]
  | _ => []

/-- `Tighter l k` if the operands of level `l` are chains of level `k`. -/
inductive Tighter : Level → Level → Prop
  | or : Tighter .or .and
  | and : Tighter .and .equality
  | equality : Tighter .equality .comparison
  | comparison : Tighter .comparison .term
  | term : Tighter .term .factor

/-- The tree of a `for`: its loop is a `while`, whose body ends with the step. What comes first
shares a block with that loop, and so does the body with the step; without them there is no block.
-/
def desugared (keyword : Token) (condition : Expr) (body : Stmt) :
    Option Stmt → Option Expr → Stmt
  | none, none => .loop keyword condition body
  | none, some step => .loop keyword condition (.block [body, .expression step])
  | some initial, none => .block [initial, .loop keyword condition body]
  | some initial, some step =>
    .block [initial, .loop keyword condition (.block [body, .expression step])]

/-- It is what the parser builds. -/
theorem desugared_eq (keyword : Token) (condition : Expr) (body : Stmt) (initial : Option Stmt)
    (step : Option Expr) :
    desugared keyword condition body initial step =
      .counting keyword initial condition step body := by
  cases initial <;> cases step <;> rfl

/-- The tokens of a phrase and its tree. If `nearest`, an `else` belongs to the nearest branch that
can take it; otherwise to any. -/
inductive Derives (nearest : Bool) : (p : Phrase) → List Token → p.Tree → Prop
  | nothing : Derives nearest .declarations [] []
  | next {ts us s ss} (hs : Derives nearest .declaration ts s)
      (hss : Derives nearest .declarations us ss) :
      Derives nearest .declarations (ts ++ us) (s :: ss)
  | named {fn name ts f} (hk : fn.kind = .kwFun) (hn : name.kind = .identifier)
      (hf : Derives nearest .function ts f) :
      Derives nearest .declaration (fn :: name :: ts) (.function name f)
  | declared {var ts s} (hk : var.kind = .kwVar) (hs : Derives nearest .binding ts s) :
      Derives nearest .declaration (var :: ts) s
  | plain {d ts s} (hs : Derives nearest (.statement d) ts s) :
      Derives nearest .declaration ts s
  | unset {name semi} (hn : name.kind = .identifier) (hs : semi.kind = .semicolon) :
      Derives nearest .binding [name, semi] (.var name none)
  | set {name equal ts e semi} (hn : name.kind = .identifier) (he : equal.kind = .equal)
      (hv : Derives nearest .expression ts e) (hs : semi.kind = .semicolon) :
      Derives nearest .binding (name :: equal :: (ts ++ [semi])) (.var name (some e))
  | evaluate {ts e semi} (he : Derives nearest .expression ts e) (hs : semi.kind = .semicolon) :
      Derives nearest (.statement false) (ts ++ [semi]) (.expression e)
  | print {keyword ts e semi} (hk : keyword.kind = .kwPrint)
      (he : Derives nearest .expression ts e) (hs : semi.kind = .semicolon) :
      Derives nearest (.statement false) (keyword :: (ts ++ [semi])) (.print e)
  | giveBack {keyword ts e semi} (hk : keyword.kind = .kwReturn)
      (he : Derives nearest .optional ts e) (hs : semi.kind = .semicolon) :
      Derives nearest (.statement false) (keyword :: (ts ++ [semi])) (.giveBack keyword e)
  | breakLoop {keyword semi} (hk : keyword.kind = .kwBreak) (hs : semi.kind = .semicolon) :
      Derives nearest (.statement false) [keyword, semi] (.breakLoop keyword)
  | block {brace ts ss} (hk : brace.kind = .leftBrace) (hb : Derives nearest .block ts ss) :
      Derives nearest (.statement false) (brace :: ts) (.block ss)
  | loop {keyword lp ts c rp us d s} (hk : keyword.kind = .kwWhile) (hl : lp.kind = .leftParen)
      (hc : Derives nearest .expression ts c) (hr : rp.kind = .rightParen)
      (hs : Derives nearest (.statement d) us s) :
      Derives nearest (.statement d) (keyword :: lp :: (ts ++ rp :: us)) (.loop keyword c s)
  | counting {keyword lp ts i us c semi vs step rp ws d s n} (hk : keyword.kind = .kwFor)
      (hl : lp.kind = .leftParen) (hi : Derives nearest .start ts i)
      (hc : Derives nearest .optional us c) (hm : semi.kind = .semicolon)
      (ht : Derives nearest .optional vs step) (hr : rp.kind = .rightParen)
      (hs : Derives nearest (.statement d) ws s) :
      Derives nearest (.statement d) (keyword :: lp :: (ts ++ (us ++ semi :: (vs ++ rp :: ws))))
        (desugared keyword (c.getD (.literal n (.bool true))) s i step)
  | branch {keyword lp ts c rp us d s} (hk : keyword.kind = .kwIf) (hl : lp.kind = .leftParen)
      (hc : Derives nearest .expression ts c) (hr : rp.kind = .rightParen)
      (hs : Derives nearest (.statement d) us s) :
      Derives nearest (.statement true) (keyword :: lp :: (ts ++ rp :: us))
        (.branch keyword c s none)
  | branchElse {keyword lp ts c rp us d s other vs d' s'} (hk : keyword.kind = .kwIf)
      (hl : lp.kind = .leftParen) (hc : Derives nearest .expression ts c)
      (hr : rp.kind = .rightParen) (hs : Derives nearest (.statement d) us s)
      (hd : nearest = true → d = false) (ho : other.kind = .kwElse)
      (hs' : Derives nearest (.statement d') vs s') :
      Derives nearest (.statement d') (keyword :: lp :: (ts ++ rp :: (us ++ other :: vs)))
        (.branch keyword c s (some s'))
  | startNothing {semi} (hs : semi.kind = .semicolon) : Derives nearest .start [semi] none
  | startVariable {var ts s} (hk : var.kind = .kwVar) (hs : Derives nearest .binding ts s) :
      Derives nearest .start (var :: ts) (some s)
  | startExpression {ts e semi} (he : Derives nearest .expression ts e)
      (hs : semi.kind = .semicolon) :
      Derives nearest .start (ts ++ [semi]) (some (.expression e))
  | braced {ts ss brace} (hs : Derives nearest .declarations ts ss)
      (hb : brace.kind = .rightBrace) : Derives nearest .block (ts ++ [brace]) ss
  | function {lp ts ps rp brace us ss n} (hl : lp.kind = .leftParen)
      (hp : Derives nearest .parameters ts ps) (hr : rp.kind = .rightParen)
      (hk : brace.kind = .leftBrace) (hb : Derives nearest .block us ss) :
      Derives nearest .function (lp :: (ts ++ rp :: brace :: us)) (.mk n ps ss)
  | noParameters : Derives nearest .parameters [] []
  | someParameters {ts ps} (hp : Derives nearest .names ts ps) (hl : ps.length ≤ 127) :
      Derives nearest .parameters ts ps
  | oneName {name} (hn : name.kind = .identifier) : Derives nearest .names [name] [name]
  | moreNames {name comma ts ps} (hn : name.kind = .identifier) (hc : comma.kind = .comma)
      (hp : Derives nearest .names ts ps) :
      Derives nearest .names (name :: comma :: ts) (name :: ps)
  | absent : Derives nearest .optional [] none
  | present {ts e} (he : Derives nearest .expression ts e) : Derives nearest .optional ts (some e)
  | assign {name equal ts e n} (hn : name.kind = .identifier) (hq : equal.kind = .equal)
      (he : Derives nearest .expression ts e) :
      Derives nearest .expression (name :: equal :: ts) (.assign n name e)
  | loosest {ts e} (he : Derives nearest (.chain .or) ts e) : Derives nearest .expression ts e
  | single {level ts e} (he : Derives nearest (.operand level) ts e) :
      Derives nearest (.chain level) ts e
  | logical {level ts l op token us r n} (hl : Derives nearest (.chain level) ts l)
      (ho : (token.kind, op) ∈ logicalOperators level)
      (hr : Derives nearest (.operand level) us r) :
      Derives nearest (.chain level) (ts ++ token :: us) (.logical n l op token r)
  | binary {level ts l op token us r n} (hl : Derives nearest (.chain level) ts l)
      (ho : (token.kind, op) ∈ binaryOperators level)
      (hr : Derives nearest (.operand level) us r) :
      Derives nearest (.chain level) (ts ++ token :: us) (.binary n l op token r)
  | tighter {level tight ts e} (ht : Tighter level tight)
      (he : Derives nearest (.chain tight) ts e) : Derives nearest (.operand level) ts e
  | tightest {ts e} (he : Derives nearest .unary ts e) :
      Derives nearest (.operand .factor) ts e
  | not {token ts e n} (hk : token.kind = .bang) (he : Derives nearest .unary ts e) :
      Derives nearest .unary (token :: ts) (.unary n .not token e)
  | negate {token ts e n} (hk : token.kind = .minus) (he : Derives nearest .unary ts e) :
      Derives nearest .unary (token :: ts) (.unary n .negate token e)
  | called {ts e} (he : Derives nearest .call ts e) : Derives nearest .unary ts e
  | uncalled {ts e} (he : Derives nearest .primary ts e) : Derives nearest .call ts e
  | call {ts e lp us es rp n} (he : Derives nearest .call ts e) (hl : lp.kind = .leftParen)
      (ha : Derives nearest .arguments us es) (hr : rp.kind = .rightParen) :
      Derives nearest .call (ts ++ lp :: (us ++ [rp])) (.call n e rp es)
  | noArguments : Derives nearest .arguments [] []
  | someArguments {ts es} (ha : Derives nearest .values ts es) (hl : es.length ≤ 127) :
      Derives nearest .arguments ts es
  | oneValue {ts e} (he : Derives nearest .expression ts e) : Derives nearest .values ts [e]
  | moreValues {ts e comma us es} (he : Derives nearest .expression ts e)
      (hc : comma.kind = .comma) (ha : Derives nearest .values us es) :
      Derives nearest .values (ts ++ comma :: us) (e :: es)
  | no {t n} (hk : t.kind = .kwFalse) : Derives nearest .primary [t] (.literal n (.bool false))
  | yes {t n} (hk : t.kind = .kwTrue) : Derives nearest .primary [t] (.literal n (.bool true))
  | nil {t n} (hk : t.kind = .kwNil) : Derives nearest .primary [t] (.literal n .nil)
  | number {t n} (hk : t.kind = .number) : Derives nearest .primary [t] (.literal n t.literal)
  | string {t n} (hk : t.kind = .string) : Derives nearest .primary [t] (.literal n t.literal)
  | name {t n} (hk : t.kind = .identifier) : Derives nearest .primary [t] (.reference n t)
  | lambda {t ts f} (hk : t.kind = .kwFun) (hf : Derives nearest .function ts f) :
      Derives nearest .primary (t :: ts) (.lambda f)
  | group {lp ts e rp n} (hl : lp.kind = .leftParen) (he : Derives nearest .expression ts e)
      (hr : rp.kind = .rightParen) :
      Derives nearest .primary (lp :: (ts ++ [rp])) (.group n e)

/-- The tokens of a program, the one that ends it left out. -/
abbrev Program (nearest : Bool) (tokens : List Token) (program : List Stmt) : Prop :=
  Derives nearest .declarations tokens program

end Lox.Grammar
