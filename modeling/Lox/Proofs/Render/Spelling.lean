import Lox.Proofs.Number.Bits
import Lox.Proofs.Parse.Programs
import Lox.Proofs.Scan.Layout

/-! The tokens and values that trees keep are spelled as the lexical grammar has it. -/
namespace Lox

def UnaryOp.kind : UnaryOp → TokenKind
  | negate => .minus
  | not => .bang

def BinaryOp.kind : BinaryOp → TokenKind
  | add => .plus
  | subtract => .minus
  | multiply => .star
  | divide => .slash
  | equal => .equalEqual
  | notEqual => .bangEqual
  | greater => .greater
  | greaterEqual => .greaterEqual
  | less => .less
  | lessEqual => .lessEqual

def LogicalOp.kind : LogicalOp → TokenKind
  | and => .kwAnd
  | or => .kwOr

/-- A token of the given kind that a text can hold. -/
def Token.Spells (t : Token) (kind : TokenKind) : Prop :=
  t.kind = kind ∧ Lexical.Lexeme t.lexeme.toList kind t.literal

/-- A value that a text can hold: a number without a sign, a string without a quote. -/
def Literal.Spelled : Literal → Prop
  | .nil | .bool _ => True
  | .number x => ∃ m q, Number.exact x = .finite false m q
  | .string s => '"' ∉ s.toList

mutual

/-- The names, operators and values of the expression are such as a text can hold. -/
def Expr.Spelled : Expr → Prop
  | .literal _ value => value.Spelled
  | .group _ inner => inner.Spelled
  | .unary _ op token operand => token.Spells op.kind ∧ operand.Spelled
  | .binary _ left op token right => token.Spells op.kind ∧ left.Spelled ∧ right.Spelled
  | .logical _ left op token right => token.Spells op.kind ∧ left.Spelled ∧ right.Spelled
  | .reference _ name => name.Spells .identifier
  | .assign _ name value => name.Spells .identifier ∧ value.Spelled
  | .call _ callee _ arguments => callee.Spelled ∧ Expr.SpelledAll arguments
  | .lambda fn => fn.Spelled

def Expr.SpelledAll : List Expr → Prop
  | [] => True
  | e :: es => e.Spelled ∧ Expr.SpelledAll es

def Expr.Spelled? : Option Expr → Prop
  | none => True
  | some e => e.Spelled

def Lambda.Spelled : Lambda → Prop
  | .mk _ params body => (∀ t ∈ params, t.Spells .identifier) ∧ Stmt.SpelledAll body

def Stmt.Spelled : Stmt → Prop
  | .expression value | .print value => value.Spelled
  | .var name initial => name.Spells .identifier ∧ Expr.Spelled? initial
  | .block body => Stmt.SpelledAll body
  | .branch _ condition yes no => condition.Spelled ∧ yes.Spelled ∧ Stmt.Spelled? no
  | .loop _ condition body => condition.Spelled ∧ body.Spelled
  | .breakLoop _ => True
  | .function name fn => name.Spells .identifier ∧ fn.Spelled
  | .giveBack _ value => Expr.Spelled? value

def Stmt.SpelledAll : List Stmt → Prop
  | [] => True
  | s :: ss => s.Spelled ∧ Stmt.SpelledAll ss

def Stmt.Spelled? : Option Stmt → Prop
  | none => True
  | some s => s.Spelled

end

theorem Stmt.SpelledAll.of_mem {s : Stmt} {ss : List Stmt} (h : Stmt.SpelledAll ss) (hs : s ∈ ss) :
    s.Spelled := by
  induction ss with
  | nil => cases hs
  | cons t ss ih =>
    rcases List.mem_cons.mp hs with rfl | hs
    · exact h.1
    · exact ih h.2 hs

namespace Lexical

variable {text text' : List Char} {kind : TokenKind} {literal literal' : Literal}

/-- A kind that is not of names, numbers or strings has one lexeme. -/
theorem Lexeme.unique (h : Lexeme text kind literal) (h' : Lexeme text' kind literal')
    (hkind : kind ≠ .identifier ∧ kind ≠ .string ∧ kind ≠ .number) :
    text = text' ∧ literal = literal' := by
  have hsymbols : ∀ e ∈ symbols, ∀ e' ∈ symbols, e.2 = e'.2 → e.1 = e'.1 := by decide
  have hreserved : ∀ e ∈ reserved, ∀ e' ∈ reserved, e.2 = e'.2 → e.1 = e'.1 := by decide
  have happart : ∀ e ∈ symbols, ∀ e' ∈ reserved, e.2 ≠ e'.2 := by decide
  cases h with
  | symbol h =>
    cases h' with
    | symbol h' => exact ⟨hsymbols _ h _ h' rfl, rfl⟩
    | keyword _ h' => exact absurd rfl (happart _ h _ h')
    | _ => simp at hkind
  | keyword _ h =>
    cases h' with
    | symbol h' => exact absurd rfl (happart _ h' _ h)
    | keyword _ h' => exact ⟨String.ofList_injective (hreserved _ h _ h' rfl), rfl⟩
    | _ => simp at hkind
  | _ => simp at hkind

theorem Lexeme.spelled_number (h : Lexeme text .number literal)
    (hfinite : ∀ x, literal = .number x → Number.exact x ≠ .infinite false) :
    literal.Spelled := by
  cases h with
  | symbol h => exact absurd rfl ((by decide : ∀ e ∈ symbols, e.2 ≠ .number) _ h)
  | keyword _ h => exact absurd rfl ((by decide : ∀ e ∈ reserved, e.2 ≠ .number) _ h)
  | whole | fraction => exact Number.exact_decimal _ _ (hfinite _ rfl)

theorem Lexeme.spelled_string (h : Lexeme text .string literal) : literal.Spelled := by
  cases h with
  | symbol h => exact absurd rfl ((by decide : ∀ e ∈ symbols, e.2 ≠ .string) _ h)
  | keyword _ h => exact absurd rfl ((by decide : ∀ e ∈ reserved, e.2 ≠ .string) _ h)
  | string h => simpa [Literal.Spelled] using h

/-- A name is a word that is not reserved, and has no value. -/
theorem Lexeme.isWord (h : Lexeme text .identifier literal) :
    literal = .nil ∧ IsWord text ∧ ∀ kind, (String.ofList text, kind) ∉ reserved := by
  cases h with
  | symbol h => exact absurd rfl ((by decide : ∀ e ∈ symbols, e.2 ≠ .identifier) _ h)
  | keyword _ h => exact absurd rfl ((by decide : ∀ e ∈ reserved, e.2 ≠ .identifier) _ h)
  | identifier hw h => exact ⟨rfl, hw, h⟩

end Lexical

namespace Grammar

/-- A token as scanning gives it, unless it stands for a number past the greatest. -/
def Scanned (t : Token) : Prop :=
  Lexical.Lexeme t.lexeme.toList t.kind t.literal ∧
    ∀ x, t.literal = .number x → Number.exact x ≠ .infinite false

def Phrase.Spelled : (p : Phrase) → p.Tree → Prop
  | .declarations, ss | .block, ss => Stmt.SpelledAll ss
  | .declaration, s | .binding, s | .statement _, s => s.Spelled
  | .start, s => Stmt.Spelled? s
  | .function, fn => fn.Spelled
  | .parameters, ps | .names, ps => ∀ t ∈ ps, t.Spells .identifier
  | .optional, e => Expr.Spelled? e
  | .expression, e | .chain _, e | .operand _, e | .unary, e | .call, e | .primary, e => e.Spelled
  | .arguments, es | .values, es => Expr.SpelledAll es

variable {nearest : Bool} {p : Phrase} {ts : List Token} {token : Token}

/-- A token that was scanned is spelled as its kind says. -/
theorem Scanned.spells {kind : TokenKind} (h : Scanned token) (hk : token.kind = kind) :
    token.Spells kind := ⟨hk, hk ▸ h.1⟩

theorem kind_of_logical {level : Parse.Level} {op : LogicalOp}
    (h : (token.kind, op) ∈ logicalOperators level) : token.kind = op.kind := by
  have hall : ∀ e ∈ logicalOperators level, e.1 = e.2.kind := by
    cases level <;> simp [logicalOperators, LogicalOp.kind]
  exact hall _ h

theorem kind_of_binary {level : Parse.Level} {op : BinaryOp}
    (h : (token.kind, op) ∈ binaryOperators level) : token.kind = op.kind := by
  have hall : ∀ e ∈ binaryOperators level, e.1 = e.2.kind := by
    cases level <;> simp [binaryOperators, BinaryOp.kind]
  exact hall _ h

/-- The tree of a `for` is spelled if its parts are. -/
theorem spelled_counting {keyword : Token} {i : Option Stmt} {c : Expr} {step : Option Expr}
    {s : Stmt} (hi : Stmt.Spelled? i) (hc : c.Spelled) (ht : Expr.Spelled? step) (hs : s.Spelled) :
    (Stmt.counting keyword i c step s).Spelled := by
  cases i <;> cases step <;>
    simp_all [Stmt.counting, Stmt.Spelled, Stmt.SpelledAll, Stmt.Spelled?, Expr.Spelled?]

/-- The tree of a phrase of scanned tokens is spelled. -/
theorem spelled_of_derives {t : p.Tree} (h : Derives nearest p ts t)
    (hts : ∀ token ∈ ts, Scanned token) : p.Spelled t := by
  induction h with try simp only [List.forall_mem_append, List.forall_mem_cons] at hts
  | nothing => trivial
  | next _ _ hs hss => exact ⟨hs hts.1, hss hts.2⟩
  | named _ hn _ hf => exact ⟨hts.2.1.spells hn, hf hts.2.2⟩
  | declared _ _ hs => exact hs hts.2
  | plain _ hs => exact hs hts
  | unset hn _ => exact ⟨hts.1.spells hn, trivial⟩
  | set hn _ _ _ he => exact ⟨hts.1.spells hn, he hts.2.2.1⟩
  | evaluate _ _ he => exact he hts.1
  | print _ _ _ he | giveBack _ _ _ he => exact he hts.2.1
  | breakLoop _ _ => trivial
  | block _ _ hb => exact hb hts.2
  | loop _ _ _ _ _ hc hs => exact ⟨hc hts.2.2.1, hs hts.2.2.2.2⟩
  | @counting _ _ _ _ _ c _ _ _ _ _ _ _ n _ _ _ _ _ _ _ _ hi hc ht hs =>
    have hcondition : (c.getD (.literal n (.bool true))).Spelled := by
      cases c with
      | none => trivial
      | some c => exact hc hts.2.2.2.1
    rw [desugared_eq]
    exact spelled_counting (hi hts.2.2.1) hcondition (ht hts.2.2.2.2.2.1) (hs hts.2.2.2.2.2.2.2)
  | branch _ _ _ _ _ hc hs => exact ⟨hc hts.2.2.1, hs hts.2.2.2.2, trivial⟩
  | branchElse _ _ _ _ _ _ _ _ hc hs hs' =>
    exact ⟨hc hts.2.2.1, hs hts.2.2.2.2.1, hs' hts.2.2.2.2.2.2⟩
  | startNothing _ => trivial
  | startVariable _ _ hs => exact hs hts.2
  | startExpression _ _ he => exact he hts.1
  | braced _ _ hs => exact hs hts.1
  | function _ _ _ _ _ hp hb => exact ⟨hp hts.2.1, hb hts.2.2.2.2⟩
  | noParameters => exact nofun
  | someParameters _ _ hp => exact hp hts
  | oneName hn => exact List.forall_mem_cons.mpr ⟨hts.1.spells hn, nofun⟩
  | moreNames hn _ _ hp => exact List.forall_mem_cons.mpr ⟨hts.1.spells hn, hp hts.2.2⟩
  | absent => trivial
  | present _ he => exact he hts
  | assign hn _ _ he => exact ⟨hts.1.spells hn, he hts.2.2⟩
  | loosest _ he | single _ he | tighter _ _ he | tightest _ he | called _ he | uncalled _ he =>
    exact he hts
  | logical _ ho _ hl hr => exact ⟨hts.2.1.spells (kind_of_logical ho), hl hts.1, hr hts.2.2⟩
  | binary _ ho _ hl hr => exact ⟨hts.2.1.spells (kind_of_binary ho), hl hts.1, hr hts.2.2⟩
  | not hk _ he | negate hk _ he => exact ⟨hts.1.spells hk, he hts.2⟩
  | call _ _ _ _ he ha => exact ⟨he hts.1, ha hts.2.2.1⟩
  | noArguments => trivial
  | someArguments _ _ ha => exact ha hts
  | oneValue _ he => exact ⟨he hts, trivial⟩
  | moreValues _ _ _ he ha => exact ⟨he hts.1, ha hts.2.2⟩
  | no | yes | nil => trivial
  | number hk => exact (hk ▸ hts.1.1).spelled_number hts.1.2
  | string hk => exact (hk ▸ hts.1.1).spelled_string
  | name hk => exact hts.1.spells hk
  | lambda _ _ hf => exact hf hts.2
  | group _ _ _ he => exact he hts.2.1

end Grammar

/-- The program of a text is spelled, if it has no number past the greatest. -/
theorem spelled_of_parse {source : String} {id : NodeId}
    (h : (parse (scan source).tokens (scan source).finish id).errors = [])
    (hfinite : ∀ t ∈ (scan source).tokens, ∀ x, t.literal = .number x →
      Number.exact x ≠ .infinite false) :
    Stmt.SpelledAll (parse (scan source).tokens (scan source).finish id).program := by
  have hlexemes := (Lexical.cuts_pieces [] source.toList).lexemes
  exact Grammar.spelled_of_derives (program_of_parse h)
    fun t ht => ⟨hlexemes t ht, hfinite t ht⟩

end Lox
