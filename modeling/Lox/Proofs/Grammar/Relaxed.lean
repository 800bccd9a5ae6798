import Lox.Parse
import Mathlib.Computability.MyhillNerode
import Mathlib.Order.CompletePartialOrder

/-! The grammar of programs by its rules, as languages of tokens. It is relaxed: anything may stand
to the left of an assignment, and there may be any number of parameters and of arguments. -/
namespace Lox.Relaxed

open Parse (Level)

inductive Phrase where
  | program | declaration | binding | statement | counting | branch | print | giveBack | loop
  | breakLoop | block | function | parameters | expression | chain (level : Level) | unary | call
  | arguments | primary | lambda
  deriving DecidableEq

/-- What a phrase can be made of. -/
inductive Rule where
  | token (kind : TokenKind)
  | phrase (p : Phrase)
  | nothing
  | both (first next : Rule)
  | either (one other : Rule)
  | many (item : Rule)

namespace Rule

/-- One after the other. -/
instance : Mul Rule := ⟨both⟩

/-- One or the other. -/
instance : Add Rule := ⟨either⟩

def maybe (item : Rule) : Rule := item + nothing

end Rule

open Rule

def operators : Level → Rule
  | .or => token .kwOr
  | .and => token .kwAnd
  | .equality => token .bangEqual + token .equalEqual
  | .comparison => token .greater + token .greaterEqual + token .less + token .lessEqual
  | .term => token .minus + token .plus
  | .factor => token .slash + token .star

def operand : Level → Phrase
  | .or => .chain .and
  | .and => .chain .equality
  | .equality => .chain .comparison
  | .comparison => .chain .term
  | .term => .chain .factor
  | .factor => .unary

/-- The rules of the grammar. -/
def rule : Phrase → Rule
  | .program => many (phrase .declaration) * token .eof
  | .declaration =>
    token .kwFun * token .identifier * phrase .function + token .kwVar * phrase .binding +
      phrase .statement
  | .binding => token .identifier * maybe (token .equal * phrase .expression) * token .semicolon
  | .statement =>
    phrase .counting + phrase .branch + phrase .print + phrase .giveBack + phrase .loop +
      phrase .breakLoop + phrase .block + phrase .expression * token .semicolon
  | .counting =>
    token .kwFor * token .leftParen *
      (token .semicolon + token .kwVar * phrase .binding +
        phrase .expression * token .semicolon) *
      maybe (phrase .expression) * token .semicolon * maybe (phrase .expression) *
      token .rightParen * phrase .statement
  | .branch =>
    token .kwIf * token .leftParen * phrase .expression * token .rightParen * phrase .statement *
      maybe (token .kwElse * phrase .statement)
  | .print => token .kwPrint * phrase .expression * token .semicolon
  | .giveBack => token .kwReturn * maybe (phrase .expression) * token .semicolon
  | .loop =>
    token .kwWhile * token .leftParen * phrase .expression * token .rightParen * phrase .statement
  | .breakLoop => token .kwBreak * token .semicolon
  | .block => token .leftBrace * many (phrase .declaration) * token .rightBrace
  | .function =>
    token .leftParen * maybe (phrase .parameters) * token .rightParen * phrase .block
  | .parameters => token .identifier * many (token .comma * token .identifier)
  | .expression => phrase (.chain .or) * maybe (token .equal * phrase .expression)
  | .chain level => phrase (operand level) * many (operators level * phrase (operand level))
  | .unary => token .bang * phrase .unary + token .minus * phrase .unary + phrase .call
  | .call =>
    phrase .primary *
      many (token .leftParen * maybe (phrase .arguments) * token .rightParen)
  | .arguments => phrase .expression * many (token .comma * phrase .expression)
  | .primary =>
    token .kwTrue + token .kwFalse + token .kwNil + token .number + token .string +
      token .identifier + token .leftParen * phrase .expression * token .rightParen + phrase .lambda
  | .lambda => token .kwFun * phrase .function

/-- The tokens that are made by a rule. -/
inductive Makes : Rule → List Token → Prop
  | token {t kind} (hk : t.kind = kind) : Makes (token kind) [t]
  | phrase {p ts} (h : Makes (rule p) ts) : Makes (phrase p) ts
  | nothing : Makes nothing []
  | both {a b ts us} (ha : Makes a ts) (hb : Makes b us) : Makes (both a b) (ts ++ us)
  | one {a b ts} (h : Makes a ts) : Makes (either a b) ts
  | other {a b ts} (h : Makes b ts) : Makes (either a b) ts
  | none {a} : Makes (many a) []
  | more {a ts us} (ha : Makes a ts) (hb : Makes (many a) us) : Makes (many a) (ts ++ us)

def Rule.words (a : Rule) : Language Token := {ts : List Token | Makes a ts}

/-- The programs of the relaxed grammar, each with the token that ends it. -/
def programs : Language Token := (phrase .program).words

section Words

variable {a b : Rule} {kind : TokenKind} {p : Phrase} {ts : List Token}

theorem mem_words_token : ts ∈ (token kind).words ↔ ∃ t : Token, t.kind = kind ∧ ts = [t] := by
  constructor
  · rintro ⟨hk⟩
    exact ⟨_, hk, rfl⟩
  · rintro ⟨t, hk, rfl⟩
    exact .token hk

theorem words_phrase : (phrase p).words = (rule p).words :=
  Language.ext fun _ => ⟨fun h => by cases h; assumption, .phrase⟩

theorem words_nothing : nothing.words = 1 := by
  refine Language.ext fun ts => ⟨fun h => by cases h; exact Language.nil_mem_one, fun h => ?_⟩
  rw [Language.mem_one] at h
  subst h
  exact .nothing

theorem words_mul : (a * b).words = a.words * b.words := by
  refine Language.ext fun ts => ?_
  rw [Language.mem_mul]
  constructor
  · rintro ⟨⟩
    exact ⟨_, ‹_›, _, ‹_›, rfl⟩
  · rintro ⟨ts, ha, us, hb, rfl⟩
    exact .both ha hb

theorem words_add : (a + b).words = a.words + b.words := by
  refine Language.ext fun ts => ?_
  rw [Language.mem_add]
  constructor
  · intro h
    cases h with
    | one h => exact .inl h
    | other h => exact .inr h
  · rintro (h | h)
    · exact .one h
    · exact .other h

theorem words_maybe : (maybe a).words = a.words + 1 := by
  rw [maybe, words_add, words_nothing]

theorem words_many : (many a).words = 1 + a.words * (many a).words := by
  refine Language.ext fun ts => ?_
  rw [Language.mem_add, Language.mem_one, Language.mem_mul]
  constructor
  · intro h
    cases h with
    | none => exact .inl rfl
    | more ha hb => exact .inr ⟨_, ha, _, hb, rfl⟩
  · rintro (rfl | ⟨ts, ha, us, hb, rfl⟩)
    · exact .none
    · exact .more ha hb

end Words

section First

/-- What an expression can begin with, operators aside. -/
def atoms : List TokenKind :=
  [.kwTrue, .kwFalse, .kwNil, .number, .string, .identifier, .leftParen, .kwFun]

/-- What a statement can begin with. -/
def openings : List TokenKind :=
  [.kwFor, .kwIf, .kwPrint, .kwReturn, .kwWhile, .kwBreak, .leftBrace, .bang, .minus] ++ atoms

/-- The kinds of token that a phrase can begin with. -/
def Phrase.first : Phrase → List TokenKind
  | program => .eof :: .kwVar :: openings
  | declaration => .kwVar :: openings
  | binding | parameters => [.identifier]
  | statement => openings
  | counting => [.kwFor]
  | branch => [.kwIf]
  | print => [.kwPrint]
  | giveBack => [.kwReturn]
  | loop => [.kwWhile]
  | breakLoop => [.kwBreak]
  | block => [.leftBrace]
  | function => [.leftParen]
  | expression | chain _ | unary | arguments => .bang :: .minus :: atoms
  | call | primary => atoms
  | lambda => [.kwFun]

/-- Whether a rule can make no tokens at all. No phrase can. -/
def Rule.nullable : Rule → Bool
  | token _ | phrase _ => false
  | nothing | many _ => true
  | both a b => a.nullable && b.nullable
  | either a b => a.nullable || b.nullable

/-- The kinds of token that a rule can begin with. -/
def Rule.first : Rule → List TokenKind
  | token kind => [kind]
  | phrase p => p.first
  | nothing => []
  | both a b => if a.nullable then a.first ++ b.first else a.first
  | either a b => a.first ++ b.first
  | many a => a.first

/-- Whether a rule makes single tokens only, by their kinds. -/
def Rule.single : Rule → Bool
  | token _ => true
  | either a b => a.single && b.single
  | phrase _ | nothing | both _ _ | many _ => false

theorem nullable_rule (p : Phrase) : (rule p).nullable = false := by
  cases p <;> rfl

theorem first_rule (p : Phrase) : (rule p).first ⊆ p.first := by
  cases p with
  | chain level => cases level <;> decide
  | _ => decide

variable {a : Rule} {ts : List Token}

theorem Makes.nullable (h : Makes a ts) (hts : ts = []) : a.nullable = true := by
  induction h with
  | token | phrase _ ih => simp_all [nullable_rule]
  | both _ _ iha ihb =>
    obtain ⟨ha, hb⟩ := List.append_eq_nil_iff.mp hts
    simp [Rule.nullable, iha ha, ihb hb]
  | one _ ih | other _ ih => simp [Rule.nullable, ih hts]
  | nothing | none | more => rfl

theorem Makes.first (h : Makes a ts) : ∀ t ∈ ts.head?, t.kind ∈ a.first := by
  induction h with
  | token hk => simp [Rule.first, hk]
  | phrase _ ih => exact fun t ht => first_rule _ (ih t ht)
  | nothing | none => simp
  | @both a b ts us ha _ iha ihb =>
    intro t ht
    cases ts with
    | nil => simp [Rule.first, ha.nullable rfl, ihb t ht]
    | cons u ts =>
      have := iha t ht
      simp only [Rule.first]
      split <;> simp [this]
  | one _ ih => exact fun t ht => List.mem_append_left _ (ih t ht)
  | other _ ih => exact fun t ht => List.mem_append_right _ (ih t ht)
  | @more a ts us _ _ iha ihb =>
    intro t ht
    cases ts with
    | nil => exact ihb t ht
    | cons => exact iha t ht

end First

section Plain

/-- Whether `fun` begins nothing but lambdas in what a rule makes. -/
def Rule.plain : Rule → Bool
  | token kind => kind ≠ .kwFun
  | phrase p => p ≠ .program && p ≠ .declaration
  | nothing => true
  | both a b | either a b => a.plain && b.plain
  | many a => a.plain

/-- A phrase that may begin with `fun` has no way but a function to begin so. -/
theorem plain_rule {p : Phrase} (hp : (phrase p).plain = true) (hf : .kwFun ∈ p.first)
    (hl : p ≠ .lambda) : (rule p).plain = true := by
  cases p with
  | chain level => cases level <;> decide
  | program | declaration | lambda => simp_all [Rule.plain]
  | statement | expression | unary | call | arguments | primary => decide
  | _ => simp [Phrase.first] at hf

/-- If tokens begin with `fun`, then a parenthesis is next. -/
def OpensLambda (ts : List Token) : Prop :=
  ∀ t us, ts = t :: us → t.kind = .kwFun → ∃ lp vs, us = lp :: vs ∧ lp.kind = .leftParen

theorem OpensLambda.append {ts us : List Token} (ht : OpensLambda ts) (hu : OpensLambda us) :
    OpensLambda (ts ++ us) := by
  intro t vs he hk
  cases ts with
  | nil => exact hu t vs he hk
  | cons t' ts =>
    obtain ⟨rfl, rfl⟩ := List.cons.inj he
    obtain ⟨lp, ws, rfl, hl⟩ := ht t' ts rfl hk
    exact ⟨lp, ws ++ us, rfl, hl⟩

theorem Makes.opensLambda {a : Rule} {ts : List Token} (h : Makes a ts) (ha : a.plain = true) :
    OpensLambda ts := by
  induction h with
  | token hk =>
    rintro t us ⟨⟩ hf
    simp [Rule.plain, ← hk, hf] at ha
  | @phrase p ts h ih =>
    by_cases hl : p = .lambda
    · subst hl
      cases h with
      | @both _ _ _ vs hfun hfunction =>
        cases hfun
        rintro t us he -
        obtain ⟨-, rfl⟩ := List.cons.inj he
        cases vs with
        | nil => exact absurd (hfunction.nullable rfl) (by simp [Rule.nullable])
        | cons lp vs =>
          exact ⟨lp, vs, rfl, by simpa [Rule.first, Phrase.first] using hfunction.first⟩
    · by_cases hf : .kwFun ∈ p.first
      · exact ih (plain_rule ha hf hl)
      · rintro t us rfl hk
        exact absurd (hk ▸ (Makes.phrase h).first t rfl) hf
  | both _ _ iha ihb =>
    rw [Rule.plain, Bool.and_eq_true] at ha
    exact (iha ha.1).append (ihb ha.2)
  | one _ ih =>
    rw [Rule.plain, Bool.and_eq_true] at ha
    exact ih ha.1
  | other _ ih =>
    rw [Rule.plain, Bool.and_eq_true] at ha
    exact ih ha.2
  | nothing | none => rintro t us ⟨⟩
  | more _ _ iha ihb => exact (iha ha).append (ihb ha)

end Plain

section Inhabited

/-- Some tokens are made by a rule. -/
def Rule.Inhabited (a : Rule) : Prop := ∃ ts, Makes a ts

variable {a b : Rule}

@[simp] theorem inhabited_token (kind : TokenKind) : (token kind).Inhabited :=
  ⟨[⟨kind, "", .nil, 0⟩], .token rfl⟩

@[simp] theorem inhabited_nothing : nothing.Inhabited := ⟨[], .nothing⟩

@[simp] theorem inhabited_many (a : Rule) : (many a).Inhabited := ⟨[], .none⟩

@[simp] theorem inhabited_maybe (a : Rule) : (maybe a).Inhabited := ⟨[], .other .nothing⟩

@[simp] theorem inhabited_mul : (a * b).Inhabited ↔ a.Inhabited ∧ b.Inhabited := by
  constructor
  · rintro ⟨_, ⟨⟩⟩
    exact ⟨⟨_, ‹_›⟩, ⟨_, ‹_›⟩⟩
  · rintro ⟨⟨ts, ha⟩, us, hb⟩
    exact ⟨ts ++ us, .both ha hb⟩

@[simp] theorem inhabited_add : (a + b).Inhabited ↔ a.Inhabited ∨ b.Inhabited := by
  constructor
  · rintro ⟨ts, h⟩
    cases h with
    | one h => exact .inl ⟨ts, h⟩
    | other h => exact .inr ⟨ts, h⟩
  · rintro (⟨ts, h⟩ | ⟨ts, h⟩)
    · exact ⟨ts, .one h⟩
    · exact ⟨ts, .other h⟩

theorem inhabited_of_rule {p : Phrase} (h : (rule p).Inhabited) : (phrase p).Inhabited :=
  h.imp fun _ => .phrase

/-- An atom is an expression, as it is an operand of every level. -/
theorem makes_chain {ts : List Token} (h : Makes (phrase .primary) ts) (level : Level) :
    Makes (phrase (.chain level)) ts := by
  have chain (level : Level) (h : Makes (phrase (operand level)) ts) :
      Makes (phrase (.chain level)) ts := by
    simpa using Makes.phrase (p := .chain level) (.both h .none)
  have call : Makes (phrase .call) ts := by
    simpa using Makes.phrase (p := .call) (.both h .none)
  have unary : Makes (phrase .unary) ts := .phrase (.other call)
  have factor := chain .factor unary
  have term := chain .term factor
  have comparison := chain .comparison term
  have equality := chain .equality comparison
  have and := chain .and equality
  have or := chain .or and
  cases level <;> assumption

theorem makes_expression {ts : List Token} (h : Makes (phrase .primary) ts) :
    Makes (phrase .expression) ts := by
  simpa using Makes.phrase (p := .expression) (.both (makes_chain h .or) (.other .nothing))

/-- Every phrase of the grammar can be completed. -/
theorem inhabited_phrase (p : Phrase) : (phrase p).Inhabited := by
  have primary : (phrase .primary).Inhabited := inhabited_of_rule (by simp [rule])
  have expression : (phrase .expression).Inhabited := primary.imp fun _ => makes_expression
  have chain (level : Level) : (phrase (.chain level)).Inhabited :=
    primary.imp fun _ h => makes_chain h level
  have call : (phrase .call).Inhabited := inhabited_of_rule (by simp [rule, primary])
  have block : (phrase .block).Inhabited := inhabited_of_rule (by simp [rule])
  have binding : (phrase .binding).Inhabited := inhabited_of_rule (by simp [rule])
  have statement : (phrase .statement).Inhabited := inhabited_of_rule (by simp [rule, expression])
  have function : (phrase .function).Inhabited := inhabited_of_rule (by simp [rule, block])
  cases p with
  | chain level => exact chain level
  | _ => exact inhabited_of_rule (by simp [rule, *])

theorem Rule.inhabited (a : Rule) : a.Inhabited := by
  induction a with
  | token kind => exact inhabited_token kind
  | phrase p => exact inhabited_phrase p
  | nothing => exact inhabited_nothing
  | both _ _ iha ihb => exact inhabited_mul.mpr ⟨iha, ihb⟩
  | either _ _ iha _ => exact inhabited_add.mpr (.inl iha)
  | many => exact inhabited_many _

end Inhabited

/-- Whether the end of the tokens is no part of what a rule makes. -/
def Rule.inner : Rule → Bool
  | token kind => kind ≠ .eof
  | phrase p => p ≠ .program
  | nothing => true
  | both a b | either a b => a.inner && b.inner
  | many a => a.inner

theorem inner_rule {p : Phrase} (hp : p ≠ .program) : (rule p).inner = true := by
  cases p with
  | chain level => cases level <;> decide
  | program => exact absurd rfl hp
  | _ => decide

/-- The end of the input stands at the end only. -/
theorem Makes.inner {a : Rule} {ts : List Token} (h : Makes a ts) (ha : a.inner = true) :
    ∀ t ∈ ts, t.kind ≠ .eof := by
  induction h with
  | token hk => simpa [Rule.inner, hk] using ha
  | phrase _ ih => exact ih (inner_rule (by simpa [Rule.inner] using ha))
  | nothing | none => simp
  | both _ _ iha ihb =>
    rw [Rule.inner, Bool.and_eq_true] at ha
    exact List.forall_mem_append.mpr ⟨iha ha.1, ihb ha.2⟩
  | one _ ih =>
    rw [Rule.inner, Bool.and_eq_true] at ha
    exact ih ha.1
  | other _ ih =>
    rw [Rule.inner, Bool.and_eq_true] at ha
    exact ih ha.2
  | more _ _ iha ihb => exact List.forall_mem_append.mpr ⟨iha ha, ihb ha⟩

/-- The declarations of a program, without the token that ends it. -/
abbrev bodies : Language Token := (many (phrase .declaration)).words

/-- A program is what the rules make of declarations, and the end of the input. -/
theorem mem_programs {ts : List Token} :
    ts ∈ programs ↔ ∃ body ∈ bodies, ∃ last : Token, last.kind = .eof ∧ ts = body ++ [last] := by
  rw [programs, words_phrase, rule, words_mul, Language.mem_mul]
  constructor
  · rintro ⟨body, hbody, _, hlast, rfl⟩
    obtain ⟨last, hk, rfl⟩ := mem_words_token.mp hlast
    exact ⟨body, hbody, last, hk, rfl⟩
  · rintro ⟨body, hbody, last, hk, rfl⟩
    exact ⟨body, hbody, [last], .token hk, rfl⟩

theorem mem_programs_concat {ts : List Token} {last : Token} (hk : last.kind = .eof) :
    ts ++ [last] ∈ programs ↔ ts ∈ bodies := by
  rw [mem_programs]
  constructor
  · rintro ⟨body, hbody, last', -, he⟩
    obtain ⟨rfl, -⟩ := List.append_inj' he rfl
    exact hbody
  · exact fun h => ⟨ts, h, last, hk, rfl⟩

/-- Behind a token that ends no program, a body must go on. -/
theorem exists_body {ts more : List Token} {t : Token} (ht : t.kind ≠ .eof)
    (h : ts ++ t :: more ∈ programs) : ∃ us, ts ++ t :: us ∈ bodies := by
  obtain ⟨body, hbody, last, hk, he⟩ := mem_programs.mp h
  rcases List.eq_nil_or_concat more with rfl | ⟨us, last', rfl⟩
  · obtain ⟨-, hlast⟩ := List.append_inj' he rfl
    exact absurd hk (by simpa [← (List.cons.inj hlast).1] using ht)
  · rw [List.concat_eq_append, ← List.cons_append, ← List.append_assoc] at he
    obtain ⟨rfl, -⟩ := List.append_inj' he rfl
    exact ⟨us, hbody⟩

/-- Behind the token that ends a program, there is nothing. -/
theorem mem_bodies_of_end {ts more : List Token} {t : Token} (ht : t.kind = .eof)
    (h : ts ++ t :: more ∈ programs) : ts ∈ bodies := by
  obtain ⟨body, hbody, last, hk, he⟩ := mem_programs.mp h
  rcases List.eq_nil_or_concat more with rfl | ⟨us, last', rfl⟩
  · obtain ⟨rfl, -⟩ := List.append_inj' he rfl
    exact hbody
  · rw [List.concat_eq_append, ← List.cons_append, ← List.append_assoc] at he
    obtain ⟨rfl, -⟩ := List.append_inj' he rfl
    exact absurd ht (Makes.inner hbody rfl t (by simp))

end Lox.Relaxed
