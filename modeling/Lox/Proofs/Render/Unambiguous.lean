import Lox.Proofs.Render.Trees
import Lox.Proofs.Scan.Fuel

/-! Rendering forgets identities, lines, keywords and closing parentheses, and nothing else. -/
namespace Lox

open Render (Outline)

/-- The same token, perhaps on another line. -/
def Token.Similar (t u : Token) : Prop :=
  t.kind = u.kind ∧ t.lexeme = u.lexeme ∧ t.literal = u.literal

/-- The same value, or numbers with the same text. -/
def Literal.Similar : Literal → Literal → Prop
  | .number x, .number y => Number.numeral x = Number.numeral y
  | v, w => v = w

mutual

/-- Equal expressions up to identities, lines, closing parentheses and numbers with the same text.
Operator tokens count. -/
inductive Expr.Similar : Expr → Expr → Prop
  | literal {i j v w} (h : v.Similar w) : Expr.Similar (.literal i v) (.literal j w)
  | group {i j e f} (h : Expr.Similar e f) : Expr.Similar (.group i e) (.group j f)
  | unary {i j op t u e f} (ht : t.Similar u) (h : Expr.Similar e f) :
      Expr.Similar (.unary i op t e) (.unary j op u f)
  | binary {i j op t u e f l r} (he : Expr.Similar e l) (ht : t.Similar u)
      (hf : Expr.Similar f r) : Expr.Similar (.binary i e op t f) (.binary j l op u r)
  | logical {i j op t u e f l r} (he : Expr.Similar e l) (ht : t.Similar u)
      (hf : Expr.Similar f r) : Expr.Similar (.logical i e op t f) (.logical j l op u r)
  | reference {i j t u} (ht : t.Similar u) : Expr.Similar (.reference i t) (.reference j u)
  | assign {i j t u e f} (ht : t.Similar u) (h : Expr.Similar e f) :
      Expr.Similar (.assign i t e) (.assign j u f)
  | call {i j e f t u es fs} (h : Expr.Similar e f) (hs : List.Forall₂ Expr.Similar es fs) :
      Expr.Similar (.call i e t es) (.call j f u fs)
  | lambda {f g} (h : Lambda.Similar f g) : Expr.Similar (.lambda f) (.lambda g)

/-- Equal functions, as far as their parameters and bodies are. -/
inductive Lambda.Similar : Lambda → Lambda → Prop
  | mk {i j ps qs ss ts} (hp : List.Forall₂ Token.Similar ps qs)
      (hs : List.Forall₂ Stmt.Similar ss ts) : Lambda.Similar (.mk i ps ss) (.mk j qs ts)

/-- Equal statements up to keywords and what expressions may differ in. -/
inductive Stmt.Similar : Stmt → Stmt → Prop
  | expression {e f} (h : Expr.Similar e f) : Stmt.Similar (.expression e) (.expression f)
  | print {e f} (h : Expr.Similar e f) : Stmt.Similar (.print e) (.print f)
  | var {t u e f} (ht : t.Similar u) (h : Option.Rel Expr.Similar e f) :
      Stmt.Similar (.var t e) (.var u f)
  | block {ss ts} (h : List.Forall₂ Stmt.Similar ss ts) : Stmt.Similar (.block ss) (.block ts)
  | branch {t u c d s s' no no'} (hc : Expr.Similar c d) (hs : Stmt.Similar s s')
      (hn : Option.Rel Stmt.Similar no no') : Stmt.Similar (.branch t c s no) (.branch u d s' no')
  | loop {t u c d s s'} (hc : Expr.Similar c d) (hs : Stmt.Similar s s') :
      Stmt.Similar (.loop t c s) (.loop u d s')
  | breakLoop {t u} : Stmt.Similar (.breakLoop t) (.breakLoop u)
  | function {t u f g} (ht : t.Similar u) (h : Lambda.Similar f g) :
      Stmt.Similar (.function t f) (.function u g)
  | giveBack {t u e f} (h : Option.Rel Expr.Similar e f) :
      Stmt.Similar (.giveBack t e) (.giveBack u f)

end

/-! Words that are the same are of the same tokens and values. -/

theorem Token.Spells.similar_name {t u : Token} (ht : t.Spells .identifier)
    (hu : u.Spells .identifier) (h : t.lexeme = u.lexeme) : t.Similar u :=
  ⟨ht.1.trans hu.1.symm, h, ht.2.isWord.1.trans hu.2.isWord.1.symm⟩

/-- Tokens of one fixed kind are similar. -/
theorem Token.Spells.similar {t u : Token} {kind : TokenKind} (ht : t.Spells kind)
    (hu : u.Spells kind) (hkind : kind ≠ .identifier ∧ kind ≠ .string ∧ kind ≠ .number) :
    t.Similar u := by
  obtain ⟨hlexeme, hliteral⟩ := ht.2.unique hu.2 hkind
  exact ⟨ht.1.trans hu.1.symm, String.toList_injective hlexeme, hliteral⟩

theorem UnaryOp.symbol_injective {op op' : UnaryOp} (h : op.symbol = op'.symbol) : op = op' := by
  cases op <;> cases op' <;> simp [symbol] at h <;> rfl

theorem BinaryOp.symbol_injective {op op' : BinaryOp} (h : op.symbol = op'.symbol) : op = op' := by
  cases op <;> cases op' <;> simp [symbol] at h <;> rfl

theorem LogicalOp.symbol_injective {op op' : LogicalOp} (h : op.symbol = op'.symbol) :
    op = op' := by
  cases op <;> cases op' <;> simp [symbol] at h <;> rfl

theorem UnaryOp.symbol_ne (op : UnaryOp) :
    op.symbol ≠ "group" ∧ op.symbol ≠ "call" ∧ op.symbol ≠ "fun" := by
  cases op <;> simp [symbol]

theorem LogicalOp.symbol_ne (op : LogicalOp) :
    op.symbol ≠ "=" ∧ op.symbol ≠ "call" ∧ op.symbol ≠ "fun" := by
  cases op <;> simp [symbol]

/-- Operators are not mistaken for the words that forms begin with. -/
theorem BinaryOp.symbol_ne (op : BinaryOp) :
    op.symbol ≠ "=" ∧ op.symbol ≠ "call" ∧ op.symbol ≠ "fun" := by
  cases op <;> simp [symbol]

theorem BinaryOp.symbol_ne_logical (op : BinaryOp) (op' : LogicalOp) : op.symbol ≠ op'.symbol := by
  cases op <;> cases op' <;> simp [symbol, LogicalOp.symbol]

theorem UnaryOp.kind_ne (op : UnaryOp) :
    op.kind ≠ .identifier ∧ op.kind ≠ .string ∧ op.kind ≠ .number := by
  cases op <;> simp [kind]

theorem BinaryOp.kind_ne (op : BinaryOp) :
    op.kind ≠ .identifier ∧ op.kind ≠ .string ∧ op.kind ≠ .number := by
  cases op <;> simp [kind]

theorem LogicalOp.kind_ne (op : LogicalOp) :
    op.kind ≠ .identifier ∧ op.kind ≠ .string ∧ op.kind ≠ .number := by
  cases op <;> simp [kind]

section Literals

variable {v w : Literal} {t : Token} {c : Char} {cs : List Char}

/-- What the text of a value begins with. -/
def Literal.Begins : Literal → Char → Prop
  | .nil, c => c = 'n'
  | .bool true, c => c = 't'
  | .bool false, c => c = 'f'
  | .number _, c => Number.IsFigure c
  | .string _, c => c = '"'

/-- The first character tells what kind of value it is. -/
theorem Literal.Spelled.begins (h : v.Spelled) (hcs : Render.literal v = c :: cs) :
    v.Begins c := by
  cases v with
  | nil =>
    simp only [Render.literal, String.reduceToList, List.cons.injEq] at hcs
    exact hcs.1.symm
  | bool b =>
    cases b <;> simp [Render.literal] at hcs <;> exact hcs.1.symm
  | number x =>
    obtain ⟨m, q, hx⟩ := h
    have hmem : c ∈ Render.literal (.number x) := by simp [hcs]
    rw [Render.literal, hx, Number.numeral_finite] at hmem
    exact Number.isFigure_of_mem_millionths hmem
  | string s => exact (List.cons.inj hcs).1.symm

theorem Literal.similar (hv : v.Spelled) (hw : w.Spelled)
    (h : Render.literal v = Render.literal w) : v.Similar w := by
  obtain ⟨c, cs, hcs⟩ := List.exists_cons_of_ne_nil hv.closed.ne_nil
  have hheadv := hv.begins hcs
  have hheadw := hw.begins (h ▸ hcs)
  rcases v with _ | (_ | _) | x | s
  all_goals rcases w with _ | (_ | _) | y | s'
  -- The first characters tell apart what is not of one sort.
  all_goals try
    exfalso
    simp_all [Literal.Begins, Number.IsFigure]
    done
  · rfl
  · rfl
  · rfl
  · exact congrArg String.ofList h
  · have hs : s.toList = s'.toList := by simpa [Render.literal] using h
    exact congrArg Literal.string (String.toList_injective hs)

/-- No name is the text of a value. -/
theorem Token.Spells.ne_literal (ht : t.Spells .identifier) (hv : v.Spelled) :
    t.lexeme ≠ String.ofList (Render.literal v) := by
  intro h
  obtain ⟨-, ⟨c, cs, hcs, hc, -⟩, hword⟩ := ht.2.isWord
  have hliteral : Render.literal v = c :: cs := by rw [← hcs, h, String.toList_ofList]
  have hhead := hv.begins hliteral
  rw [String.ofList_toList, h] at hword
  rcases v with _ | (_ | _) | x | s
  · exact hword .kwNil (by decide)
  · exact hword .kwFalse (by decide)
  · exact hword .kwTrue (by decide)
  · rcases hhead with hdigit | rfl
    · simp [Lexical.isDigit_of_isLetter hc] at hdigit
    · simp [Lexical.IsLetter] at hc
  · subst hhead
    simp [Lexical.IsLetter] at hc

/-- Parameters are told apart by their names. -/
theorem names_similar {ps qs : List Token} (hp : ∀ t ∈ ps, t.Spells .identifier)
    (hq : ∀ t ∈ qs, t.Spells .identifier)
    (h : ps.map (fun t => Outline.word t.lexeme) = qs.map fun t => .word t.lexeme) :
    List.Forall₂ Token.Similar ps qs := by
  induction ps generalizing qs with
  | nil =>
    cases qs with
    | nil => exact .nil
    | cons => cases h
  | cons t ps ih =>
    cases qs with
    | nil => cases h
    | cons u qs =>
      rw [List.forall_mem_cons] at hp hq
      simp only [List.map_cons, List.cons.injEq, Outline.word.injEq] at h
      exact .cons (hp.1.similar_name hq.1 h.1) (ih hp.2 hq.2 h.2)

/-- Only functions have an outline that begins with the word of a function. -/
theorem Expr.eq_lambda_of_outline {e : Expr} {os : List Outline}
    (h : e.outline = .node (.word "fun" :: os)) : ∃ fn, e = .lambda fn := by
  cases e with simp only [Expr.outline, Outline.node.injEq, List.cons.injEq, Outline.word.injEq,
    reduceCtorEq] at h
  | unary _ op => exact absurd h.1 op.symbol_ne.2.2
  | binary _ _ op => exact absurd h.1 op.symbol_ne.2.2
  | logical _ _ op => exact absurd h.1 op.symbol_ne.2.2
  | lambda fn => exact ⟨fn, rfl⟩
  | _ => simp at h

end Literals

mutual

/-- Expressions with one outline are similar. -/
theorem Expr.similar : (e f : Expr) → e.Spelled → f.Spelled → e.outline = f.outline → e.Similar f
  | .literal _ v, f, he, hf, h => by
    cases f with simp only [Expr.outline, Outline.word.injEq, reduceCtorEq] at h
    | literal _ w => exact .literal (Literal.similar he hf (String.ofList_injective h))
    | reference _ u => exact absurd h.symm (hf.ne_literal he)
  | .group _ e, f, he, hf, h => by
    cases f with
    | group _ f => exact .group (e.similar f he hf (by simpa [Expr.outline] using h))
    | _ => grind [Expr.outline, UnaryOp.symbol_ne]
  | .unary _ op t e, f, he, hf, h => by
    cases f with
    | unary _ op' u f =>
      simp only [Expr.outline, Outline.node.injEq, List.cons.injEq, Outline.word.injEq,
        and_true] at h
      obtain rfl := UnaryOp.symbol_injective h.1
      exact .unary (he.1.similar hf.1 op.kind_ne) (e.similar f he.2 hf.2 h.2)
    | _ => grind [Expr.outline, UnaryOp.symbol_ne]
  | .binary _ l op t r, f, he, hf, h => by
    cases f with
    | binary _ l' op' u r' =>
      simp only [Expr.outline, Outline.node.injEq, List.cons.injEq, Outline.word.injEq,
        and_true] at h
      obtain rfl := BinaryOp.symbol_injective h.1
      exact .binary (l.similar l' he.2.1 hf.2.1 h.2.1) (he.1.similar hf.1 op.kind_ne)
        (r.similar r' he.2.2 hf.2.2 h.2.2)
    | lambda fn => obtain ⟨_, ⟨⟩⟩ := Expr.eq_lambda_of_outline h
    | _ => grind [Expr.outline, BinaryOp.symbol_ne, BinaryOp.symbol_ne_logical]
  | .logical _ l op t r, f, he, hf, h => by
    cases f with
    | logical _ l' op' u r' =>
      simp only [Expr.outline, Outline.node.injEq, List.cons.injEq, Outline.word.injEq,
        and_true] at h
      obtain rfl := LogicalOp.symbol_injective h.1
      exact .logical (l.similar l' he.2.1 hf.2.1 h.2.1) (he.1.similar hf.1 op.kind_ne)
        (r.similar r' he.2.2 hf.2.2 h.2.2)
    | lambda fn => obtain ⟨_, ⟨⟩⟩ := Expr.eq_lambda_of_outline h
    | _ => grind [Expr.outline, LogicalOp.symbol_ne, BinaryOp.symbol_ne_logical]
  | .reference _ t, f, he, hf, h => by
    cases f with
    | literal _ w => exact absurd (Outline.word.inj h) (he.ne_literal hf)
    | reference _ u => exact .reference (he.similar_name hf (Outline.word.inj h))
    | _ => grind [Expr.outline]
  | .assign _ t e, f, he, hf, h => by
    cases f with
    | assign _ u f =>
      simp only [Expr.outline, Outline.node.injEq, List.cons.injEq, Outline.word.injEq, and_true,
        true_and] at h
      exact .assign (he.1.similar_name hf.1 h.1) (e.similar f he.2 hf.2 h.2)
    | lambda fn => obtain ⟨_, ⟨⟩⟩ := Expr.eq_lambda_of_outline h
    | _ => grind [Expr.outline, BinaryOp.symbol_ne, LogicalOp.symbol_ne]
  | .call _ e t es, f, he, hf, h => by
    cases f with
    | call _ f u fs =>
      simp only [Expr.outline, Outline.node.injEq, List.cons.injEq, true_and] at h
      exact .call (e.similar f he.1 hf.1 h.1) (Expr.similarAll es fs he.2 hf.2 h.2)
    | lambda fn => obtain ⟨_, ⟨⟩⟩ := Expr.eq_lambda_of_outline h
    | _ => grind [Expr.outline, UnaryOp.symbol_ne, BinaryOp.symbol_ne, LogicalOp.symbol_ne]
  | .lambda fn, f, he, hf, h => by
    obtain ⟨fn', rfl⟩ := Expr.eq_lambda_of_outline h.symm
    simp only [Expr.outline, Outline.node.injEq, List.cons.injEq, true_and] at h
    exact .lambda (fn.similar fn' he hf h)

theorem Expr.similarAll : (es fs : List Expr) → Expr.SpelledAll es → Expr.SpelledAll fs →
    Expr.outlineAll es = Expr.outlineAll fs → List.Forall₂ Expr.Similar es fs
  | [], [], _, _, _ => .nil
  | e :: es, f :: fs, he, hf, h =>
    .cons (e.similar f he.1 hf.1 (List.cons.inj h).1)
      (Expr.similarAll es fs he.2 hf.2 (List.cons.inj h).2)

theorem Expr.similar? : (e f : Option Expr) → Expr.Spelled? e → Expr.Spelled? f →
    Expr.outline? e = Expr.outline? f → Option.Rel Expr.Similar e f
  | none, none, _, _, _ => .none
  | some e, some f, he, hf, h => .some (e.similar f he hf (List.cons.inj h).1)

theorem Lambda.similar : (f g : Lambda) → f.Spelled → g.Spelled → f.outlines = g.outlines →
    f.Similar g
  | .mk _ ps ss, .mk _ qs ts, hf, hg, h => by
    simp only [Lambda.outlines, List.cons.injEq, Outline.node.injEq] at h
    exact .mk (names_similar hf.1 hg.1 h.1) (Stmt.similarAll ss ts hf.2 hg.2 h.2)

/-- Statements with one outline are similar. -/
theorem Stmt.similar : (s t : Stmt) → s.Spelled → t.Spelled → s.outline = t.outline → s.Similar t
  | .expression e, t, hs, ht, h => by
    cases t with simp [Stmt.outline] at h
    | expression f => exact .expression (e.similar f hs ht h)
  | .print e, t, hs, ht, h => by
    cases t with simp [Stmt.outline] at h
    | print f => exact .print (e.similar f hs ht h)
  | .var n e, t, hs, ht, h => by
    cases t with simp [Stmt.outline] at h
    | var m f => exact .var (hs.1.similar_name ht.1 h.1) (Expr.similar? e f hs.2 ht.2 h.2)
  | .block ss, t, hs, ht, h => by
    cases t with simp [Stmt.outline] at h
    | block ts => exact .block (Stmt.similarAll ss ts hs ht h)
  | .branch _ c s no, t, hs, ht, h => by
    cases t with simp [Stmt.outline] at h
    | branch _ d s' no' =>
      exact .branch (c.similar d hs.1 ht.1 h.1) (s.similar s' hs.2.1 ht.2.1 h.2.1)
        (Stmt.similar? no no' hs.2.2 ht.2.2 h.2.2)
  | .loop _ c s, t, hs, ht, h => by
    cases t with simp [Stmt.outline] at h
    | loop _ d s' => exact .loop (c.similar d hs.1 ht.1 h.1) (s.similar s' hs.2 ht.2 h.2)
  | .breakLoop _, t, _, _, h => by
    cases t with simp [Stmt.outline] at h
    | breakLoop _ => exact .breakLoop
  | .function n fn, t, hs, ht, h => by
    cases t with simp [Stmt.outline] at h
    | function m fn' => exact .function (hs.1.similar_name ht.1 h.1) (fn.similar fn' hs.2 ht.2 h.2)
  | .giveBack _ e, t, hs, ht, h => by
    cases t with simp [Stmt.outline] at h
    | giveBack _ f => exact .giveBack (Expr.similar? e f hs ht h)

theorem Stmt.similarAll : (ss ts : List Stmt) → Stmt.SpelledAll ss → Stmt.SpelledAll ts →
    Stmt.outlineAll ss = Stmt.outlineAll ts → List.Forall₂ Stmt.Similar ss ts
  | [], [], _, _, _ => .nil
  | s :: ss, t :: ts, hs, ht, h =>
    .cons (s.similar t hs.1 ht.1 (List.cons.inj h).1)
      (Stmt.similarAll ss ts hs.2 ht.2 (List.cons.inj h).2)

theorem Stmt.similar? : (s t : Option Stmt) → Stmt.Spelled? s → Stmt.Spelled? t →
    Stmt.outline? s = Stmt.outline? t → Option.Rel Stmt.Similar s t
  | none, none, _, _, _ => .none
  | some s, some t, hs, ht, h => .some (s.similar t hs ht (List.cons.inj h).1)

end

/-- Statements of programs without errors, in which no number is past the greatest, are rendered
alike only if they are similar. -/
theorem similar_of_render {a b : String} {i j : NodeId} {s t : Stmt}
    (ha : (parse (scan a).tokens (scan a).finish i).errors = [])
    (hb : (parse (scan b).tokens (scan b).finish j).errors = [])
    (hfiniteA : ∀ t ∈ (scan a).tokens, ∀ x, t.literal = .number x →
      Number.exact x ≠ .infinite false)
    (hfiniteB : ∀ t ∈ (scan b).tokens, ∀ x, t.literal = .number x →
      Number.exact x ≠ .infinite false)
    (hs : s ∈ (parse (scan a).tokens (scan a).finish i).program)
    (ht : t ∈ (parse (scan b).tokens (scan b).finish j).program) (h : s.render = t.render) :
    s.Similar t := by
  have hsSpelled := (spelled_of_parse ha hfiniteA).of_mem hs
  have htSpelled := (spelled_of_parse hb hfiniteB).of_mem ht
  obtain ⟨hsClean, hsText⟩ := s.depicts hsSpelled
  obtain ⟨htClean, htText⟩ := t.depicts htSpelled
  have htext : s.outline.text = t.outline.text := by
    rw [hsText, htText]
    exact String.ofList_injective h
  exact s.similar t hsSpelled htSpelled (Outline.text_inj hsClean htClean htext)

/-- A name on two lines. -/
theorem similar_of_render_name :
    let s : Stmt := .expression (.reference 0 ⟨.identifier, "a", .nil, 1⟩)
    let t : Stmt := .expression (.reference 5 ⟨.identifier, "a", .nil, 2⟩)
    let p := parse (scan "a;").tokens (scan "a;").finish 0
    let q := parse (scan "\na;").tokens (scan "\na;").finish 5
    p.errors = [] ∧ q.errors = [] ∧ s ∈ p.program ∧ t ∈ q.program ∧ s.render = t.render ∧
      s.Similar t := by
  intro s t p q
  have hscan : scan "a;" = ⟨[⟨.identifier, "a", .nil, 1⟩, ⟨.semicolon, ";", .nil, 1⟩],
        .endOfInput 1, []⟩ ∧
      scan "\na;" = ⟨[⟨.identifier, "a", .nil, 2⟩, ⟨.semicolon, ";", .nil, 2⟩],
        .endOfInput 2, []⟩ := ⟨(scan_eq _).trans rfl, (scan_eq _).trans rfl⟩
  have hp : p = ⟨[s], [], 1⟩ := by
    simp only [p, hscan.1]
    rfl
  have hq : q = ⟨[t], [], 6⟩ := by
    simp only [q, hscan.2]
    rfl
  have herrors : p.errors = [] ∧ q.errors = [] := by simp [hp, hq]
  have hmem : s ∈ p.program ∧ t ∈ q.program := by simp [hp, hq]
  exact ⟨herrors.1, herrors.2, hmem.1, hmem.2, rfl, similar_of_render herrors.1 herrors.2
    (by simp [hscan.1]) (by simp [hscan.2]) hmem.1 hmem.2 rfl⟩

end Lox
