import Lox.Proofs.Execute.Heritage
import Lox.Proofs.Grammar

/-! Errors of a program are blamed on tokens it was read from. -/
namespace Lox

variable {P : Token → Prop} {k : Task}

/-- All tokens that errors of a task or of its parts are blamed on satisfy `P`. -/
def Task.Named (P : Token → Prop) (k : Task) : Prop :=
  ∀ k', k.Has k' → ∀ token, k'.Blames token → P token

theorem Task.heritable_named : Task.Heritable (Task.Named P) :=
  fun _ _ h hc k hk => h k (.head hc hk)

/-- The tokens that a task may blame are its own and those of its parts. -/
theorem Task.Named.of_parts (hown : ∀ token, k.Blames token → P token)
    (hparts : ∀ k', k.Contains k' → k'.Named P) : k.Named P := by
  intro k' h
  rcases Relation.ReflTransGen.cases_head h with rfl | ⟨part, hc, h⟩
  · exact hown
  · exact hparts part hc k' h

theorem Task.Named.mono {P' : Token → Prop} (h : k.Named P) (hP : ∀ token, P token → P' token) :
    k.Named P' :=
  fun k' hk token hb => hP token (h k' hk token hb)

namespace Grammar

/-- The same of the tree of a phrase. -/
def Phrase.Named (P : Token → Prop) : (p : Phrase) → p.Tree → Prop
  | .declarations, ss | .block, ss => (Task.stmts ss).Named P
  | .declaration, s | .binding, s | .statement _, s => (Task.stmt s).Named P
  | .start, s => ∀ i, s = some i → (Task.stmt i).Named P
  | .function, fn => (Task.body fn).Named P
  | .parameters, _ | .names, _ => True
  | .optional, e => ∀ v, e = some v → (Task.expr v).Named P
  | .expression, e | .chain _, e | .operand _, e | .unary, e | .call, e | .primary, e =>
    (Task.expr e).Named P
  | .arguments, es | .values, es => (Task.exprs es).Named P

theorem named_literal (id : NodeId) (value : Literal) :
    (Task.expr (.literal id value)).Named P := by
  refine .of_parts ?_ ?_ <;> rintro _ ⟨⟩

theorem named_stmts_nil : (Task.stmts []).Named P := by
  refine .of_parts ?_ ?_ <;> rintro _ ⟨⟩

theorem named_stmts_cons {s : Stmt} {ss : List Stmt} (hs : (Task.stmt s).Named P)
    (hss : (Task.stmts ss).Named P) : (Task.stmts (s :: ss)).Named P := by
  refine .of_parts ?_ ?_ <;> rintro _ ⟨⟩
  · exact hs
  · exact hss

theorem named_exprs_nil : (Task.exprs []).Named P := by
  refine .of_parts ?_ ?_ <;> rintro _ ⟨⟩

theorem named_exprs_cons {e : Expr} {es : List Expr} (he : (Task.expr e).Named P)
    (hes : (Task.exprs es).Named P) : (Task.exprs (e :: es)).Named P := by
  refine .of_parts ?_ ?_ <;> rintro _ ⟨⟩
  · exact he
  · exact hes

theorem named_expression {e : Expr} (he : (Task.expr e).Named P) :
    (Task.stmt (.expression e)).Named P := by
  refine .of_parts ?_ ?_ <;> rintro _ ⟨⟩
  exact he

theorem named_block {ss : List Stmt} (hss : (Task.stmts ss).Named P) :
    (Task.stmt (.block ss)).Named P := by
  refine .of_parts ?_ ?_ <;> rintro _ ⟨⟩
  exact hss

theorem named_loop {keyword : Token} {c : Expr} {s : Stmt} (hk : P keyword)
    (hc : (Task.expr c).Named P) (hs : (Task.stmt s).Named P) :
    (Task.stmt (.loop keyword c s)).Named P := by
  refine .of_parts ?_ ?_ <;> rintro _ ⟨⟩
  · exact hk
  · exact hc
  · exact hs

/-- A `for` may blame its keyword and what its clauses and its body may. -/
theorem named_counting {keyword : Token} {i : Option Stmt} {c : Expr} {step : Option Expr}
    {s : Stmt} (hk : P keyword) (hi : ∀ j, i = some j → (Task.stmt j).Named P)
    (hc : (Task.expr c).Named P) (hstep : ∀ e, step = some e → (Task.expr e).Named P)
    (hs : (Task.stmt s).Named P) : (Task.stmt (.counting keyword i c step s)).Named P := by
  have hloop : (Task.stmt (.counting keyword none c step s)).Named P := by
    cases step with
    | none => exact named_loop hk hc hs
    | some e =>
      have hstep := named_expression (hstep e rfl)
      exact named_loop hk hc
        (named_block (named_stmts_cons hs (named_stmts_cons hstep named_stmts_nil)))
  cases i with
  | none => exact hloop
  | some j =>
    exact named_block (named_stmts_cons (hi j rfl) (named_stmts_cons hloop named_stmts_nil))

theorem named_body {id : NodeId} {ps : List Token} {ss : List Stmt}
    (hss : (Task.stmts ss).Named P) : (Task.body (.mk id ps ss)).Named P := by
  refine .of_parts ?_ ?_ <;> rintro _ ⟨⟩
  exact hss

theorem named_branch {keyword : Token} {c : Expr} {yes : Stmt} {no : Option Stmt} (hk : P keyword)
    (hc : (Task.expr c).Named P) (hyes : (Task.stmt yes).Named P)
    (hno : ∀ s, no = some s → (Task.stmt s).Named P) :
    (Task.stmt (.branch keyword c yes no)).Named P := by
  refine .of_parts ?_ ?_ <;> rintro _ ⟨⟩
  · exact hk
  · exact hc
  · exact hyes
  · exact hno _ rfl

variable {nearest : Bool} {p : Phrase} {ts : List Token}

/-- Errors of a phrase are blamed on its tokens. -/
theorem named_of_derives {t : p.Tree} (h : Derives nearest p ts t)
    (hts : ∀ token ∈ ts, P token) : p.Named P t := by
  induction h with try simp only [List.forall_mem_append, List.forall_mem_cons] at hts
  | nothing => exact named_stmts_nil
  | next _ _ hs hss => exact named_stmts_cons (hs hts.1) (hss hts.2)
  | named _ _ _ hf =>
    refine Task.Named.of_parts ?_ ?_ <;> rintro _ ⟨⟩
    exact hf hts.2.2
  | declared _ _ hs => exact hs hts.2
  | plain _ hs => exact hs hts
  | unset _ _ => refine Task.Named.of_parts ?_ ?_ <;> rintro _ ⟨⟩
  | set _ _ _ _ he =>
    refine Task.Named.of_parts ?_ ?_ <;> rintro _ ⟨⟩
    exact he hts.2.2.1
  | evaluate _ _ he => exact named_expression (he hts.1)
  | print _ _ _ he =>
    refine Task.Named.of_parts ?_ ?_ <;> rintro _ ⟨⟩
    exact he hts.2.1
  | giveBack _ _ _ he =>
    refine Task.Named.of_parts ?_ ?_ <;> rintro _ ⟨⟩
    exact he hts.2.1 _ rfl
  | breakLoop _ _ => refine Task.Named.of_parts ?_ ?_ <;> rintro _ ⟨⟩
  | block _ _ hb => exact named_block (hb hts.2)
  | loop _ _ _ _ _ hc hs => exact named_loop hts.1 (hc hts.2.2.1) (hs hts.2.2.2.2)
  | @counting _ _ _ _ _ c _ _ _ _ _ _ _ n _ _ _ _ _ _ _ _ hi hc ht hs =>
    have hcondition : (Task.expr (c.getD (.literal n (.bool true)))).Named P := by
      cases c with
      | none => exact named_literal _ _
      | some c => exact hc hts.2.2.2.1 c rfl
    rw [desugared_eq]
    exact named_counting hts.1 (hi hts.2.2.1) hcondition (ht hts.2.2.2.2.2.1)
      (hs hts.2.2.2.2.2.2.2)
  | branch _ _ _ _ _ hc hs =>
    exact named_branch hts.1 (hc hts.2.2.1) (hs hts.2.2.2.2) (by simp)
  | branchElse _ _ _ _ _ _ _ _ hc hs hs' =>
    refine named_branch hts.1 (hc hts.2.2.1) (hs hts.2.2.2.2.1) ?_
    rintro _ ⟨⟩
    exact hs' hts.2.2.2.2.2.2
  | startNothing _ => rintro _ ⟨⟩
  | startVariable _ _ hs =>
    rintro _ ⟨⟩
    exact hs hts.2
  | startExpression _ _ he =>
    rintro _ ⟨⟩
    exact named_expression (he hts.1)
  | braced _ _ hs => exact hs hts.1
  | function _ _ _ _ _ _ hb => exact named_body (hb hts.2.2.2.2)
  | noParameters | someParameters | oneName | moreNames => trivial
  | absent => rintro _ ⟨⟩
  | present _ he =>
    rintro _ ⟨⟩
    exact he hts
  | assign _ _ _ he =>
    refine Task.Named.of_parts ?_ ?_ <;> rintro _ ⟨⟩
    · exact hts.1
    · exact he hts.2.2
  | loosest _ he | single _ he | tighter _ _ he | tightest _ he | called _ he | uncalled _ he =>
    exact he hts
  | logical _ _ _ hl hr | binary _ _ _ hl hr =>
    refine Task.Named.of_parts ?_ ?_ <;> rintro _ ⟨⟩
    · exact hts.2.1
    · exact hl hts.1
    · exact hr hts.2.2
  | not _ _ he | negate _ _ he =>
    refine Task.Named.of_parts ?_ ?_ <;> rintro _ ⟨⟩
    · exact hts.1
    · exact he hts.2
  | call _ _ _ _ he ha =>
    refine Task.Named.of_parts ?_ ?_ <;> rintro _ ⟨⟩
    · exact hts.2.2.2.1
    · exact he hts.1
    · exact ha hts.2.2.1
  | noArguments => exact named_exprs_nil
  | someArguments _ _ ha => exact ha hts
  | oneValue _ he => exact named_exprs_cons (he hts) named_exprs_nil
  | moreValues _ _ _ he ha => exact named_exprs_cons (he hts.1) (ha hts.2.2)
  | no | yes | nil | number | string => exact named_literal _ _
  | name _ =>
    refine Task.Named.of_parts ?_ ?_ <;> rintro _ ⟨⟩
    · exact hts.1
  | lambda _ _ hf =>
    refine Task.Named.of_parts ?_ ?_ <;> rintro _ ⟨⟩
    exact hf hts.2
  | group _ _ _ he =>
    refine Task.Named.of_parts ?_ ?_ <;> rintro _ ⟨⟩
    exact he hts.2.1

end Grammar

end Lox
