import Lox.Proofs.Grammar.Nearest
import Lox.Proofs.Parse.Statements

/-! Whatever the grammar derives is parsed without a complaint, as the tree of the derivation in
which each `else` belongs to its nearest branch. -/
namespace Lox.Parse

open Grammar (Derives Phrase)

variable {p : Phrase} {ts us rest : List Token} {e : Expr} {level : Level} {fuel : Nat}

theorem operator?_logical {token : Token} {op : LogicalOp}
    (h : (token.kind, op) ∈ Grammar.logicalOperators level) :
    level.operator? token.kind = some (.inl op) := by
  cases level <;> simp [Grammar.logicalOperators] at h
  all_goals
    obtain ⟨hk, rfl⟩ := h
    simp [Level.operator?, hk]

theorem operator?_binary {token : Token} {op : BinaryOp}
    (h : (token.kind, op) ∈ Grammar.binaryOperators level) :
    level.operator? token.kind = some (.inr op) := by
  cases level <;> simp [Grammar.binaryOperators] at h
  case comparison =>
    rcases h with ⟨hk, rfl⟩ | ⟨hk, rfl⟩ | ⟨hk, rfl⟩ | ⟨hk, rfl⟩ <;> simp [Level.operator?, hk]
  all_goals
    rcases h with ⟨hk, rfl⟩ | ⟨hk, rfl⟩ <;> simp [Level.operator?, hk]

theorem complete {t : p.Tree} (h : Derives true p ts t) : Complete p ts [] t := by
  induction h with
  | nothing => exact complete_nothing
  | next hs hss h1 h2 => exact complete_next h1 (begins hs) h2 (begins hss)
  | named hk hn _ h => exact complete_named hk hn h
  | declared hk _ h => exact complete_declared hk h
  | plain hs h => exact complete_plain h (begins hs)
  | unset hn hs => exact complete_binding hn hs
  | set hn he _ hs h => exact complete_set hn he h hs
  | evaluate he hs h => exact complete_evaluate h hs (begins he)
  | print hk _ hs h => exact complete_print hk h hs
  | giveBack hk _ hs h => exact complete_giveBack hk h hs
  | breakLoop hk hs => exact complete_breakLoop hk hs
  | block hk _ h => exact complete_block hk h
  | loop hk hl _ hr _ hc hs => exact complete_loop hk hl hc hr hs
  | counting hk hl _ _ hm _ hr _ hi hc ht hs =>
    rw [Grammar.desugared_eq]
    exact complete_counting hk hl hi hc hm ht hr hs
  | branch hk hl _ hr _ hc hs => exact complete_branch hk hl hc hr hs
  | branchElse hk hl _ hr _ hd ho _ hc hs hs' =>
    obtain rfl := hd rfl
    exact complete_branchElse hk hl hc hr hs ho hs'
  | startNothing hs => exact complete_startNothing hs
  | startVariable hk _ h => exact complete_startVariable hk h
  | startExpression he hs h => exact complete_startExpression h hs (begins he)
  | braced _ hb h => exact complete_braced h hb
  | function hl _ hr hk _ hp hb => exact complete_function hl hp hr hk hb
  | noParameters => exact fun _ _ hr _ => (takes_unlessNext_none hr).mono (by simp)
  | someParameters hp hl h => exact complete_someParameters h hl (begins hp)
  | oneName hn => exact complete_oneName hn
  | moreNames hn hc _ h => exact complete_moreNames hn hc h
  | absent => exact fun _ _ _ _ hr _ => (takes_unlessNext_none hr).mono (by simp)
  | present he h => exact complete_present h (begins he)
  | assign hn hq _ h => exact complete_assign hn hq h
  | loosest _ h => exact complete_loosest h
  | single he h => exact complete_single h (begins he)
  | logical _ ho _ hl hr => exact complete_combine hl (operator?_logical ho) hr
  | binary _ ho _ hl hr => exact complete_combine hl (operator?_binary ho) hr
  | tighter ht _ h => exact complete_tighter ht h
  | tightest _ h => exact complete_tightest h
  | not hk _ h => exact complete_unary (by simp [unaryAt?, hk]) h
  | negate hk _ h => exact complete_unary (by simp [unaryAt?, hk]) h
  | called _ h => exact fun _ _ hs hf => h.takes_call hs hf
  | uncalled he h => exact complete_uncalled h (begins he)
  | call _ hl _ hr h ha => exact complete_call h hl ha hr
  | noArguments => exact fun _ _ hr _ => (takes_unlessNext_none hr).mono (by simp)
  | someArguments ha hl h => exact complete_someArguments h hl (begins ha)
  | oneValue _ h => exact complete_oneValue h
  | moreValues _ hc _ h hs => exact complete_moreValues h hc hs
  | no hk | yes hk | nil hk | number hk | string hk =>
    exact complete_literal (by simp [atomAt?, hk])
  | name hk => exact complete_reference hk
  | lambda hk _ h => exact complete_lambda hk h
  | group hl _ hr h => exact complete_group hl h hr

end Lox.Parse

namespace Lox

open Grammar (Program)

variable {tokens : List Token} {finish : Token} {firstId : NodeId}

/-- What is parsed without an error is derived as it was read. -/
theorem program_of_parse (h : (parse tokens finish firstId).errors = []) :
    Program true tokens (parse tokens finish firstId).program := by
  have hread := (Parse.sound (16 * (tokens.length + 1))).declarations false #[]
    ⟨tokens, #[], firstId⟩ (by simp only; omega)
  simp only [Parse.Reads, Ends] at hread
  unfold parse at h ⊢
  split at hread
  · next a t hrun =>
    simp only [hrun, List.map_eq_nil_iff, Array.toList_eq_nil_iff] at h ⊢
    obtain ⟨ts, hts, new, hnew, hd, hrest⟩ := hread.2.2.2 (by simp [h])
    rw [hnew, hts, hrest trivial]
    simpa using hd
  · next i t hrun =>
    simp only [hrun, List.map_eq_nil_iff, Array.toList_eq_nil_iff] at h
    simp [h] at hread

/-- Where declarations are all there is, they are the program and their complaints its errors. -/
theorem Parse.Complete.parse {cs : List Parse.Complaint} {p : List Stmt}
    (h : Parse.Complete .declarations tokens cs p) (finish : Token) (firstId : NodeId) :
    Stmt.bareAll (parse tokens finish firstId).program = Stmt.bareAll p ∧
      (parse tokens finish firstId).errors = cs.map fun c => ⟨c.fault, c.token.getD finish⟩ := by
  obtain ⟨a, t, hrun, -, hc, new, rfl, hnew⟩ :=
    h (16 * (tokens.length + 1)) [] false #[] (Or.inl rfl) (by simp; omega)
      ⟨tokens, #[], firstId⟩ (by simp)
  simp only at hc
  simp [Lox.parse, hrun, hc, hnew]

/-- What is derived is parsed without an error, as the same tree. -/
theorem parse_of_program {p : List Stmt} (h : Program true tokens p) :
    (parse tokens finish firstId).errors = [] ∧
      Stmt.bareAll (parse tokens finish firstId).program = Stmt.bareAll p := by
  obtain ⟨hprogram, herrors⟩ := (Parse.complete h).parse finish firstId
  exact ⟨herrors, hprogram⟩

/-- Parsing finds no error exactly in the programs of the grammar, and reads each as the tree in
which every `else` belongs to the nearest branch that can take it. -/
theorem parse_errors_eq_nil_iff (tokens : List Token) (finish : Token) (firstId : NodeId) :
    ((parse tokens finish firstId).errors = [] ↔ ∃ program, Program false tokens program) ∧
    ((parse tokens finish firstId).errors = [] →
      Program true tokens (parse tokens finish firstId).program) ∧
    ∀ program, Program true tokens program →
      (parse tokens finish firstId).errors = [] ∧
        Stmt.bareAll (parse tokens finish firstId).program = Stmt.bareAll program := by
  refine ⟨⟨?_, ?_⟩, program_of_parse, fun program => parse_of_program⟩
  · intro h
    exact ⟨_, (program_of_parse h).ambiguous⟩
  · rintro ⟨program, h⟩
    obtain ⟨nearest, h⟩ := h.nearest
    exact (parse_of_program h).1

end Lox
