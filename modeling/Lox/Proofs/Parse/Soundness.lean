import Lox.Proofs.Grammar
import Lox.Proofs.Parse.Reading

/-! What is parsed without a complaint is derived by the grammar, with each `else` at its nearest
branch. No parser runs out of fuel: between two tokens no more than sixteen are entered. -/
namespace Lox.Parse

open Grammar (Derives Phrase)

variable {s : State} {e : Parser Expr} {body : Parser Stmt} {keyword : Token}

/-- A parser of a phrase, which is never empty. -/
abbrev ReadsAs (p : Phrase) (x : Parser p.Tree) (s : State) : Prop :=
  Reads x s (fun _ => s.rest.length) fun ts t _ => Derives true p ts t

/-- A parser of statements leaves no `else` that its statement could still take. -/
abbrev ReadsStatement (x : Parser Stmt) (s : State) : Prop :=
  Reads x s (fun _ => s.rest.length) fun ts t rest =>
    ∃ d, Derives true (.statement d) ts t ∧
      (d = true → ∀ token ∈ rest.head?, token.kind ≠ .kwElse)

theorem reads_optional {kind : TokenKind} (he : ReadsAs .expression e s) :
    Reads (unlessNext kind e) s (fun _ => s.rest.length + 1) fun ts a _ =>
      Derives true .optional ts a := by
  refine (reads_unlessNext (he.mono (by simp) fun _ _ _ h => h)).mono (fun _ => Nat.le_refl _) ?_
  rintro ts (_ | a) rest h
  · subst h
    exact .absent
  · exact .present h

/-- An expression with its semicolon is a statement, and may also begin a counting loop. -/
theorem reads_expressionStatement (he : ReadsAs .expression e s) :
    Reads (expressionStatement e) s (fun _ => s.rest.length) fun ts t _ =>
      ∃ us a semi, Derives true .expression us a ∧ semi.kind = .semicolon ∧
        ts = us ++ [semi] ∧ t = .expression a := by
  refine Reads.bind he ?_
  intro a t ht _
  refine Reads.bind_expect ?_
  intro semi u hu hk
  refine Reads.pure (by omega) ?_
  intro ts hts
  exact ⟨ts, a, semi, hts, hk, rfl, rfl⟩

theorem reads_varDeclaration
    (he : ∀ t, t.rest.length < s.rest.length → ReadsAs .expression e t) :
    ReadsAs .binding (varDeclaration e) s := by
  refine Reads.bind_expect ?_
  intro name t ht hn
  simp only [bind_assoc]
  refine Reads.bind_accept? ?_ ?_
  · intro equal u hu hq
    simp only [bind_assoc, pure_bind]
    refine Reads.bind (he u (by omega)) ?_
    intro a v hv hv'
    refine Reads.bind_expect ?_
    intro semi w hw hk
    refine Reads.pure (by omega) ?_
    intro ts hts
    exact .set hn hq hts hk
  · intro u hu _
    simp only [pure_bind]
    refine Reads.bind_expect ?_
    intro semi w hw hk
    refine Reads.pure (by omega) ?_
    exact .unset hn hk

theorem reads_countingStart (he : ∀ t, t.rest.length ≤ s.rest.length → ReadsAs .expression e t) :
    ReadsAs .start (countingStart e) s := by
  refine Reads.bind_accept? ?_ ?_
  · intro semi t ht hk
    exact Reads.pure ht (.startNothing hk)
  · intro t ht _
    refine Reads.bind_accept? ?_ ?_
    · intro var u hu hk
      refine Reads.bind (reads_varDeclaration fun v hv => he v (by omega)) ?_
      intro a v hv _
      refine Reads.pure (by omega) ?_
      intro ts hts
      simpa using Derives.startVariable hk hts
    · intro u hu _
      refine Reads.bind (reads_expressionStatement (he u (by omega))) ?_
      intro a v hv _
      refine Reads.pure (by omega) ?_
      rintro _ ⟨us, x, semi, hx, hk, rfl, rfl⟩
      simpa using Derives.startExpression hx hk

theorem reads_print (hk : keyword.kind = .kwPrint) (he : ReadsAs .expression e s) :
    Reads (print e) s (fun _ => s.rest.length) fun ts t _ =>
      Derives true (.statement false) (keyword :: ts) t := by
  refine Reads.bind he ?_
  intro a t ht _
  refine Reads.bind_expect ?_
  intro semi u hu hm
  refine Reads.pure (by omega) ?_
  intro ts hts
  exact .print hk hts hm

theorem reads_giveBack (hk : keyword.kind = .kwReturn) (he : ReadsAs .expression e s) :
    Reads (giveBack keyword e) s (fun _ => s.rest.length) fun ts t _ =>
      Derives true (.statement false) (keyword :: ts) t := by
  refine Reads.bind (reads_optional he) ?_
  intro a t ht _
  refine Reads.bind_expect ?_
  intro semi u hu hm
  refine Reads.pure (by omega) ?_
  intro ts hts
  exact .giveBack hk hts hm

theorem reads_breakLoop (hk : keyword.kind = .kwBreak) :
    Reads (breakLoop keyword) s (fun _ => s.rest.length) fun ts t _ =>
      Derives true (.statement false) (keyword :: ts) t := by
  refine Reads.bind_expect ?_
  intro semi t ht hm
  exact Reads.pure ht (.breakLoop hk hm)

theorem reads_loop (hk : keyword.kind = .kwWhile)
    (he : ∀ t, t.rest.length < s.rest.length → ReadsAs .expression e t)
    (hb : ∀ t, t.rest.length < s.rest.length → ReadsStatement body t) :
    Reads (loop keyword e body) s (fun _ => s.rest.length) fun ts t rest =>
      ∃ d, Derives true (.statement d) (keyword :: ts) t ∧
        (d = true → ∀ token ∈ rest.head?, token.kind ≠ .kwElse) := by
  refine Reads.bind_expect ?_
  intro lp t ht hl
  refine Reads.bind (he t ht) ?_
  intro c u hu _
  refine Reads.bind_expect ?_
  intro rp v hv hr
  refine Reads.bind (hb v (by omega)) ?_
  intro a w hw _
  refine Reads.pure (by omega) ?_
  rintro us ⟨d, hus, hd⟩ ts hts
  exact ⟨d, by simpa using Derives.loop hk hl hts hr hus, by simpa using hd⟩

/-- An `else` that follows goes with this `if`; without one, the statement must not be followed by
an `else`. -/
theorem reads_branch (hk : keyword.kind = .kwIf)
    (he : ∀ t, t.rest.length < s.rest.length → ReadsAs .expression e t)
    (hb : ∀ t, t.rest.length < s.rest.length → ReadsStatement body t) :
    Reads (branch keyword e body) s (fun _ => s.rest.length) fun ts t rest =>
      ∃ d, Derives true (.statement d) (keyword :: ts) t ∧
        (d = true → ∀ token ∈ rest.head?, token.kind ≠ .kwElse) := by
  refine Reads.bind_expect ?_
  intro lp t ht hl
  refine Reads.bind (he t ht) ?_
  intro c u hu _
  refine Reads.bind_expect ?_
  intro rp v hv hr
  refine Reads.bind (hb v (by omega)) ?_
  intro a w hw _
  simp only [bind_assoc]
  refine Reads.bind_accept? ?_ ?_
  · intro other x hx ho
    simp only [bind_assoc, pure_bind]
    refine Reads.bind (hb x (by omega)) ?_
    intro b y hy _
    refine Reads.pure (by omega) ?_
    rintro vs ⟨d', hvs, hd'⟩ us ⟨d, hus, hd⟩ ts hts
    have hfalse : d = false := by
      cases d with
      | false => rfl
      | true => exact (hd rfl other (by simp) ho).elim
    exact ⟨d', by simpa using Derives.branchElse hk hl hts hr hus (fun _ => hfalse) ho hvs,
      by simpa using hd'⟩
  · intro x hx hn
    refine Reads.pure (by omega) ?_
    rintro us ⟨d, hus, hd⟩ ts hts
    exact ⟨true, by simpa using Derives.branch hk hl hts hr hus, fun _ => hn⟩

/-- A `for` is read as the tree that the grammar gives it. -/
theorem reads_countingLoop (hk : keyword.kind = .kwFor)
    (he : ∀ t, t.rest.length < s.rest.length → ReadsAs .expression e t)
    (hb : ∀ t, t.rest.length < s.rest.length → ReadsStatement body t) :
    Reads (countingLoop keyword e body) s (fun _ => s.rest.length) fun ts t rest =>
      ∃ d, Derives true (.statement d) (keyword :: ts) t ∧
        (d = true → ∀ token ∈ rest.head?, token.kind ≠ .kwElse) := by
  refine Reads.bind_expect ?_
  intro lp t ht hl
  refine Reads.bind (reads_countingStart fun x hx => he x (by omega)) ?_
  intro i u hu _
  refine Reads.bind (reads_optional (he u (by omega))) ?_
  intro c v hv _
  refine Reads.bind_expect ?_
  intro semi w hw hm
  refine Reads.bind (reads_optional (he w (by omega))) ?_
  intro step x hx _
  refine Reads.bind_expect ?_
  intro rp y hy hr
  refine Reads.bind (hb y (by omega)) ?_
  intro a z hz _
  have build (n : NodeId) : ∀ ts, (∃ d, Derives true (.statement d) ts a ∧
        (d = true → ∀ token ∈ z.rest.head?, token.kind ≠ .kwElse)) →
      ∀ vs, Derives true .optional vs step → ∀ us, Derives true .optional us c →
      ∀ is, Derives true .start is i →
      ∃ d, Derives true (.statement d)
          (keyword :: lp :: (is ++ (us ++ semi :: (vs ++ rp :: ts))))
          (.counting keyword i (c.getD (.literal n (.bool true))) step a) ∧
        (d = true → ∀ token ∈ z.rest.head?, token.kind ≠ .kwElse) := by
    rintro ts ⟨d, hts, hd⟩ vs hvs us hus is his
    rw [← Grammar.desugared_eq]
    exact ⟨d, .counting hk hl his hus hm hvs hr hts, hd⟩
  cases c with
  | some c =>
    refine Reads.pure (by omega) ?_
    intro ts hts vs hvs us hus is his
    simpa using build 0 ts (by simpa using hts) vs hvs us hus is his
  | none =>
    simp only [bind_assoc, pure_bind]
    refine Reads.bind_fresh ?_
    intro n z' hz'
    refine Reads.pure (by rw [hz']; omega) ?_
    intro ts hts vs hvs us hus is his
    rw [hz'] at hts ⊢
    simpa using build n ts (by simpa using hts) vs hvs us hus is his

/-- How many parsers are entered from a chain of operands before one reads a token. -/
def Level.rank : Level → Nat
  | or => 8
  | and => 7
  | equality => 6
  | comparison => 5
  | term => 4
  | factor => 3

theorem Level.rank_pos (level : Level) : 0 < level.rank := by cases level <;> decide

/-- An operator of a level joins a chain of it and one more operand. -/
theorem derives_combine {level : Level} {ts us : List Token} {l r : Expr}
    {op : LogicalOp ⊕ BinaryOp} {token : Token} (n : NodeId)
    (ho : level.operator? token.kind = some op) (hl : Derives true (.chain level) ts l)
    (hr : Derives true (.operand level) us r) :
    Derives true (.chain level) (ts ++ token :: us) (combine n l op token r) := by
  unfold Level.operator? at ho
  split at ho <;> cases ho
  case h_1 hk | h_2 hk => exact .logical hl (by simp [Grammar.logicalOperators, hk]) hr
  all_goals
    rename_i hk
    exact .binary hl (by simp [Grammar.binaryOperators, hk]) hr

/-- Only a bare name is read as a variable. -/
def NameOnly : (p : Phrase) → List Token → p.Tree → Prop
  | .chain _, ts, .reference _ name | .operand _, ts, .reference _ name
  | .unary, ts, .reference _ name | .call, ts, .reference _ name
  | .primary, ts, .reference _ name => ts = [name] ∧ name.kind = .identifier
  | _, _, _ => True

theorem nameOnly {p : Phrase} {ts : List Token} {t : p.Tree} {nearest : Bool}
    (h : Derives nearest p ts t) : NameOnly p ts t := by
  induction h with
  | single _ h | tighter _ _ h | tightest _ h | called _ h | uncalled _ h =>
    revert h
    cases ‹Expr› <;> exact id
  | name hk => exact ⟨rfl, hk⟩
  | _ => trivial

/-- What the parsers read that call each other with one unit of fuel less each time. -/
structure Sound (fuel : Nat) : Prop where
  expression : ∀ s, 16 * s.rest.length + 9 ≤ fuel → ReadsAs .expression (expression fuel) s
  chain : ∀ level s, 16 * s.rest.length + level.rank ≤ fuel →
    ReadsAs (.chain level) (chain fuel level) s
  chainRest : ∀ level left s, 16 * s.rest.length + 1 ≤ fuel →
    Reads (chainRest fuel level left) s (fun _ => s.rest.length + 1) fun us e _ =>
      ∀ ts, Derives true (.chain level) ts left → Derives true (.chain level) (ts ++ us) e
  unary : ∀ s, 16 * s.rest.length + 2 ≤ fuel → ReadsAs .unary (unary fuel) s
  calls : ∀ callee s, 16 * s.rest.length + 1 ≤ fuel →
    Reads (calls fuel callee) s (fun _ => s.rest.length + 1) fun us e _ =>
      ∀ ts, Derives true .call ts callee → Derives true .call (ts ++ us) e
  arguments : ∀ done s, 16 * s.rest.length + 10 ≤ fuel →
    Reads (arguments fuel done) s (fun _ => s.rest.length) fun ts es _ =>
      ∃ new, es = done.toList ++ new ∧ es.length ≤ maxArity ∧ Derives true .values ts new
  atom : ∀ s, 16 * s.rest.length + 1 ≤ fuel → ReadsAs .primary (atom fuel) s
  lambda : ∀ s, 16 * s.rest.length + 1 ≤ fuel → ReadsAs .function (lambda fuel) s
  block : ∀ s, 16 * s.rest.length + 13 ≤ fuel → ReadsAs .block (block fuel) s
  statement : ∀ s, 16 * s.rest.length + 10 ≤ fuel → ReadsStatement (statement fuel) s
  declaration : ∀ s, s.rest ≠ [] → 16 * s.rest.length + 11 ≤ fuel →
    Reads (declaration fuel) s (fun _ => s.rest.length) fun ts a _ =>
      ∃ t, a = some t ∧ Derives true .declaration ts t
  declarations : ∀ inBlock done s, 16 * s.rest.length + 12 ≤ fuel →
    Reads (declarations fuel inBlock done) s (fun _ => s.rest.length + 1) fun ts ss rest =>
      ∃ new, ss = done.toList ++ new ∧ Derives true .declarations ts new ∧
        (inBlock = false → rest = [])

variable {fuel : Nat}

/-- An assignment has a name on its left, or there is a complaint. -/
theorem reads_expression (h : Sound fuel) (hf : 16 * s.rest.length + 9 ≤ fuel + 1) :
    ReadsAs .expression (expression (fuel + 1)) s := by
  unfold expression
  refine Reads.bind (h.chain .or s (by simp only [Level.rank]; omega)) ?_
  intro target t ht _
  refine Reads.bind_accept? ?_ ?_
  · intro equal u hu hq
    refine Reads.bind (h.expression u (by omega)) ?_
    intro value v hv _
    split
    · refine Reads.bind_fresh ?_
      intro n w hw
      refine Reads.pure (by rw [hw]; omega) ?_
      intro us hus ts hts
      obtain ⟨rfl, hn⟩ := nameOnly hts
      simpa using Derives.assign hn hq hus
    · refine Reads.bind (reads_complain (r := fun _ _ _ => False)) ?_
      intro _ w hw _
      exact Reads.pure (by omega) (by simp)
  · intro u hu _
    refine Reads.pure (by omega) ?_
    intro ts hts
    simpa using Derives.loosest hts

theorem reads_operand (h : Sound fuel) (level : Level)
    (hf : 16 * s.rest.length + level.rank ≤ fuel + 1) :
    ReadsAs (.operand level) (operandOf level (chain fuel) (unary fuel)) s := by
  cases level
  case factor =>
    exact (h.unary s (by simp only [Level.rank] at hf; omega)).mono (fun _ => Nat.le_refl _)
      fun _ _ _ => .tightest
  all_goals
    refine (h.chain _ s ?_).mono (fun _ => Nat.le_refl _) fun _ _ _ => .tighter (by constructor)
    simp only [Level.rank] at hf ⊢
    omega

theorem reads_chain (h : Sound fuel) (level : Level)
    (hf : 16 * s.rest.length + level.rank ≤ fuel + 1) :
    ReadsAs (.chain level) (chain (fuel + 1) level) s := by
  unfold chain
  refine Reads.bind (reads_operand h level hf) ?_
  intro first t ht _
  refine (h.chainRest level first t (by omega)).mono (fun _ => ht) ?_
  intro us e _ hus ts hts
  exact hus ts (.single hts)

/-- Operands read so far and further ones make one chain. -/
theorem reads_chainRest (h : Sound fuel) (level : Level) (left : Expr)
    (hf : 16 * s.rest.length + 1 ≤ fuel + 1) :
    Reads (chainRest (fuel + 1) level left) s (fun _ => s.rest.length + 1) fun us e _ =>
      ∀ ts, Derives true (.chain level) ts left → Derives true (.chain level) (ts ++ us) e := by
  have hrank : level.rank ≤ 8 := by cases level <;> decide
  unfold chainRest
  refine Reads.bind_acceptMap? ?_ ?_
  · rintro token ⟨op, other⟩ t ht ho
    obtain ⟨_, hop, heq⟩ := Option.map_eq_some_iff.mp ho
    obtain ⟨rfl, rfl⟩ := Prod.mk.inj heq
    refine Reads.bind (reads_operand h level (by omega)) ?_
    intro right u hu _
    refine Reads.bind_fresh ?_
    intro n v hv
    refine (h.chainRest level _ v (by rw [hv]; omega)).mono (fun _ => by rw [hv]; omega) ?_
    intro vs e _ hvs us hus ts hts
    simpa using hvs _ (derives_combine n hop hts hus)
  · intro t ht _
    exact Reads.pure (by omega) (by simp)

theorem reads_unary (h : Sound fuel) (hf : 16 * s.rest.length + 2 ≤ fuel + 1) :
    ReadsAs .unary (unary (fuel + 1)) s := by
  unfold unary
  refine Reads.bind_acceptMap? ?_ ?_
  · rintro token ⟨op, other⟩ t ht ho
    refine Reads.bind (h.unary t (by omega)) ?_
    intro a u hu _
    refine Reads.bind_fresh ?_
    intro n v hv
    refine Reads.pure (by rw [hv]; omega) ?_
    intro ts hts
    unfold unaryAt? at ho
    split at ho <;> cases ho
    · simpa using Derives.not ‹_› hts
    · simpa using Derives.negate ‹_› hts
  · intro t ht _
    refine Reads.bind (h.atom t (by omega)) ?_
    intro callee u hu _
    refine (h.calls callee u (by omega)).mono (fun _ => by omega) ?_
    intro us e _ hus ts hts
    exact .called (hus ts (.uncalled hts))

theorem reads_calls (h : Sound fuel) (callee : Expr) (hf : 16 * s.rest.length + 1 ≤ fuel + 1) :
    Reads (calls (fuel + 1) callee) s (fun _ => s.rest.length + 1) fun us e _ =>
      ∀ ts, Derives true .call ts callee → Derives true .call (ts ++ us) e := by
  unfold calls
  refine Reads.bind_accept? ?_ ?_
  · intro lp t ht hl
    refine Reads.bind (reads_unlessNext ((h.arguments #[] t (by omega)).mono (by simp)
      fun _ _ _ h => h)) ?_
    intro given u hu _
    refine Reads.bind_expect ?_
    intro rp v hv hr
    refine Reads.bind_fresh ?_
    intro n w hw
    refine (h.calls _ w (by rw [hw]; omega)).mono (fun _ => by rw [hw]; omega) ?_
    intro vs e _ hvs us hus ts hts
    have hgiven : Derives true .arguments us (given.getD []) := by
      cases given with
      | none =>
        subst hus
        exact .noArguments
      | some es =>
        obtain ⟨new, rfl, hlen, hnew⟩ := hus
        exact .someArguments (by simpa using hnew) hlen
    simpa using hvs _ (.call (n := n) hts hl hgiven hr)
  · intro t ht _
    exact Reads.pure (by omega) (by simp)

/-- Arguments are at most as many as are allowed, or there is a complaint. -/
theorem reads_arguments (h : Sound fuel) (done : Array Expr)
    (hf : 16 * s.rest.length + 10 ≤ fuel + 1) :
    Reads (arguments (fuel + 1) done) s (fun _ => s.rest.length) fun ts es _ =>
      ∃ new, es = done.toList ++ new ∧ es.length ≤ maxArity ∧ Derives true .values ts new := by
  unfold arguments
  refine Reads.unless fun t ht => ?_
  refine Reads.bind (h.expression t (by omega)) ?_
  intro a u hu _
  refine Reads.bind_accept? ?_ ?_
  · intro comma v hv hc
    refine (h.arguments _ v (by omega)).mono (fun _ => by omega) ?_
    rintro us es _ ⟨new, rfl, hlen, hus⟩ ts hts _
    exact ⟨a :: new, by simp, hlen, .moreValues hts hc hus⟩
  · intro v hv _
    refine Reads.pure (by omega) ?_
    intro ts hts hlt
    exact ⟨[a], by simp, by rw [Array.length_toList, Array.size_push]; omega,
      by simpa using Derives.oneValue hts⟩

theorem reads_parameters (fuel : Nat) (done : Array Token) (s : State)
    (hf : 16 * s.rest.length + 1 ≤ fuel) :
    Reads (parameters fuel done) s (fun _ => s.rest.length) fun ts ps _ =>
      ∃ new, ps = done.toList ++ new ∧ ps.length ≤ maxArity ∧ Derives true .names ts new := by
  induction fuel generalizing done s with
  | zero => omega
  | succ fuel ih =>
    unfold parameters
    refine Reads.unless fun t ht => ?_
    refine Reads.bind_expect ?_
    intro name u hu hn
    refine Reads.bind_accept? ?_ ?_
    · intro comma v hv hc
      refine (ih _ v (by omega)).mono (fun _ => by omega) ?_
      rintro us ps _ ⟨new, rfl, hlen, hus⟩ _
      exact ⟨name :: new, by simp, hlen, .moreNames hn hc hus⟩
    · intro v hv _
      refine Reads.pure (by omega) ?_
      intro hlt
      exact ⟨[name], by simp, by rw [Array.length_toList, Array.size_push]; omega, .oneName hn⟩

theorem reads_lambda (h : Sound fuel) (hf : 16 * s.rest.length + 1 ≤ fuel + 1) :
    ReadsAs .function (lambda (fuel + 1)) s := by
  unfold lambda
  refine Reads.bind_expect ?_
  intro lp t ht hl
  refine Reads.bind (reads_unlessNext ((reads_parameters fuel #[] t (by omega)).mono (by simp)
    fun _ _ _ h => h)) ?_
  intro given u hu _
  refine Reads.bind_expect ?_
  intro rp v hv hr
  refine Reads.bind_expect ?_
  intro brace w hw hb
  refine Reads.bind (h.block w (by omega)) ?_
  intro ss x hx _
  refine Reads.bind_fresh ?_
  intro n y hy
  refine Reads.pure (by rw [hy]; omega) ?_
  intro us hus ts hts
  have hgiven : Derives true .parameters ts (given.getD []) := by
    cases given with
    | none =>
      subst hts
      exact .noParameters
    | some ps =>
      obtain ⟨new, rfl, hlen, hnew⟩ := hts
      exact .someParameters (by simpa using hnew) hlen
  simpa using Derives.function (n := n) hl hgiven hr hb hus

theorem reads_atom (h : Sound fuel) (hf : 16 * s.rest.length + 1 ≤ fuel + 1) :
    ReadsAs .primary (atom (fuel + 1)) s := by
  unfold atom
  refine Reads.bind_acceptMap? ?_ ?_
  · intro token a t ht ha
    unfold atomAt? at ha
    split at ha <;> cases ha
    case h_1 | h_2 | h_3 | h_4 | h_6 =>
      refine Reads.bind_fresh ?_
      intro n u hu
      refine Reads.pure (by rw [hu]; omega) ?_
      constructor
      assumption
    case h_5 hk =>
      refine Reads.bind_fresh ?_
      intro n u hu
      exact Reads.pure (by rw [hu]; omega) (.string hk)
    case h_7 hk =>
      refine Reads.bind (h.lambda t (by omega)) ?_
      intro f u hu _
      refine Reads.pure (by omega) ?_
      intro ts hts
      simpa using Derives.lambda hk hts
    case h_8 hk =>
      refine Reads.bind (h.expression t (by omega)) ?_
      intro e u hu _
      refine Reads.bind_expect ?_
      intro rp v hv hr
      refine Reads.bind_fresh ?_
      intro n w hw
      refine Reads.pure (by rw [hw]; omega) ?_
      intro ts hts
      simpa using Derives.group hk hts hr
  · intro t _ _
    exact reads_missing

theorem reads_block (h : Sound fuel) (hf : 16 * s.rest.length + 13 ≤ fuel + 1) :
    ReadsAs .block (block (fuel + 1)) s := by
  unfold block
  refine Reads.bind (h.declarations true #[] s (by omega)) ?_
  intro ss t ht _
  refine Reads.bind_expect ?_
  intro brace u hu hb
  refine Reads.pure (by omega) ?_
  rintro ts ⟨new, rfl, hnew, -⟩
  simpa using Derives.braced hnew hb

/-- A statement says whether it ends open for an `else`. -/
theorem reads_statement (h : Sound fuel) (hf : 16 * s.rest.length + 10 ≤ fuel + 1) :
    ReadsStatement (statement (fuel + 1)) s := by
  have he : ∀ t, t.rest.length ≤ s.rest.length → ReadsAs .expression (expression fuel) t :=
    fun t ht => h.expression t (by omega)
  have hb : ∀ t, t.rest.length < s.rest.length → ReadsStatement (statement fuel) t :=
    fun t ht => h.statement t (by omega)
  unfold statement
  refine Reads.bind_acceptMap? ?_ ?_
  · rintro token ⟨opening, other⟩ t ht ho
    unfold openingAt? at ho
    split at ho <;> cases ho
    case h_1 hk =>
      exact (reads_countingLoop hk (fun u hu => he u (by omega)) fun u hu => hb u (by omega)).mono
        (fun _ => by omega) fun _ _ _ h => h
    case h_2 hk =>
      exact (reads_branch hk (fun u hu => he u (by omega)) fun u hu => hb u (by omega)).mono
        (fun _ => by omega) fun _ _ _ h => h
    case h_3 hk =>
      exact (reads_print hk (he t (by omega))).mono (fun _ => by omega)
        fun _ _ _ h => ⟨false, h, by simp⟩
    case h_4 hk =>
      exact (reads_giveBack hk (he t (by omega))).mono (fun _ => by omega)
        fun _ _ _ h => ⟨false, h, by simp⟩
    case h_5 hk =>
      exact (reads_loop hk (fun u hu => he u (by omega)) fun u hu => hb u (by omega)).mono
        (fun _ => by omega) fun _ _ _ h => h
    case h_6 hk =>
      exact (reads_breakLoop hk).mono (fun _ => by omega) fun _ _ _ h => ⟨false, h, by simp⟩
    case h_7 hk =>
      refine Reads.bind (h.block t (by omega)) ?_
      intro ss u hu _
      refine Reads.pure (by omega) ?_
      intro ts hts
      exact ⟨false, by simpa using Derives.block hk hts, by simp⟩
  · intro t ht _
    refine (reads_expressionStatement (he t (by omega))).mono (fun _ => by omega) ?_
    rintro _ _ _ ⟨us, a, semi, ha, hk, rfl, rfl⟩
    exact ⟨false, .evaluate ha hk, by simp⟩

/-- A declaration without `fun` and a name at its beginning. -/
theorem reads_plain (h : Sound fuel) (hf : 16 * s.rest.length + 11 ≤ fuel + 1) :
    ReadsAs .declaration (do
      match ← accept? .kwVar with
      | some _ => varDeclaration (expression fuel)
      | none => statement fuel) s := by
  refine Reads.bind_accept? ?_ ?_
  · intro var t ht hk
    have hvar := reads_varDeclaration (s := t) fun u hu => h.expression u (by omega)
    refine hvar.mono (fun _ => by omega) ?_
    intro ts a _ hts
    exact .declared hk hts
  · intro t ht _
    refine (h.statement t (by omega)).mono (fun _ => by omega) ?_
    rintro ts a _ ⟨d, hts, -⟩
    exact .plain hts

theorem reads_declaration (h : Sound fuel) (hs : s.rest ≠ [])
    (hf : 16 * s.rest.length + 11 ≤ fuel + 1) :
    Reads (declaration (fuel + 1)) s (fun _ => s.rest.length) fun ts a _ =>
      ∃ t, a = some t ∧ Derives true .declaration ts t := by
  have hplain := reads_plain h hf
  unfold declaration
  refine reads_recovering ?_ hs
  obtain ⟨rest, complaints, nextId⟩ := s
  rcases rest with _ | ⟨fn, _ | ⟨name, rest⟩⟩
  · contradiction
  · exact Reads.after [] rfl rfl rfl hplain
  · by_cases hk : fn.kind = .kwFun ∧ name.kind = .identifier
    · refine Reads.after (t := ⟨rest, complaints, nextId⟩)
        (p := do return .function name (← lambda fuel)) [fn, name] ?_ rfl rfl ?_
      · simp [Bind.bind, EStateM.bind, acceptFunctionName?, hk]
      · refine Reads.bind (h.lambda _ (by simp at hf ⊢; omega)) ?_
        intro f u hu _
        refine Reads.pure (by simp at hu ⊢; omega) ?_
        intro ts hts
        simpa using Derives.named hk.1 hk.2 hts
    · refine Reads.after [] ?_ rfl rfl hplain
      simp only [Bind.bind, EStateM.bind, acceptFunctionName?]
      rw [if_neg (by simpa using hk)]
      rfl

/-- Without complaints, declarations are read up to a brace or to the end of the tokens. -/
theorem reads_declarations (h : Sound fuel) (inBlock : Bool) (done : Array Stmt)
    (hf : 16 * s.rest.length + 12 ≤ fuel + 1) :
    Reads (declarations (fuel + 1) inBlock done) s (fun _ => s.rest.length + 1) fun ts ss rest =>
      ∃ new, ss = done.toList ++ new ∧ Derives true .declarations ts new ∧
        (inBlock = false → rest = []) := by
  unfold declarations
  refine Reads.bind_get ?_
  refine Reads.bind_check ?_
  split
  case isTrue hend =>
    refine Reads.pure (by omega) ⟨[], by simp, .nothing, ?_⟩
    rintro rfl
    simpa using hend
  case isFalse hend =>
    have hs : s.rest ≠ [] := fun he => hend (by simp [he])
    refine Reads.bind (h.declaration s hs (by omega)) ?_
    rintro (_ | a) t ht _
    · exact (h.declarations inBlock done t (by omega)).mono (fun _ => by omega) (by simp)
    · refine (h.declarations inBlock (done.push a) t (by omega)).mono (fun _ => by omega) ?_
      rintro us _ rest ⟨new, rfl, hnew, hrest⟩ ts ⟨b, hb, hts⟩
      cases hb
      exact ⟨a :: new, by simp, .next hts hnew, hrest⟩

theorem sound (fuel : Nat) : Sound fuel := by
  induction fuel with
  | zero =>
    constructor
    case chain =>
      intro level s hf
      have := level.rank_pos
      omega
    all_goals
      intros
      omega
  | succ fuel ih =>
    exact {
      expression := fun _ hf => reads_expression ih hf
      chain := fun level _ hf => reads_chain ih level hf
      chainRest := fun level left _ hf => reads_chainRest ih level left hf
      unary := fun _ hf => reads_unary ih hf
      calls := fun callee _ hf => reads_calls ih callee hf
      arguments := fun done _ hf => reads_arguments ih done hf
      atom := fun _ hf => reads_atom ih hf
      lambda := fun _ hf => reads_lambda ih hf
      block := fun _ hf => reads_block ih hf
      statement := fun _ hf => reads_statement ih hf
      declaration := fun _ hs hf => reads_declaration ih hs hf
      declarations := fun inBlock done _ hf => reads_declarations ih inBlock done hf }

end Lox.Parse
