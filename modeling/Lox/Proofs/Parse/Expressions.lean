import Lox.Proofs.Identity
import Lox.Proofs.Parse.Follow
import Lox.Proofs.Parse.Taking

/-! What the parsers of phrases owe the grammar, and that those of expressions and functions pay it.
-/
namespace Lox.Parse

open Grammar (Derives Phrase)

variable {p : Phrase} {ts us rest : List Token} {cs ds : List Complaint} {e : Expr} {level : Level}
  {fuel : Nat}

/-- Where `ts` stands before `rest`, the parser comes to its loop with `e` in hand, having
complained of `cs`. -/
def Leads (x : Parser Expr) (loop : Nat → Expr → Parser Expr) (ts rest : List Token)
    (cs : List Complaint) (e : Expr) : Prop :=
  ∀ s : State, s.rest = ts ++ rest → ∃ fuel a t, x s = loop fuel a t ∧
    16 * rest.length + 1 ≤ fuel ∧ t.rest = rest ∧
    t.complaints.toList = s.complaints.toList ++ cs ∧ a.bare = e.bare

/-- The parsers of a phrase take its tokens, complain of `cs` and build its tree, if what follows
does not go on with it and there is fuel enough. -/
def Complete : (p : Phrase) → List Token → List Complaint → p.Tree → Prop
  | .expression, ts, cs, e => ∀ fuel rest, Closed rest → 16 * (ts ++ rest).length + 9 ≤ fuel →
    Takes (expression fuel) ts rest cs (·.bare = e.bare)
  | .chain level, ts, cs, e => ∀ fuel rest, Stops (level.rank - 1) rest →
    16 * (ts ++ rest).length + level.rank ≤ fuel →
    Leads (chain fuel level) (chainRest · level) ts rest cs e
  | .operand level, ts, cs, e => ∀ fuel rest, Stops (level.rank - 1) rest →
    16 * (ts ++ rest).length + level.rank ≤ fuel + 1 →
    Takes (operandOf level (chain fuel) (unary fuel)) ts rest cs (·.bare = e.bare)
  | .unary, ts, cs, e => ∀ fuel rest, Stops 2 rest → 16 * (ts ++ rest).length + 2 ≤ fuel →
    Takes (unary fuel) ts rest cs (·.bare = e.bare)
  | .call, ts, cs, e => ∀ fuel rest, 16 * (ts ++ rest).length + 2 ≤ fuel →
    Leads (unary fuel) calls ts rest cs e
  | .primary, ts, cs, e => ∀ fuel rest, 16 * (ts ++ rest).length + 1 ≤ fuel →
    Takes (atom fuel) ts rest cs (·.bare = e.bare)
  | .arguments, ts, cs, es => ∀ fuel rest, (∃ t ∈ rest.head?, t.kind = .rightParen) →
    16 * (ts ++ rest).length + 10 ≤ fuel →
    Takes (unlessNext .rightParen (arguments fuel #[])) ts rest cs fun given =>
      Expr.bareAll (given.getD []) = Expr.bareAll es
  | .values, ts, cs, es => ∀ fuel rest done, done.size + es.length ≤ maxArity →
    (∃ t ∈ rest.head?, t.kind = .rightParen) → 16 * (ts ++ rest).length + 10 ≤ fuel →
    Takes (arguments fuel done) ts rest cs fun given =>
      ∃ new, given = done.toList ++ new ∧ Expr.bareAll new = Expr.bareAll es
  | .parameters, ts, cs, ps => ∀ fuel rest, (∃ t ∈ rest.head?, t.kind = .rightParen) →
    16 * (ts ++ rest).length + 1 ≤ fuel →
    Takes (unlessNext .rightParen (parameters fuel #[])) ts rest cs fun given => given.getD [] = ps
  | .names, ts, cs, ps => ∀ fuel rest done, done.size + ps.length ≤ maxArity →
    (∃ t ∈ rest.head?, t.kind = .rightParen) → 16 * (ts ++ rest).length + 1 ≤ fuel →
    Takes (parameters fuel done) ts rest cs (· = done.toList ++ ps)
  | .optional, ts, cs, a => ∀ fuel rest kind, kind = .semicolon ∨ kind = .rightParen →
    (∃ t ∈ rest.head?, t.kind = kind) → 16 * (ts ++ rest).length + 9 ≤ fuel →
    Takes (unlessNext kind (expression fuel)) ts rest cs fun b => Expr.bare? b = Expr.bare? a
  | .function, ts, cs, f => ∀ fuel rest, 16 * (ts ++ rest).length + 1 ≤ fuel →
    Takes (lambda fuel) ts rest cs (·.bare = f.bare)
  | .block, ts, cs, ss => ∀ fuel rest, 16 * (ts ++ rest).length + 13 ≤ fuel →
    Takes (block fuel) ts rest cs fun new => Stmt.bareAll new = Stmt.bareAll ss
  | .start, ts, cs, a => ∀ fuel rest, 16 * (ts ++ rest).length + 9 ≤ fuel →
    Takes (countingStart (expression fuel)) ts rest cs fun b => Stmt.bare? b = Stmt.bare? a
  | .binding, ts, cs, s => ∀ fuel rest, 16 * (ts ++ rest).length ≤ fuel →
    Takes (varDeclaration (expression fuel)) ts rest cs (·.bare = s.bare)
  | .statement d, ts, cs, s => ∀ fuel rest, (d = true → ∀ t ∈ rest.head?, t.kind ≠ .kwElse) →
    16 * (ts ++ rest).length + 10 ≤ fuel → Takes (statement fuel) ts rest cs (·.bare = s.bare)
  | .declaration, ts, cs, s => ∀ fuel rest, (∀ t ∈ rest.head?, t.kind ≠ .kwElse) →
    16 * (ts ++ rest).length + 11 ≤ fuel →
    Takes (declaration fuel) ts rest cs fun a => ∃ t, a = some t ∧ t.bare = s.bare
  | .declarations, ts, cs, ss => ∀ fuel rest inBlock done,
    (rest = [] ∨ inBlock = true ∧ ∃ t ∈ rest.head?, t.kind = .rightBrace) →
    16 * (ts ++ rest).length + 12 ≤ fuel →
    Takes (declarations fuel inBlock done) ts rest cs fun new =>
      ∃ more, new = done.toList ++ more ∧ Stmt.bareAll more = Stmt.bareAll ss

theorem chainRest_stop {a : Expr} {s : State} (h : Stops level.rank s.rest) (hf : 1 ≤ fuel) :
    chainRest fuel level a s = .ok a s := by
  obtain ⟨fuel, rfl⟩ := Nat.exists_eq_add_of_le' hf
  have hnone : acceptMap? level.operatorAt? s = .ok none s :=
    acceptMap?_none fun t ht => by simp [Level.operatorAt?, (h t ht).2 level (Nat.le_refl _)]
  simp [chainRest, Bind.bind, EStateM.bind, hnone, Pure.pure, EStateM.pure]

theorem calls_stop {a : Expr} {s : State} (h : Stops 2 s.rest) (hf : 1 ≤ fuel) :
    calls fuel a s = .ok a s := by
  obtain ⟨fuel, rfl⟩ := Nat.exists_eq_add_of_le' hf
  have hnone : accept? .leftParen s = .ok none s :=
    acceptMap?_none fun t ht => by simp [(h t ht).1]
  simp [calls, Bind.bind, EStateM.bind, hnone, Pure.pure, EStateM.pure]

/-- Operators of a level are taken up to where none of it follows. -/
theorem Complete.takes_chain (h : Complete (.chain level) ts cs e) (hs : Stops level.rank rest)
    (hf : 16 * (ts ++ rest).length + level.rank ≤ fuel) :
    Takes (chain fuel level) ts rest cs (·.bare = e.bare) := by
  intro s hrest
  obtain ⟨f, a, t, hx, hf', ht, hc, ha⟩ := h fuel rest (hs.mono (by omega)) hf s hrest
  exact ⟨a, t, hx.trans (chainRest_stop (ht ▸ hs) (by omega)), ht, hc, ha⟩

/-- Calls are taken up to where no parenthesis opens. -/
theorem Complete.takes_call (h : Complete .call ts cs e) (hs : Stops 2 rest)
    (hf : 16 * (ts ++ rest).length + 2 ≤ fuel) :
    Takes (unary fuel) ts rest cs (·.bare = e.bare) := by
  intro s hrest
  obtain ⟨f, a, t, hx, hf', ht, hc, ha⟩ := h fuel rest hf s hrest
  exact ⟨a, t, hx.trans (calls_stop (ht ▸ hs) (by omega)), ht, hc, ha⟩

theorem complete_single (h : Complete (.operand level) ts cs e) (hb : BeginsUnary ts) :
    Complete (.chain level) ts cs e := by
  intro fuel rest hs hf s hrest
  have hrank := level.rank_pos
  obtain ⟨fuel, rfl⟩ := Nat.exists_eq_add_of_le' (show 1 ≤ fuel by omega)
  obtain ⟨a, t, hx, ht, hc, ha⟩ := h fuel rest hs hf s hrest
  refine ⟨fuel, a, t, ?_, ?_, ht, hc, ha⟩
  · simp [chain, Bind.bind, EStateM.bind, hx]
  · obtain ⟨_, _, rfl, -⟩ := hb
    simp only [List.cons_append, List.length_cons, List.length_append] at hf
    omega

theorem bare_combine {l r l' r' : Expr} {op : LogicalOp ⊕ BinaryOp} {token : Token}
    {m n : NodeId} (hl : l.bare = l'.bare) (hr : r.bare = r'.bare) :
    (combine m l op token r).bare = (combine n l' op token r').bare := by
  cases op <;> simp [combine, Expr.bare, hl, hr]

/-- One more operand makes a longer chain, with the operator over both. -/
theorem complete_combine {l r : Expr} {op : LogicalOp ⊕ BinaryOp} {token : Token} {n : NodeId}
    (hl : Complete (.chain level) ts cs l) (ho : level.operator? token.kind = some op)
    (hr : Complete (.operand level) us ds r) :
    Complete (.chain level) (ts ++ token :: us) (cs ++ ds) (combine n l op token r) := by
  intro fuel rest hs hf s hrest
  simp only [List.length_append, List.length_cons] at hf
  obtain ⟨f, a, t, hx, hf', ht, hc, ha⟩ := hl fuel (token :: (us ++ rest)) (stops_operator ho)
    (by simp only [List.length_append, List.length_cons]; omega) s (by simpa using hrest)
  simp only [List.length_append, List.length_cons] at hf'
  obtain ⟨f, rfl⟩ := Nat.exists_eq_add_of_le' (show 1 ≤ f by omega)
  have hop : acceptMap? level.operatorAt? t =
      .ok (some (op, token)) { t with rest := us ++ rest } := by
    simp [acceptMap?, ht, Level.operatorAt?, ho]
  have hrank : level.rank ≤ 8 := by cases level <;> decide
  obtain ⟨b, u, hy, hu, hc', hb⟩ := hr f rest hs
    (by simp only [List.length_append]; omega) { t with rest := us ++ rest } rfl
  refine ⟨f, combine u.nextId a op token b, { u with nextId := u.nextId + 1 }, ?_, by omega, hu,
    by simp [hc', hc], bare_combine ha hb⟩
  rw [hx]
  simp [chainRest, Bind.bind, EStateM.bind, hop, hy, fresh]

theorem complete_tighter {tight : Level} (ht : Grammar.Tighter level tight)
    (h : Complete (.chain tight) ts cs e) : Complete (.operand level) ts cs e := by
  intro fuel rest hs hf
  cases ht <;> exact h.takes_chain hs (by simp only [Level.rank] at hf ⊢; omega)

theorem complete_tightest (h : Complete .unary ts cs e) : Complete (.operand .factor) ts cs e := by
  intro fuel rest hs hf
  exact h fuel rest hs (by simp only [Level.rank] at hf; omega)

theorem complete_unary {token : Token} {op : UnaryOp} {n : NodeId}
    (ho : unaryAt? token = some (op, token)) (h : Complete .unary ts cs e) :
    Complete .unary (token :: ts) cs (.unary n op token e) := by
  intro fuel rest hs hf
  simp only [List.cons_append, List.length_cons] at hf
  obtain ⟨fuel, rfl⟩ := Nat.exists_eq_add_of_le' (show 1 ≤ fuel by omega)
  unfold unary
  refine Takes.bind_acceptMap? ho ?_
  refine Takes.bind_last (h fuel rest hs (by omega)) ?_
  intro a ha
  refine Takes.bind_fresh fun m => ?_
  exact Takes.pure (by simp [Expr.bare, ha])

theorem complete_uncalled (h : Complete .primary ts cs e) (hb : BeginsPrimary ts) :
    Complete .call ts cs e := by
  intro fuel rest hf s hrest
  obtain ⟨fuel, rfl⟩ := Nat.exists_eq_add_of_le' (show 1 ≤ fuel by omega)
  obtain ⟨a, t, hx, ht, hc, ha⟩ := h fuel rest (by omega) s hrest
  obtain ⟨token, vs, rfl, htoken, -⟩ := hb
  have hnone : acceptMap? unaryAt? s = .ok none s := by
    refine acceptMap?_none ?_
    rw [hrest]
    rintro _ ⟨⟩
    revert htoken
    unfold atomAt? unaryAt?
    cases token.kind <;> simp
  refine ⟨fuel, a, t, ?_, ?_, ht, hc, ha⟩
  · simp [unary, Bind.bind, EStateM.bind, hnone, hx]
  · simp only [List.cons_append, List.length_cons, List.length_append] at hf
    omega

/-- One more list of arguments makes a call of a call. -/
theorem complete_call {lp rp : Token} {es : List Expr} {n : NodeId} (h : Complete .call ts cs e)
    (hl : lp.kind = .leftParen) (ha : Complete .arguments us ds es) (hr : rp.kind = .rightParen) :
    Complete .call (ts ++ lp :: (us ++ [rp])) (cs ++ ds) (.call n e rp es) := by
  intro fuel rest hf s hrest
  simp only [List.length_append, List.length_cons, List.length_nil] at hf
  obtain ⟨f, a, t, hx, hf', ht, hc, hae⟩ := h fuel (lp :: (us ++ rp :: rest))
    (by simp only [List.length_append, List.length_cons]; omega) s (by simpa using hrest)
  simp only [List.length_append, List.length_cons] at hf'
  obtain ⟨f, rfl⟩ := Nat.exists_eq_add_of_le' (show 1 ≤ f by omega)
  have hlp : accept? .leftParen t = .ok (some lp) { t with rest := us ++ rp :: rest } := by
    simp [accept?, acceptMap?, ht, hl]
  obtain ⟨given, u, hy, hu, hc', hg⟩ := ha f (rp :: rest) ⟨rp, rfl, hr⟩
    (by simp only [List.length_append, List.length_cons]; omega)
    { t with rest := us ++ rp :: rest } rfl
  have hrp : expect .rightParen .argumentsClose u = .ok rp { u with rest } := by
    simp [expect, accept?, acceptMap?, hu, hr, Bind.bind, EStateM.bind, Pure.pure, EStateM.pure]
  refine ⟨f, .call u.nextId a rp (given.getD []), { u with rest, nextId := u.nextId + 1 }, ?_,
    by omega, rfl, by simp [hc', hc], by simp [Expr.bare, hae, hg]⟩
  rw [hx]
  simp [calls, Bind.bind, EStateM.bind, hlp, hy, hrp, fresh]

theorem complete_literal {token : Token} {value : Literal} {n : NodeId}
    (h : atomAt? token = some (.literal value)) :
    Complete .primary [token] [] (.literal n value) := by
  intro fuel rest hf
  obtain ⟨fuel, rfl⟩ := Nat.exists_eq_add_of_le' (show 1 ≤ fuel by omega)
  unfold atom
  refine Takes.bind_acceptMap? h ?_
  exact Takes.bind_fresh fun m => Takes.pure (by simp [Expr.bare])

theorem complete_reference {token : Token} {n : NodeId} (h : token.kind = .identifier) :
    Complete .primary [token] [] (.reference n token) := by
  intro fuel rest hf
  obtain ⟨fuel, rfl⟩ := Nat.exists_eq_add_of_le' (show 1 ≤ fuel by omega)
  unfold atom
  refine Takes.bind_acceptMap? (c := .name token) (by simp [atomAt?, h]) ?_
  exact Takes.bind_fresh fun m => Takes.pure (by simp [Expr.bare])

theorem complete_lambda {token : Token} {f : Lambda} (hk : token.kind = .kwFun)
    (h : Complete .function ts cs f) : Complete .primary (token :: ts) cs (.lambda f) := by
  intro fuel rest hf
  simp only [List.cons_append, List.length_cons] at hf
  obtain ⟨fuel, rfl⟩ := Nat.exists_eq_add_of_le' (show 1 ≤ fuel by omega)
  unfold atom
  refine Takes.bind_acceptMap? (c := .lambda) (by simp [atomAt?, hk]) ?_
  refine Takes.bind_last (h fuel rest (by omega)) ?_
  intro a ha
  exact Takes.pure (by simp [Expr.bare, ha])

theorem complete_group {lp rp : Token} {n : NodeId} (hl : lp.kind = .leftParen)
    (h : Complete .expression ts cs e) (hr : rp.kind = .rightParen) :
    Complete .primary (lp :: (ts ++ [rp])) cs (.group n e) := by
  intro fuel rest hf
  simp only [List.cons_append, List.length_cons, List.length_append, List.length_nil] at hf
  obtain ⟨fuel, rfl⟩ := Nat.exists_eq_add_of_le' (show 1 ≤ fuel by omega)
  unfold atom
  refine Takes.bind_acceptMap? (c := .group) (by simp [atomAt?, hl]) ?_
  refine Takes.bind_quiet (h fuel (rp :: rest) (closed_cons (by simp [hr]))
    (by simp only [List.length_append, List.length_cons]; omega)) ?_
  intro a ha
  refine Takes.bind_expect hr ?_
  exact Takes.bind_fresh fun m => Takes.pure (by simp [Expr.bare, ha])

/-- A bare name is read at every level of operators. -/
theorem complete_name {name : Token} (hn : name.kind = .identifier) (n : NodeId) :
    Complete (.chain level) [name] [] (.reference n name) := by
  have hb : BeginsPrimary [name] := ⟨name, [], rfl, by simp [atomAt?, hn], by simp [hn]⟩
  have factor : Complete (.chain .factor) [name] [] (.reference n name) :=
    complete_single (complete_tightest fun _ _ hs hf =>
      (complete_uncalled (complete_reference hn) hb).takes_call hs hf) hb.unary
  have term := complete_single (complete_tighter .term factor) hb.unary
  have comparison := complete_single (complete_tighter .comparison term) hb.unary
  have equality := complete_single (complete_tighter .equality comparison) hb.unary
  have and := complete_single (complete_tighter .and equality) hb.unary
  cases level with
  | or => exact complete_single (complete_tighter .or and) hb.unary
  | and => exact and
  | equality => exact equality
  | comparison => exact comparison
  | term => exact term
  | factor => exact factor

theorem complete_loosest (h : Complete (.chain .or) ts cs e) : Complete .expression ts cs e := by
  intro fuel rest hs hf
  obtain ⟨fuel, rfl⟩ := Nat.exists_eq_add_of_le' (show 1 ≤ fuel by omega)
  unfold expression
  refine Takes.bind_last (h.takes_chain hs.1 (by simp only [Level.rank]; omega)) ?_
  intro a ha
  exact Takes.bind_accept?_none hs.2 (Takes.pure ha)

theorem complete_assign {name equal : Token} {n : NodeId} (hn : name.kind = .identifier)
    (hq : equal.kind = .equal) (h : Complete .expression ts cs e) :
    Complete .expression (name :: equal :: ts) cs (.assign n name e) := by
  intro fuel rest hs hf
  simp only [List.cons_append, List.length_cons] at hf
  obtain ⟨fuel, rfl⟩ := Nat.exists_eq_add_of_le' (show 1 ≤ fuel by omega)
  unfold expression
  change Takes _ ([name] ++ equal :: ts) rest ([] ++ cs) _
  refine Takes.bind ((complete_name hn n).takes_chain (stops_equal hq) ?_) ?_
  · simp only [Level.rank, List.length_append, List.length_cons, List.length_nil] at hf ⊢
    omega
  intro a ha
  refine Takes.bind_accept? hq ?_
  refine Takes.bind_last (h fuel rest hs (by omega)) ?_
  intro value hv
  cases a <;> simp only [Expr.bare, reduceCtorEq] at ha
  cases ha
  exact Takes.bind_fresh fun m => Takes.pure (by simp [Expr.bare, hv])

theorem takes_not_begin {kind : TokenKind} {ts rest : List Token} (hb : BeginsUnary ts)
    (hk : kind = .semicolon ∨ kind = .rightParen) :
    ∀ token ∈ (ts ++ rest).head?, token.kind ≠ kind := by
  obtain ⟨t, us, rfl, ha, -⟩ := hb
  rintro _ ⟨⟩ rfl
  rcases hk with hk | hk <;> simp [atomAt?, unaryAt?, hk] at ha

theorem complete_present (h : Complete .expression ts cs e) (hb : BeginsUnary ts) :
    Complete .optional ts cs (some e) := by
  rintro fuel rest kind hk ⟨t, ht, hkind⟩ hf
  have hclosed : Closed rest := by
    obtain ⟨rest, rfl⟩ : ∃ us, rest = t :: us := by
      cases rest <;> simp_all
    exact closed_cons (by rcases hk with rfl | rfl <;> simp [hkind])
  refine (takes_unlessNext_some (takes_not_begin hb hk) (h fuel rest hclosed hf)).mono ?_
  rintro _ ⟨a, rfl, ha⟩
  simp [Expr.bare?, ha]

theorem complete_someArguments {es : List Expr} (h : Complete .values ts cs es)
    (hl : es.length ≤ maxArity) (hb : BeginsUnary ts) : Complete .arguments ts cs es := by
  intro fuel rest hr hf
  refine (takes_unlessNext_some (takes_not_begin hb (by simp))
    (h fuel rest #[] (by simpa using hl) hr hf)).mono ?_
  rintro _ ⟨_, rfl, new, rfl, ha⟩
  simpa using ha

theorem complete_oneValue (h : Complete .expression ts cs e) : Complete .values ts cs [e] := by
  rintro fuel rest done hd ⟨t, ht, hk⟩ hf
  obtain ⟨fuel, rfl⟩ := Nat.exists_eq_add_of_le' (show 1 ≤ fuel by omega)
  obtain ⟨rest, rfl⟩ : ∃ us, rest = t :: us := by cases rest <;> simp_all
  simp only [List.length_cons, List.length_nil] at hd
  unfold arguments
  rw [if_neg (by omega)]
  refine Takes.bind_last (h fuel _ (closed_cons (by simp [hk])) (by simp at hf ⊢; omega)) ?_
  intro a ha
  refine Takes.bind_accept?_none (by simp [hk]) ?_
  exact Takes.pure ⟨[a], by simp, by simp [Expr.bareAll, ha]⟩

theorem complete_moreValues {comma : Token} {es : List Expr} (h : Complete .expression ts cs e)
    (hc : comma.kind = .comma) (hs : Complete .values us ds es) :
    Complete .values (ts ++ comma :: us) (cs ++ ds) (e :: es) := by
  intro fuel rest done hd hr hf
  obtain ⟨fuel, rfl⟩ := Nat.exists_eq_add_of_le' (show 1 ≤ fuel by omega)
  simp only [List.length_cons] at hd
  simp only [List.length_cons, List.length_append] at hf
  unfold arguments
  rw [if_neg (by omega)]
  refine Takes.bind (h fuel _ (closed_cons (by simp [hc])) (by simp; omega)) ?_
  intro a ha
  refine Takes.bind_accept? hc ?_
  refine (hs fuel rest (done.push a) (by simp; omega) hr (by simp; omega)).mono ?_
  rintro _ ⟨new, rfl, hnew⟩
  exact ⟨a :: new, by simp, by simp [Expr.bareAll, ha, hnew]⟩

theorem complete_someParameters {ps : List Token} (h : Complete .names ts cs ps)
    (hl : ps.length ≤ maxArity) (hb : ∃ t us, ts = t :: us ∧ t.kind = .identifier) :
    Complete .parameters ts cs ps := by
  obtain ⟨t, us, rfl, hk⟩ := hb
  intro fuel rest hr hf
  refine (takes_unlessNext_some (by simp [hk]) (h fuel rest #[] (by simpa using hl) hr hf)).mono ?_
  rintro _ ⟨_, rfl, rfl⟩
  simp

theorem complete_oneName {name : Token} (hn : name.kind = .identifier) :
    Complete .names [name] [] [name] := by
  rintro fuel rest done hd ⟨t, ht, hk⟩ hf
  obtain ⟨fuel, rfl⟩ := Nat.exists_eq_add_of_le' (show 1 ≤ fuel by omega)
  simp only [List.length_cons, List.length_nil] at hd
  unfold parameters
  rw [if_neg (by omega)]
  refine Takes.bind_expect hn ?_
  refine Takes.bind_accept?_none ?_ (Takes.pure (by simp))
  intro u hu
  cases (Option.mem_unique ht hu)
  simp [hk]

theorem complete_moreNames {name comma : Token} {ps : List Token} (hn : name.kind = .identifier)
    (hc : comma.kind = .comma) (h : Complete .names ts cs ps) :
    Complete .names (name :: comma :: ts) cs (name :: ps) := by
  intro fuel rest done hd hr hf
  obtain ⟨fuel, rfl⟩ := Nat.exists_eq_add_of_le' (show 1 ≤ fuel by omega)
  simp only [List.length_cons] at hd
  simp only [List.length_cons, List.cons_append] at hf
  unfold parameters
  rw [if_neg (by omega)]
  refine Takes.bind_expect hn ?_
  refine Takes.bind_accept? hc ?_
  refine (h fuel rest (done.push name) (by simp; omega) hr (by omega)).mono ?_
  rintro _ rfl
  simp

/-- A function is its parameters in parentheses and a block. -/
theorem complete_function {lp rp brace : Token} {ps : List Token} {ss : List Stmt} {n : NodeId}
    (hl : lp.kind = .leftParen) (hp : Complete .parameters ts cs ps) (hr : rp.kind = .rightParen)
    (hk : brace.kind = .leftBrace) (hb : Complete .block us ds ss) :
    Complete .function (lp :: (ts ++ rp :: brace :: us)) (cs ++ ds) (.mk n ps ss) := by
  intro fuel rest hf
  simp only [List.cons_append, List.length_cons, List.length_append] at hf
  obtain ⟨fuel, rfl⟩ := Nat.exists_eq_add_of_le' (show 1 ≤ fuel by omega)
  unfold lambda
  refine Takes.bind_expect hl ?_
  refine Takes.bind (hp fuel _ ⟨rp, rfl, hr⟩ (by simp; omega)) ?_
  rintro given hgiven
  refine Takes.bind_expect hr ?_
  refine Takes.bind_expect hk ?_
  refine Takes.bind_last (hb fuel rest (by simp; omega)) ?_
  intro body hbody
  exact Takes.bind_fresh fun m => Takes.pure (by simp [Lambda.bare, hgiven, hbody])

end Lox.Parse
