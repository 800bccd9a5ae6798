import Lox.Proofs.Parse.Follow
import Lox.Proofs.Parse.Residual

/-! Every parser goes on from what its phrase and the tokens after it may be to what may come after
it, or puts the blame on the first token that cannot come. -/
namespace Lox.Parse

open Relaxed (Rule Phrase)
open Relaxed.Rule (token phrase maybe many)

variable {s : State} {t : Token} {kind : TokenKind} {K P Q : Language Token}
  {e : Parser Expr} {body : Parser Stmt} {keyword : Token} {level : Level} {fuel : Nat}

/-- What may come after a phrase: something, and nothing that a condition excludes. -/
structure Fits (ahead : List Token → Prop) (K : Language Token) : Prop where
  live : Live K
  ahead : ∀ w ∈ K, ahead w

theorem fits_token {ahead : List Token → Prop} (hQ : Live Q)
    (h : ∀ t us, t.kind = kind → ahead (t :: us)) : Fits ahead ((token kind).words * Q) := by
  refine ⟨live_mul.mpr hQ, fun w hw => ?_⟩
  obtain ⟨t, us, rfl, hk, -⟩ := mem_token_mul.mp hw
  exact h t us hk

theorem Fits.mono {ahead ahead' : List Token → Prop} (h : Fits ahead K)
    (himp : ∀ w, ahead w → ahead' w) : Fits ahead' K := ⟨h.live, fun w hw => himp w (h.ahead w hw)⟩

/-- What may come before more of the same may come after it. -/
theorem fits_many {ahead : List Token → Prop} {a : Rule} (ha : a.nullable = false)
    (hfirst : ∀ t us, t.kind ∈ a.first → ahead (t :: us)) (h : Fits ahead K) :
    Fits ahead ((many a).words * K) := by
  refine ⟨live_mul.mpr h.live, fun w hw => ?_⟩
  rw [Relaxed.words_many, add_mul, one_mul, mul_assoc] at hw
  rcases hw with hw | hw
  · exact h.ahead w hw
  · obtain ⟨t, us, rfl, ht⟩ := head_of_mem ha hw
    exact hfirst t us ht

theorem fits_semicolon (hQ : Live Q) : Fits Closed ((token .semicolon).words * Q) :=
  fits_token hQ fun _ _ hk => closed_cons (.inl hk)

theorem fits_rightParen (hQ : Live Q) : Fits Closed ((token .rightParen).words * Q) :=
  fits_token hQ fun _ _ hk => closed_cons (.inr (.inl hk))

theorem quotient_le {R : Language Token} (h : ∀ w ∈ K, w.head? ≠ some t) :
    K.leftQuotient [t] ≤ R := fun _ hw => absurd rfl (h _ hw)

/-- A token that a rule does not begin with leads nowhere through it. -/
theorem quotient_rule_le {a : Rule} {R : Language Token} (ha : a.nullable = false)
    (ht : t.kind ∉ a.first) : (a.words * Q).leftQuotient [t] ≤ R := by
  rw [quotient_rule ha ht]
  exact bot_le

abbrev TracksExpression (e : Parser Expr) : Prop :=
  ∀ s K, Fits Closed K → Tracks e s ((phrase .expression).words * K) K

/-- What may come after a statement: where it begins with `else`, it goes on as a branch can. -/
def Absorbs (K : Language Token) : Prop :=
  ∀ t : Token, t.kind = .kwElse → K.leftQuotient [t] ≤ (phrase .statement).words * K

abbrev TracksStatement (body : Parser Stmt) : Prop :=
  ∀ s K, Live K → Absorbs K → Tracks body s ((phrase .statement).words * K) K

section Statements

theorem tracks_expressionStatement (he : TracksExpression e) (hK : Live K) :
    Tracks (expressionStatement e) s
      ((phrase .expression).words * ((token .semicolon).words * K)) K :=
  Tracks.bind (he _ _ (fits_semicolon hK)) fun _ _ =>
    Tracks.bind_expect hK fun _ _ => Tracks.pure

theorem tracks_varDeclaration (he : TracksExpression e) (hK : Live K) :
    Tracks (varDeclaration e) s ((phrase .binding).words * K) K := by
  rw [Relaxed.words_phrase, Relaxed.rule]
  simp only [Relaxed.words_mul, Relaxed.words_maybe, add_mul, one_mul, mul_assoc]
  have hsemicolon : Live ((token .semicolon).words * K) := live_mul.mpr hK
  refine Tracks.bind_expect (hsemicolon.right _) fun name t => ?_
  refine Tracks.bind (Q := (token .semicolon).words * K) ?_ fun _ _ =>
    Tracks.bind_expect hK fun _ _ => Tracks.pure
  refine Tracks.bind_accept?_or ?_ ?_ fun u _ _ => Tracks.pure
  · exact fun t ht => quotient_rule_le rfl (by simp [Rule.first, ht])
  · exact fun _ u => Tracks.bind (he u _ (fits_semicolon hK)) fun _ _ => Tracks.pure

theorem tracks_countingStart (he : TracksExpression e) (hK : Live K) :
    Tracks (countingStart e) s ((token .semicolon).words * K +
      ((token .kwVar).words * ((phrase .binding).words * K) +
        (phrase .expression).words * ((token .semicolon).words * K))) K := by
  refine Tracks.bind_accept?_or ?_ (fun _ _ => Tracks.pure) fun _ _ _ => ?_
  · intro t ht
    rw [quotient_add]
    refine add_le_iff.mpr ⟨quotient_rule_le rfl ?_, quotient_rule_le rfl ?_⟩ <;>
      simp [Rule.first, Phrase.first, Relaxed.atoms, ht]
  refine Tracks.bind_accept?_or ?_ ?_ fun u _ _ => ?_
  · exact fun t ht => quotient_rule_le rfl (by simp [Rule.first, Phrase.first, Relaxed.atoms, ht])
  · exact fun _ u => Tracks.bind (tracks_varDeclaration he hK) fun _ _ => Tracks.pure
  · exact Tracks.bind (tracks_expressionStatement he hK) fun _ _ => Tracks.pure

/-- The header of a `for` in the order of its clauses, any of which may be missing. -/
theorem tracks_countingLoop (hk : t.kind = .kwFor) (he : TracksExpression e)
    (hbody : TracksStatement body) (hK : Live K) (ha : Absorbs K) :
    Tracks (countingLoop keyword e body) s (((phrase .counting).words * K).leftQuotient [t]) K := by
  rw [Relaxed.words_phrase, Relaxed.rule]
  simp only [Relaxed.words_mul, Relaxed.words_add, add_mul, mul_assoc, quotient_of_kind hk]
  refine Tracks.bind_expect ?_ fun _ _ => ?_
  · exact Live.right _ (by simp [hK])
  rw [add_assoc]
  refine Tracks.bind (tracks_countingStart he (by simp [hK])) fun initial u => ?_
  refine Tracks.bind (tracks_unlessNext rfl (by decide) fun t => he t _ ?_) fun condition v => ?_
  · exact fits_semicolon (by simp [hK])
  refine Tracks.bind_expect (by simp [hK]) fun _ v => ?_
  refine Tracks.bind (tracks_unlessNext rfl (by decide) fun t => he t _ ?_) fun step v => ?_
  · exact fits_rightParen (by simp [hK])
  refine Tracks.bind_expect (by simp [hK]) fun _ v => ?_
  refine Tracks.bind (hbody v K hK ha) fun _ w => ?_
  cases condition with
  | some condition => exact Tracks.pure
  | none =>
    simp only [bind_assoc]
    exact Tracks.bind_fresh fun _ _ => Tracks.pure

/-- What may come after a branch may come after its statement, and so may an `else`. -/
theorem Absorbs.maybe (h : Absorbs K) :
    Absorbs ((token .kwElse).words * ((phrase .statement).words * K) + K) := by
  intro t ht
  have hmono : (phrase .statement).words * K ≤ (phrase .statement).words *
      ((token .kwElse).words * ((phrase .statement).words * K) + K) :=
    mul_le_mul_right (le_add_of_nonneg_left bot_le) _
  rw [quotient_add, quotient_of_kind ht]
  rintro w (hw | hw)
  · exact hmono hw
  · exact hmono (h t ht hw)

/-- An `else` is taken by the innermost `if`, which loses no program where what follows absorbs it.
-/
theorem tracks_branch (hk : t.kind = .kwIf) (he : TracksExpression e)
    (hbody : TracksStatement body) (hK : Live K) (ha : Absorbs K) :
    Tracks (branch keyword e body) s (((phrase .branch).words * K).leftQuotient [t]) K := by
  rw [Relaxed.words_phrase, Relaxed.rule]
  simp only [Relaxed.words_mul, Relaxed.words_maybe, add_mul, one_mul, mul_assoc,
    quotient_of_kind hk]
  have hlive : Live ((token .kwElse).words * ((phrase .statement).words * K) + K) := hK.right _
  refine Tracks.bind_expect (by simp [hlive]) fun _ u => ?_
  refine Tracks.bind (he u _ (fits_rightParen (by simp [hlive]))) fun condition v => ?_
  refine Tracks.bind_expect (by simp [hlive]) fun _ v => ?_
  refine Tracks.bind (hbody v _ hlive ha.maybe) fun yes w => ?_
  refine Tracks.bind (Q := K) ?_ fun _ _ => Tracks.pure
  refine Tracks.bind_accept?_or ha ?_ fun _ _ _ => Tracks.pure
  exact fun _ u => Tracks.bind (hbody u K hK ha) fun _ _ => Tracks.pure

theorem tracks_loop (hk : t.kind = .kwWhile) (he : TracksExpression e)
    (hbody : TracksStatement body) (hK : Live K) (ha : Absorbs K) :
    Tracks (loop keyword e body) s (((phrase .loop).words * K).leftQuotient [t]) K := by
  rw [Relaxed.words_phrase, Relaxed.rule]
  simp only [Relaxed.words_mul, mul_assoc, quotient_of_kind hk]
  refine Tracks.bind_expect (by simp [hK]) fun _ u => ?_
  refine Tracks.bind (he u _ (fits_rightParen (by simp [hK]))) fun condition v => ?_
  refine Tracks.bind_expect (by simp [hK]) fun _ v => ?_
  exact Tracks.bind (hbody v K hK ha) fun _ _ => Tracks.pure

theorem tracks_print (hk : t.kind = .kwPrint) (he : TracksExpression e) (hK : Live K) :
    Tracks (print e) s (((phrase .print).words * K).leftQuotient [t]) K := by
  rw [Relaxed.words_phrase, Relaxed.rule]
  simp only [Relaxed.words_mul, mul_assoc, quotient_of_kind hk]
  refine Tracks.bind (he s _ (fits_semicolon hK)) fun value u => ?_
  exact Tracks.bind_expect hK fun _ _ => Tracks.pure

theorem tracks_giveBack (hk : t.kind = .kwReturn) (he : TracksExpression e) (hK : Live K) :
    Tracks (giveBack keyword e) s (((phrase .giveBack).words * K).leftQuotient [t]) K := by
  rw [Relaxed.words_phrase, Relaxed.rule]
  simp only [Relaxed.words_mul, mul_assoc, quotient_of_kind hk]
  refine Tracks.bind (tracks_unlessNext rfl (by decide) fun t => he t _ (fits_semicolon hK)) ?_
  exact fun value u => Tracks.bind_expect hK fun _ _ => Tracks.pure

theorem tracks_breakLoop (hk : t.kind = .kwBreak) (hK : Live K) :
    Tracks (breakLoop keyword) s (((phrase .breakLoop).words * K).leftQuotient [t]) K := by
  rw [Relaxed.words_phrase, Relaxed.rule]
  simp only [Relaxed.words_mul, mul_assoc, quotient_of_kind hk]
  exact Tracks.bind_expect hK fun _ _ => Tracks.pure

end Statements

/-- The names after those that were read, and the parameters. -/
theorem tracks_parameters (fuel : Nat) : ∀ (done : Array Token) (s : State) (K : Language Token),
    Fits (fun w => ∀ t ∈ w.head?, t.kind ≠ .comma) K →
      Tracks (parameters fuel done) s ((phrase .parameters).words * K) K := by
  induction fuel with
  | zero => exact fun _ _ _ _ => Tracks.outOfFuel
  | succ fuel ih =>
    intro done s K hK
    have hnames := ih
    rw [Relaxed.words_phrase, Relaxed.rule] at hnames ⊢
    simp only [Relaxed.words_mul, mul_assoc] at hnames ⊢
    refine Tracks.unless rfl fun t => ?_
    refine Tracks.bind_expect (live_mul.mpr hK.live) fun name u => ?_
    rw [Relaxed.words_many, add_mul, one_mul, add_comm K, Relaxed.words_mul, mul_assoc, mul_assoc]
    refine Tracks.bind_accept?_or ?_ ?_ fun v _ _ => Tracks.pure
    · exact fun t ht => quotient_le fun w hw hhead => hK.ahead w hw t hhead ht
    · exact fun _ v => hnames _ v K hK

/-- Where declarations end: with the tokens or, in a block, before a closing brace. -/
def Stopped (inBlock : Bool) (rest : List Token) : Prop :=
  ∀ t ∈ rest.head?, inBlock = true ∧ t.kind = .rightBrace

/-- How the parsers go on that call each other with one unit of fuel less each time. -/
structure Tracking (fuel : Nat) : Prop where
  expression : TracksExpression (expression fuel)
  chain : ∀ level s K, Fits (Stops level.rank) K →
    Tracks (chain fuel level) s ((phrase (.chain level)).words * K) K
  chainRest : ∀ level left s K, Fits (Stops level.rank) K → Tracks (chainRest fuel level left) s
    ((many (Relaxed.operators level * phrase (Relaxed.operand level))).words * K) K
  unary : ∀ s K, Fits (Stops 0) K → Tracks (unary fuel) s ((phrase .unary).words * K) K
  calls : ∀ callee s K, Fits (Stops 0) K → Tracks (calls fuel callee) s
    ((many (token .leftParen * maybe (phrase .arguments) * token .rightParen)).words * K) K
  arguments : ∀ done s K, Fits (fun w => Closed w ∧ ∀ t ∈ w.head?, t.kind ≠ .comma) K →
    Tracks (arguments fuel done) s ((phrase .arguments).words * K) K
  atom : ∀ s K, Live K → Tracks (atom fuel) s ((phrase .primary).words * K) K
  lambda : ∀ s K, Live K → Tracks (lambda fuel) s ((phrase .function).words * K) K
  block : ∀ s K, Live K → Tracks (block fuel) s
    ((many (phrase .declaration)).words * ((token .rightBrace).words * K)) K
  statement : TracksStatement (statement fuel)
  declaration : ∀ s K, Live K → Absorbs K →
    Tracks (declaration fuel) s ((phrase .declaration).words * K) K
  declarations : ∀ inBlock done s K, Fits (Stopped inBlock) K →
    Tracks (declarations fuel inBlock done) s ((many (phrase .declaration)).words * K) K

theorem tracks_expression (h : Tracking fuel) : TracksExpression (expression (fuel + 1)) := by
  intro s K hK
  rw [Relaxed.words_phrase, Relaxed.rule]
  simp only [Relaxed.words_mul, Relaxed.words_maybe, add_mul, one_mul, mul_assoc]
  unfold expression
  refine Tracks.bind (h.chain .or s _ ⟨hK.live.right _, ?_⟩) fun target t => ?_
  · rintro w (hw | hw)
    · obtain ⟨t, us, rfl, hk, -⟩ := mem_token_mul.mp hw
      exact stops_equal hk
    · exact (hK.ahead w hw).1
  refine Tracks.bind_accept?_or ?_ ?_ fun u _ _ => Tracks.pure
  · exact fun t ht => quotient_le fun w hw hhead => (hK.ahead w hw).2 t hhead ht
  · intro equals u
    refine Tracks.bind (h.expression u K hK) fun value v => ?_
    split
    · exact Tracks.bind_fresh fun _ _ => Tracks.pure
    · exact Tracks.bind (tracks_complain rfl) fun _ _ => Tracks.pure

theorem mem_operators {kind : TokenKind} :
    kind ∈ (Relaxed.operators level).first ↔ (level.operator? kind).isSome = true := by
  cases level <;> cases kind <;> decide

theorem nullable_operators : (Relaxed.operators level).nullable = false := by
  cases level <;> rfl

/-- An operator is one token. -/
theorem quotient_operators (ht : t.kind ∈ (Relaxed.operators level).first) :
    ((Relaxed.operators level).words * Q).leftQuotient [t] = Q := by
  rw [quotient_single (by cases level <;> rfl), if_pos ht]

theorem tracks_operand (h : Tracking fuel) (hK : Fits (Stops (level.rank - 1)) K) :
    Tracks (operandOf level (chain fuel) (unary fuel)) s
      ((phrase (Relaxed.operand level)).words * K) K := by
  cases level with
  | factor => exact h.unary s K (hK.mono fun _ hw => hw.mono (by decide))
  | _ => exact h.chain _ s K hK

theorem fits_operators (hK : Fits (Stops level.rank) K) : Fits (Stops (level.rank - 1))
    ((many (Relaxed.operators level * phrase (Relaxed.operand level))).words * K) := by
  have hnull : (Relaxed.operators level * phrase (Relaxed.operand level)).nullable = false := by
    cases level <;> rfl
  refine fits_many hnull ?_ (hK.mono fun _ hw => hw.mono (Nat.sub_le _ 1))
  intro t us ht
  have hfirst : t.kind ∈ (Relaxed.operators level).first := by
    cases level <;> exact ht
  obtain ⟨op, hop⟩ := Option.isSome_iff_exists.mp (mem_operators.mp hfirst)
  exact stops_operator hop

theorem tracks_chain (h : Tracking fuel) (hK : Fits (Stops level.rank) K) :
    Tracks (chain (fuel + 1) level) s ((phrase (.chain level)).words * K) K := by
  rw [Relaxed.words_phrase, Relaxed.rule, Relaxed.words_mul, mul_assoc]
  unfold chain
  refine Tracks.bind (tracks_operand h (fits_operators hK)) fun first t => ?_
  exact h.chainRest level first t K hK

/-- Operators of the level are taken one by one, up to one that the level does not have. -/
theorem tracks_chainRest (h : Tracking fuel) (left : Expr) (hK : Fits (Stops level.rank) K) :
    Tracks (chainRest (fuel + 1) level left) s
      ((many (Relaxed.operators level * phrase (Relaxed.operand level))).words * K) K := by
  rw [Relaxed.words_many, add_mul, one_mul, Relaxed.words_mul, mul_assoc, mul_assoc]
  unfold chainRest
  refine Tracks.bind_acceptMap? ?_ ?_
  · intro t op u _ hop
    obtain ⟨op', hop', rfl⟩ := Option.map_eq_some_iff.mp hop
    have hfirst := mem_operators.mpr (Option.isSome_of_eq_some hop')
    have hnone : K.leftQuotient [t] = 0 := by
      refine le_antisymm (quotient_le fun w hw hhead => ?_) bot_le
      exact absurd ((hK.ahead w hw t hhead).2 level le_rfl) (by simp [hop'])
    rw [quotient_add, hnone, zero_add, quotient_operators hfirst]
    refine Tracks.bind (tracks_operand h (fits_operators hK)) fun right v => ?_
    exact Tracks.bind_fresh fun n v => h.chainRest level _ v K hK
  · intro u hu _
    refine Tracks.skip_right nullable_operators ?_ Tracks.pure
    intro t ht hfirst
    have hnone : level.operator? t.kind = none := by
      simpa [Level.operatorAt?] using hu t ht
    simp [mem_operators, hnone] at hfirst

theorem not_mem_of_unaryAt? (h : unaryAt? t = none) :
    t.kind ∉ (token .bang * phrase .unary + token .minus * phrase .unary).first := by
  change t.kind ∉ [TokenKind.bang, .minus]
  simp only [List.mem_cons, List.not_mem_nil, or_false]
  rintro (hk | hk) <;> simp [unaryAt?, hk] at h

theorem not_mem_of_atomAt? (h : atomAt? t = none) : t.kind ∉ (phrase .primary).first := by
  simp only [Rule.first, Phrase.first, Relaxed.atoms, List.mem_cons, List.not_mem_nil, or_false]
  rintro (hk | hk | hk | hk | hk | hk | hk | hk) <;> simp [atomAt?, hk] at h

theorem tracks_unary (h : Tracking fuel) (hK : Fits (Stops 0) K) :
    Tracks (unary (fuel + 1)) s ((phrase .unary).words * K) K := by
  rw [Relaxed.words_phrase, Relaxed.rule, Relaxed.words_add, add_mul]
  unfold unary
  refine Tracks.bind_acceptMap? ?_ ?_
  · intro t op u _ hop
    have hquotient : ((token .bang * phrase .unary + token .minus * phrase .unary).words * K +
        (phrase .call).words * K).leftQuotient [t] = (phrase .unary).words * K := by
      unfold unaryAt? at hop
      split at hop <;> cases hop
      all_goals
        simp [Relaxed.words_add, Relaxed.words_mul, add_mul, mul_assoc, quotient_add,
          quotient_token, quotient_phrase, Phrase.first, Relaxed.atoms, *]
    rw [hquotient]
    refine Tracks.bind (h.unary u K hK) fun operand v => ?_
    exact Tracks.bind_fresh fun _ _ => Tracks.pure
  · intro u hu _
    refine Tracks.skip rfl (fun t ht => not_mem_of_unaryAt? (hu t ht)) ?_
    rw [Relaxed.words_phrase, Relaxed.rule, Relaxed.words_mul, mul_assoc]
    refine Tracks.bind (h.atom u _ (live_mul.mpr hK.live)) fun callee v => ?_
    exact h.calls callee v K hK

theorem tracks_calls (h : Tracking fuel) (callee : Expr) (hK : Fits (Stops 0) K) :
    Tracks (calls (fuel + 1) callee) s
      ((many (token .leftParen * maybe (phrase .arguments) * token .rightParen)).words * K) K := by
  have hmore := h.calls
  rw [Relaxed.words_many, add_mul, one_mul, add_comm K]
  simp only [Relaxed.words_mul, mul_assoc]
  unfold calls
  refine Tracks.bind_accept?_or ?_ ?_ fun u _ _ => Tracks.pure
  · exact fun t ht => quotient_le fun w hw hhead => (hK.ahead w hw t hhead).1 ht
  · intro lp u
    refine Tracks.bind (tracks_unlessNext rfl (by decide) fun t => h.arguments #[] t _ ?_) ?_
    · refine fits_token (live_mul.mpr hK.live) fun t us hk => ⟨closed_cons (.inr (.inl hk)), ?_⟩
      simp [hk]
    intro given v
    refine Tracks.bind_expect (live_mul.mpr hK.live) fun paren w => ?_
    exact Tracks.bind_fresh fun n w => hmore _ w K hK

theorem tracks_arguments (h : Tracking fuel) (done : Array Expr)
    (hK : Fits (fun w => Closed w ∧ ∀ t ∈ w.head?, t.kind ≠ .comma) K) :
    Tracks (arguments (fuel + 1) done) s ((phrase .arguments).words * K) K := by
  have hmore := h.arguments
  rw [Relaxed.words_phrase, Relaxed.rule, Relaxed.words_mul] at hmore ⊢
  rw [mul_assoc]
  unfold arguments
  refine Tracks.unless rfl fun t => ?_
  refine Tracks.bind (h.expression t _ ?_) fun argument u => ?_
  · refine fits_many rfl ?_ (hK.mono fun w hw => hw.1)
    intro t us ht
    change t.kind ∈ [TokenKind.comma] at ht
    exact closed_cons (.inr (.inr (List.mem_singleton.mp ht)))
  rw [Relaxed.words_many, add_mul, one_mul, add_comm K, Relaxed.words_mul, mul_assoc, mul_assoc]
  refine Tracks.bind_accept?_or ?_ ?_ fun v _ _ => Tracks.pure
  · exact fun t ht => quotient_le fun w hw hhead => (hK.ahead w hw).2 t hhead ht
  · intro comma v
    rw [← mul_assoc]
    exact hmore _ v K hK

theorem words_lambda :
    (phrase .lambda).words = (token .kwFun).words * (phrase .function).words := by
  rw [Relaxed.words_phrase, Relaxed.rule, Relaxed.words_mul]

/-- What comes behind a token that begins an atom. -/
def behind (K : Language Token) : Atom → Language Token
  | .literal _ | .name _ => K
  | .lambda => (phrase .function).words * K
  | .group => (phrase .expression).words * ((token .rightParen).words * K)

/-- The first token of a primary expression says all that may follow it. -/
theorem quotient_primary {b : Atom} (hb : atomAt? t = some b) :
    ((phrase .primary).words * K).leftQuotient [t] = behind K b := by
  rw [Relaxed.words_phrase, Relaxed.rule]
  simp only [Relaxed.words_add, Relaxed.words_mul, add_mul, mul_assoc, quotient_add,
    quotient_token, words_lambda]
  unfold atomAt? at hb
  split at hb <;> cases hb <;> simp [behind, *]

theorem tracks_atom (h : Tracking fuel) (hK : Live K) :
    Tracks (atom (fuel + 1)) s ((phrase .primary).words * K) K := by
  unfold atom
  refine Tracks.bind_acceptMap? ?_ ?_
  · intro t b u _ hb
    rw [quotient_primary hb]
    cases b with
    | literal value => exact Tracks.bind_fresh fun _ _ => Tracks.pure
    | name name => exact Tracks.bind_fresh fun _ _ => Tracks.pure
    | lambda => exact Tracks.bind (h.lambda u K hK) fun _ _ => Tracks.pure
    | group =>
      refine Tracks.bind (h.expression u _ (fits_rightParen hK)) fun inner v => ?_
      refine Tracks.bind_expect hK fun _ v => ?_
      exact Tracks.bind_fresh fun _ _ => Tracks.pure
  · intro u hu _
    refine tracks_missing (live_mul.mpr hK) fun w hw hhead => ?_
    obtain ⟨t, us, rfl, hfirst⟩ := head_of_mem rfl hw
    exact not_mem_of_atomAt? (hu t (by simp [← hhead])) hfirst

theorem tracks_lambda (h : Tracking fuel) (hK : Live K) :
    Tracks (lambda (fuel + 1)) s ((phrase .function).words * K) K := by
  rw [Relaxed.words_phrase, Relaxed.rule]
  simp only [Relaxed.words_mul, mul_assoc]
  unfold lambda
  refine Tracks.bind_expect (by simp [hK]) fun _ t => ?_
  refine Tracks.bind (tracks_unlessNext rfl (by decide) fun t =>
    tracks_parameters fuel #[] t _ ?_) fun params u => ?_
  · exact fits_token (by simp [hK]) fun t us hk => by simp [hk]
  refine Tracks.bind_expect (by simp [hK]) fun _ v => ?_
  rw [Relaxed.words_phrase, Relaxed.rule]
  simp only [Relaxed.words_mul, mul_assoc]
  refine Tracks.bind_expect (by simp [hK]) fun _ v => ?_
  refine Tracks.bind (h.block v K hK) fun body w => ?_
  exact Tracks.bind_fresh fun _ _ => Tracks.pure

theorem tracks_block (h : Tracking fuel) (hK : Live K) :
    Tracks (block (fuel + 1)) s
      ((many (phrase .declaration)).words * ((token .rightBrace).words * K)) K := by
  unfold block
  refine Tracks.bind (h.declarations true #[] s _ ?_) fun body t => ?_
  · exact fits_token hK fun t us hk => by simp [Stopped, hk]
  · exact Tracks.bind_expect hK fun _ _ => Tracks.pure

/-- The phrase of a statement that a token opens. -/
def Opening.phrase : Opening → Phrase
  | counting => .counting
  | branch => .branch
  | print => .print
  | giveBack => .giveBack
  | loop => .loop
  | breakLoop => .breakLoop
  | block => .block

/-- The first token of a statement says which statement it is. -/
theorem quotient_statement {o : Opening} (ho : openingAt? t = some (o, keyword)) :
    ((phrase .statement).words * K).leftQuotient [t] =
      ((phrase o.phrase).words * K).leftQuotient [t] ∧ t.kind ∈ o.phrase.first := by
  rw [Relaxed.words_phrase, Relaxed.rule]
  simp only [Relaxed.words_add, Relaxed.words_mul, add_mul, mul_assoc, quotient_add]
  unfold openingAt? at ho
  split at ho <;> cases ho <;>
    simp [quotient_phrase, Phrase.first, Relaxed.atoms, Opening.phrase, *]

theorem not_mem_of_openingAt? (h : openingAt? t = none) :
    t.kind ∉ (phrase .counting + phrase .branch + phrase .print + phrase .giveBack + phrase .loop +
      phrase .breakLoop + phrase .block).first := by
  change t.kind ∉ [TokenKind.kwFor, .kwIf, .kwPrint, .kwReturn, .kwWhile, .kwBreak, .leftBrace]
  simp only [List.mem_cons, List.not_mem_nil, or_false]
  rintro (hk | hk | hk | hk | hk | hk | hk) <;> simp [openingAt?, hk] at h

theorem tracks_statement (h : Tracking fuel) : TracksStatement (statement (fuel + 1)) := by
  intro s K hK ha
  unfold statement
  refine Tracks.bind_acceptMap? ?_ ?_
  · rintro t ⟨o, keyword⟩ u _ ho
    obtain ⟨hquotient, hk⟩ := quotient_statement (K := K) ho
    rw [hquotient]
    cases o with
    | counting =>
      exact tracks_countingLoop (List.mem_singleton.mp hk) h.expression h.statement hK ha
    | branch => exact tracks_branch (List.mem_singleton.mp hk) h.expression h.statement hK ha
    | print => exact tracks_print (List.mem_singleton.mp hk) h.expression hK
    | giveBack => exact tracks_giveBack (List.mem_singleton.mp hk) h.expression hK
    | loop => exact tracks_loop (List.mem_singleton.mp hk) h.expression h.statement hK ha
    | breakLoop => exact tracks_breakLoop (List.mem_singleton.mp hk) hK
    | block =>
      have hk : t.kind = .leftBrace := List.mem_singleton.mp hk
      rw [Opening.phrase, Relaxed.words_phrase, Relaxed.rule]
      simp only [Relaxed.words_mul, mul_assoc, quotient_of_kind hk]
      exact Tracks.bind (h.block u K hK) fun _ _ => Tracks.pure
  · intro u hu _
    rw [Relaxed.words_phrase, Relaxed.rule, Relaxed.words_add, add_mul]
    refine Tracks.skip rfl (fun t ht => not_mem_of_openingAt? (hu t ht)) ?_
    rw [Relaxed.words_mul, mul_assoc]
    exact tracks_expressionStatement h.expression hK

/-- Nothing can always be gone on with by some tokens of a rule first. -/
theorem not_le_mul {a : Rule} (ha : a.nullable = false) (hK : Live K) : ¬ K ≤ a.words * K := by
  intro hle
  have hlonger : ∀ n, ∀ w ∈ K, n ≤ w.length := by
    intro n
    induction n with
    | zero => exact fun _ _ => Nat.zero_le _
    | succ n ih =>
      intro w hw
      obtain ⟨ts, hts, us, hus, rfl⟩ := Language.mem_mul.mp (hle hw)
      have hpos : ts ≠ [] := fun he => by
        simpa [ha] using Relaxed.Makes.nullable hts he
      have := ih us hus
      have := List.length_pos_iff.mpr hpos
      simp only [List.length_append]
      omega
  obtain ⟨w, hw⟩ := hK
  exact absurd (hlonger (w.length + 1) w hw) (by omega)

/-- A way to go on that the second token ahead excludes. The parser must read the first. -/
theorem Tracks.look_ahead {x : Parser α} (hx : Tracks x s Q K) (hK : ¬ K ≤ Q)
    (hQ : ∃ w ∈ Q, w.head? = s.rest.head?) (hP : ∀ w ∈ P, w.take 2 ≠ s.rest.take 2) :
    Tracks x s (P + Q) K := by
  have hreads {ts rest w : List Token} (hs : s.rest = ts ++ rest) (hts : ts ≠ [])
      (hw : w ∈ (P + Q).leftQuotient ts) (hhead : w.head? = rest.head?) :
      w ∈ Q.leftQuotient ts := by
    refine hw.resolve_left fun hw => hP _ hw ?_
    obtain ⟨t, us, rfl⟩ := List.exists_cons_of_ne_nil hts
    simp [hs, List.take_one, hhead]
  have hblame {new : List Complaint} (h : Pinpoints Q s.rest new) :
      Pinpoints (P + Q) s.rest new := by
    obtain ⟨calm, c, more, ts, rest, hnew, hcalm, hu, hs, ht, ⟨w, hw⟩, hnone⟩ := h
    have hts : ts ≠ [] := by
      rintro rfl
      obtain ⟨v, hv, hhead⟩ := hQ
      exact hnone v hv (by simpa [hs] using hhead)
    exact ⟨calm, c, more, ts, rest, hnew, hcalm, hu, hs, ht, ⟨w, .inr hw⟩,
      fun v hv hhead => hnone v (hreads hs hts hv hhead) hhead⟩
  refine Ends.mono hx ?_ ?_
  · rintro a t ⟨new, hnew, hcase⟩
    refine ⟨new, hnew, hcase.imp ?_ hblame⟩
    rintro ⟨hcalm, ts, hs, hle, hge⟩
    have hts : ts ≠ [] := by
      rintro rfl
      exact hK hle
    exact ⟨hcalm, ts, hs, fun w hw => .inr (hle hw),
      fun v hv hhead => hge v (hreads hs hts hv hhead) hhead⟩
  · intro i t h hi
    obtain ⟨new, hnew, hb⟩ := h hi
    exact ⟨new, hnew, hblame hb⟩

/-- A statement may begin with any `fun`, as the lambda of an expression. -/
theorem statement_of_fun (ht : t.kind = .kwFun) :
    ∃ us, Relaxed.Makes (phrase .statement) (t :: us) := by
  obtain ⟨us, hfunction⟩ := Relaxed.inhabited_phrase .function
  obtain ⟨vs, hsemicolon⟩ := Relaxed.inhabited_token .semicolon
  have lambda : Relaxed.Makes (phrase .lambda) (t :: us) := .phrase (.both (.token ht) hfunction)
  exact ⟨us ++ vs, .phrase (.other
    (.both (Relaxed.makes_expression (.phrase (.other lambda))) hsemicolon))⟩

/-- No statement begins with `fun` and a name. -/
theorem not_statement_of_name {name : Token} {w : List Token} (ht : t.kind = .kwFun)
    (hname : name.kind = .identifier) : t :: name :: w ∉ (phrase .statement).words * K := by
  intro hw
  obtain ⟨ts, hts, us, -, he⟩ := Language.mem_mul.mp hw
  have hopens := Relaxed.Makes.opensLambda hts rfl
  cases ts with
  | nil => exact absurd (Relaxed.Makes.nullable hts rfl) (by simp [Rule.nullable])
  | cons t' ts =>
    obtain ⟨rfl, hrest⟩ := List.cons.inj he
    obtain ⟨lp, vs, rfl, hlp⟩ := hopens _ ts rfl ht
    obtain ⟨rfl, -⟩ := List.cons.inj hrest
    simp [hname] at hlp

theorem tracks_unnamed (h : Tracking fuel) (hK : Live K) (ha : Absorbs K) :
    Tracks (do
      match ← accept? .kwVar with
      | some _ => varDeclaration (expression fuel)
      | none => statement fuel) s
      ((token .kwVar).words * ((phrase .binding).words * K) + (phrase .statement).words * K) K := by
  refine Tracks.bind_accept?_or ?_ ?_ fun u _ _ => h.statement u K hK ha
  · exact fun t ht => quotient_rule_le rfl
      (by simp [Rule.first, Phrase.first, Relaxed.openings, Relaxed.atoms, ht])
  · exact fun _ u => tracks_varDeclaration h.expression hK

theorem quotient_named {name : Token} (ht : t.kind = .kwFun) (hname : name.kind = .identifier) :
    ((token .kwFun).words * ((token .identifier).words * P) +
      ((token .kwVar).words * Q + (phrase .statement).words * K)).leftQuotient [t, name] = P := by
  have hstatement : ((phrase .statement).words * K).leftQuotient [t, name] = 0 :=
    Language.ext fun w => iff_of_false (not_statement_of_name ht hname) (Language.notMem_zero w)
  have hsplit (L : Language Token) :
      L.leftQuotient [t, name] = (L.leftQuotient [t]).leftQuotient [name] :=
    L.leftQuotient_append [t] [name]
  have hzero : (0 : Language Token).leftQuotient [name] = 0 := rfl
  rw [quotient_add, quotient_add, hstatement, hsplit, hsplit, quotient_of_kind ht,
    quotient_of_kind hname, quotient_token, if_neg (by simp [ht]), hzero, add_zero, add_zero]

theorem tracks_declaration (h : Tracking fuel) (hK : Live K) (ha : Absorbs K) :
    Tracks (declaration (fuel + 1)) s ((phrase .declaration).words * K) K := by
  rw [Relaxed.words_phrase, Relaxed.rule]
  simp only [Relaxed.words_add, Relaxed.words_mul, add_mul, mul_assoc, add_assoc]
  unfold declaration
  refine Tracks.recovering (Tracks.bind_acceptFunctionName? ?_ fun hnamed => ?_)
  · intro t name u ht hname
    rw [quotient_named ht hname]
    exact Tracks.bind (h.lambda u K hK) fun _ _ => Tracks.pure
  by_cases hfun : ∃ t ∈ s.rest.head?, t.kind = .kwFun
  · obtain ⟨t, hhead, ht⟩ := hfun
    refine Tracks.look_ahead (tracks_unnamed h hK ha) ?_ ?_ ?_
    · have hle := not_le_mul (a := token .kwVar * phrase .binding + phrase .statement) rfl hK
      simpa only [Relaxed.words_add, Relaxed.words_mul, add_mul, mul_assoc] using hle
    · obtain ⟨us, hus⟩ := statement_of_fun ht
      obtain ⟨w, hw⟩ := hK
      exact ⟨t :: us ++ w, .inr (Language.append_mem_mul hus hw), by simpa using hhead.symm⟩
    · intro w hw htake
      obtain ⟨_, _, rfl, -, hw⟩ := mem_token_mul.mp hw
      obtain ⟨name, us, rfl, hname, -⟩ := mem_token_mul.mp hw
      obtain ⟨rest, hs⟩ : ∃ rest, s.rest = t :: rest := by
        simpa [List.head?_eq_some_iff] using hhead
      cases rest with
      | nil => simp [hs] at htake
      | cons next rest =>
        obtain ⟨-, rfl⟩ : _ ∧ name = next := by simpa [hs] using htake
        exact hnamed t name rest hs ht hname
  · refine Tracks.skip rfl ?_ (tracks_unnamed h hK ha)
    intro t ht hfirst
    exact hfun ⟨t, ht, by simpa [Rule.first] using hfirst⟩

theorem stopped_iff {inBlock : Bool} {rest : List Token} :
    (rest.isEmpty || inBlock && rest.head?.any (·.kind = .rightBrace)) = true ↔
      Stopped inBlock rest := by
  cases rest <;> simp [Stopped]

/-- No declaration begins with `else`. -/
theorem absorbs_declarations {inBlock : Bool} (hK : Fits (Stopped inBlock) K) :
    Absorbs ((many (phrase .declaration)).words * K) := by
  intro t ht
  rw [Relaxed.words_many, add_mul, one_mul, mul_assoc, quotient_add]
  refine add_le_iff.mpr ⟨quotient_le fun w hw hhead => ?_, quotient_rule_le rfl ?_⟩
  · simpa [ht] using (hK.ahead w hw t hhead).2
  · simp [Rule.first, Phrase.first, Relaxed.openings, Relaxed.atoms, ht]

/-- Declarations go on up to the brace or the end of the input that stops them. -/
theorem tracks_declarations (h : Tracking fuel) (inBlock : Bool) (done : Array Stmt)
    (hK : Fits (Stopped inBlock) K) :
    Tracks (declarations (fuel + 1) inBlock done) s ((many (phrase .declaration)).words * K) K := by
  have hmore : ∀ done' u, Tracks (declarations fuel inBlock done') u
      ((many (phrase .declaration)).words * K) K := fun done' u => h.declarations _ done' u K hK
  have hdeclaration := h.declaration s _ (live_mul.mpr hK.live) (absorbs_declarations hK)
  rw [Relaxed.words_many, add_mul, one_mul, mul_assoc]
  unfold declarations
  refine Tracks.bind_get (Tracks.bind_check ?_)
  cases hstop : s.rest.isEmpty || inBlock && s.rest.head?.any (·.kind = .rightBrace) with
  | true =>
    refine Tracks.skip_right rfl (fun t ht => ?_) Tracks.pure
    rw [(stopped_iff.mp hstop t ht).2]
    decide
  | false =>
    have hgo : ¬ Stopped inBlock s.rest := by simp [← stopped_iff, hstop]
    refine Tracks.narrow (fun w hw => .inr hw) ?_ (Tracks.bind hdeclaration fun a t => ?_)
    · rintro w (hw | hw) hhead
      · exact absurd (fun t ht => hK.ahead w hw t (hhead ▸ ht)) hgo
      · exact hw
    · cases a with
      | some stmt => exact hmore _ t
      | none => exact hmore _ t

theorem tracking (fuel : Nat) : Tracking fuel := by
  induction fuel with
  | zero =>
    constructor
    case expression | statement => exact fun _ _ => by intros; exact Tracks.outOfFuel
    all_goals intros; exact Tracks.outOfFuel
  | succ fuel h =>
    exact ⟨tracks_expression h, fun _ _ _ => tracks_chain h,
      fun _ left _ _ => tracks_chainRest h left, fun _ _ => tracks_unary h,
      fun callee _ _ => tracks_calls h callee, fun done _ _ => tracks_arguments h done,
      fun _ _ => tracks_atom h, fun _ _ => tracks_lambda h, fun _ _ => tracks_block h,
      tracks_statement h,
      fun _ _ => tracks_declaration h, fun inBlock done _ _ => tracks_declarations h inBlock done⟩

end Lox.Parse
