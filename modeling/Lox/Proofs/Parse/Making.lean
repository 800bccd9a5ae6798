import Lox.Parse
import Lox.Proofs.Ends
import Lox.Proofs.Tidy

/-! What parsing makes, with or without complaints: the identities of a tree are new, and its
declarations stand in lists of statements. -/
namespace Lox.Parse

variable {α β : Type} {x : Parser α} {f : α → Parser β} {s : State} {r : α → Nat → Prop}

/-- From `s` identities are only used up; a result is as `r` says of it and the next identity. -/
def Makes (x : Parser α) (s : State) (r : α → Nat → Prop) : Prop :=
  Ends x s (fun a t => s.nextId ≤ t.nextId ∧ r a t.nextId) (fun _ t => s.nextId ≤ t.nextId)

theorem Makes.pure {a : α} (h : r a s.nextId) : Makes (pure a) s r := ⟨Nat.le_refl _, h⟩

theorem Makes.throw {i : Interrupt} : Makes (throw i : Parser α) s r := Nat.le_refl s.nextId

/-- A second part makes its nodes with identities behind those of the first. -/
theorem Makes.bind {r' : β → Nat → Prop} (hx : Makes x s r)
    (hf : ∀ a t, s.nextId ≤ t.nextId → r a t.nextId → Makes (f a) t r') :
    Makes (x >>= f) s r' := by
  refine Ends.bind (hx.mono (fun _ _ h => h) fun _ _ h => h) ?_
  rintro a t ⟨hle, ha⟩
  exact (hf a t hle ha).mono (fun _ _ h => ⟨Nat.le_trans hle h.1, h.2⟩)
    fun _ _ h => Nat.le_trans hle h

theorem Makes.mono {r' : α → Nat → Prop} (hx : Makes x s r)
    (h : ∀ a hi, s.nextId ≤ hi → r a hi → r' a hi) : Makes x s r' :=
  Ends.mono hx (fun _ _ ha => ⟨ha.1, h _ _ ha.1 ha.2⟩) fun _ _ h => h

/-- A parser that makes nothing, before one that does. -/
theorem Makes.bind_idle {g : α → Parser β} {r' : β → Nat → Prop}
    (hx : Makes x s fun _ hi => hi = s.nextId)
    (hg : ∀ a t, t.nextId = s.nextId → Makes (g a) t r') : Makes (x >>= g) s r' :=
  Makes.bind hx fun a t _ ha => hg a t ha

theorem makes_acceptMap? {f : Token → Option α} :
    Makes (acceptMap? f) s fun _ hi => hi = s.nextId := by
  obtain ⟨rest, complaints, nextId⟩ := s
  unfold Makes Ends acceptMap?
  cases rest with
  | nil => simp
  | cons token rest => cases h : f token <;> simp [h]

theorem makes_accept? {kind : TokenKind} : Makes (accept? kind) s fun _ hi => hi = s.nextId :=
  makes_acceptMap?

theorem makes_complainHere {fault : SyntaxFault} :
    Makes (complainHere fault) s fun _ hi => hi = s.nextId := by
  simp [Makes, Ends, complainHere, complain]

theorem makes_missing {what : Expectation} : Makes (missing what : Parser α) s r :=
  Makes.bind_idle makes_complainHere fun _ _ _ => Makes.throw

theorem makes_expect {kind : TokenKind} {what : Expectation} :
    Makes (expect kind what) s fun _ hi => hi = s.nextId := by
  refine Makes.bind_idle makes_accept? ?_
  rintro (_ | token) t ht
  · exact makes_missing
  · exact Makes.pure ht

theorem makes_fresh : Makes fresh s fun n hi => n = s.nextId ∧ hi = s.nextId + 1 := by
  simp [Makes, Ends, fresh]

theorem makes_complain {fault : SyntaxFault} {token : Option Token} :
    Makes (complain fault token) s fun _ hi => hi = s.nextId := by
  simp [Makes, Ends, complain]

theorem Makes.unless {c : Prop} [Decidable c] {fault : SyntaxFault}
    (hx : ∀ t, t.nextId = s.nextId → Makes x t r) :
    Makes (do
      if c then complainHere fault
      x) s r := by
  by_cases hc : c
  · simp only [if_pos hc]
    exact Makes.bind_idle makes_complainHere fun _ t ht => hx t ht
  · simp only [if_neg hc]
    exact hx s rfl

theorem makes_check {kind : TokenKind} : Makes (check kind) s fun _ hi => hi = s.nextId := by
  simp [Makes, Ends, check]

theorem makes_get : Makes (get : Parser State) s fun _ hi => hi = s.nextId :=
  ⟨Nat.le_refl _, rfl⟩

theorem makes_acceptFunctionName? :
    Makes acceptFunctionName? s fun _ hi => hi = s.nextId := by
  obtain ⟨rest, complaints, nextId⟩ := s
  unfold Makes Ends acceptFunctionName?
  rcases rest with _ | ⟨t, _ | ⟨name, rest⟩⟩
  · simp
  · simp
  · by_cases h : (t.kind = .kwFun && name.kind = .identifier) = true <;> simp [h]

/-- Identities taken by what was given up are not taken again. -/
theorem makes_recovering (hx : Makes x s r) :
    Makes (recovering x) s fun a hi => ∀ b, a = some b → r b hi := by
  simp only [Makes, Ends, recovering] at hx ⊢
  cases h : x s with
  | ok a t =>
    rw [h] at hx
    exact ⟨hx.1, by rintro _ ⟨⟩; exact hx.2⟩
  | error i t =>
    rw [h] at hx
    cases i with
    | unwind => exact ⟨hx, by simp⟩
    | outOfFuel => exact hx

theorem makes_unlessNext {kind : TokenKind} (hx : ∀ t, t.nextId = s.nextId → Makes x t r) :
    Makes (unlessNext kind x) s fun a hi =>
      (a = none ∧ hi = s.nextId) ∨ ∃ b, a = some b ∧ r b hi := by
  refine Makes.bind_idle makes_check ?_
  rintro (_ | _) t ht
  · refine Makes.bind (hx t ht) ?_
    intro a u _ ha
    exact Makes.pure (Or.inr ⟨a, rfl, ha⟩)
  · exact Makes.pure (Or.inl ⟨rfl, ht⟩)

/-- Identities from a range, and declarations in their places. -/
structure Neat (lo hi : Nat) (ids : List NodeId) (tidy : Prop) : Prop where
  fresh : Fresh lo hi ids
  inPlace : tidy

variable {lo mid hi : Nat} {as bs : List NodeId} {p q : Prop}

theorem Neat.nil (h : p) : Neat lo hi [] p := ⟨Fresh.nil, h⟩

/-- Two neat ranges that follow one another are one. -/
theorem Neat.append (ha : Neat lo mid as p) (hb : Neat mid hi bs q) (hlo : lo ≤ mid)
    (hhi : mid ≤ hi) : Neat lo hi (as ++ bs) (p ∧ q) :=
  ⟨ha.fresh.append hb.fresh hlo hhi, ha.inPlace, hb.inPlace⟩

/-- The identity of an expression is taken after those of its parts. -/
theorem Neat.root (h : Neat lo mid as p) (hlo : lo ≤ mid) :
    Neat lo (mid + 1) (as ++ [mid]) p :=
  ⟨h.fresh.append Fresh.single hlo (Nat.le_succ _), h.inPlace⟩

theorem Neat.imp (h : Neat lo hi as p) (hpq : p → q) : Neat lo hi as q := ⟨h.fresh, hpq h.inPlace⟩

/-- An expression is made. -/
abbrev MakesExpr (x : Parser Expr) (s : State) : Prop :=
  Makes x s fun e hi => Neat s.nextId hi e.ids e.Tidy

/-- A statement is made that is no declaration. -/
abbrev MakesStatement (x : Parser Stmt) (s : State) : Prop :=
  Makes x s fun t hi => Neat s.nextId hi t.ids (t.declares = false ∧ t.Tidy)

/-- A statement is made that may be a declaration. -/
abbrev MakesStmt (x : Parser Stmt) (s : State) : Prop :=
  Makes x s fun t hi => Neat s.nextId hi t.ids t.Tidy

variable {e : Parser Expr} {body : Parser Stmt} {keyword : Token}

theorem MakesStatement.stmt (h : MakesStatement body s) : MakesStmt body s :=
  h.mono fun _ _ _ ht => ht.imp fun ht => ht.2

theorem MakesExpr.at {x : Parser Expr} (h : ∀ t, MakesExpr x t) (hs : s.nextId = lo) :
    Makes x s fun e hi => Neat lo hi e.ids e.Tidy := hs ▸ h s

theorem makes_optional {kind : TokenKind} (he : ∀ t, MakesExpr e t) :
    Makes (unlessNext kind e) s fun a hi => Neat s.nextId hi (Expr.ids? a) (Expr.Tidy? a) := by
  refine (makes_unlessNext fun t ht => MakesExpr.at he ht).mono ?_
  rintro _ hi _ (⟨rfl, rfl⟩ | ⟨a, rfl, ha⟩)
  · exact Neat.nil trivial
  · exact ha

theorem makes_expressionStatement (he : ∀ t, MakesExpr e t) :
    MakesStatement (expressionStatement e) s := by
  refine Makes.bind (he s) ?_
  intro a t _ ha
  refine Makes.bind_idle makes_expect ?_
  intro _ u hu
  exact Makes.pure (by simpa [hu, Stmt.ids, Stmt.Tidy, Stmt.declares] using ha)

theorem makes_varDeclaration (he : ∀ t, MakesExpr e t) : MakesStmt (varDeclaration e) s := by
  refine Makes.bind_idle makes_expect ?_
  intro name t ht
  simp only [bind_assoc]
  refine Makes.bind_idle makes_accept? ?_
  rintro (_ | equal) u hu
  · simp only [pure_bind]
    refine Makes.bind_idle makes_expect ?_
    intro _ v hv
    exact Makes.pure (Neat.nil trivial)
  · simp only [bind_assoc, pure_bind]
    refine Makes.bind (MakesExpr.at he (hu.trans ht)) ?_
    intro a v _ ha
    refine Makes.bind_idle makes_expect ?_
    intro _ w hw
    exact Makes.pure (by simpa [hw, Stmt.ids, Stmt.Tidy, Expr.ids?, Expr.Tidy?] using ha)

theorem makes_countingStart (he : ∀ t, MakesExpr e t) :
    Makes (countingStart e) s fun a hi =>
      Neat s.nextId hi (Stmt.ids? a) (∀ t, a = some t → t.Tidy) := by
  refine Makes.bind_idle makes_accept? ?_
  rintro (_ | semi) t ht
  · refine Makes.bind_idle makes_accept? ?_
    rw [← ht]
    rintro (_ | var) u hu
    · rw [← hu]
      refine Makes.bind (makes_expressionStatement he) ?_
      intro a v _ ha
      refine Makes.pure (ha.imp ?_)
      rintro h _ ⟨⟩
      exact h.2
    · rw [← hu]
      refine Makes.bind (makes_varDeclaration he) ?_
      intro a v _ ha
      refine Makes.pure (ha.imp ?_)
      rintro h _ ⟨⟩
      exact h
  · exact Makes.pure (Neat.nil (by simp))

theorem makes_loop (he : ∀ t, MakesExpr e t) (hb : ∀ t, MakesStatement body t) :
    MakesStatement (loop keyword e body) s := by
  refine Makes.bind_idle makes_expect ?_
  intro _ t ht
  refine Makes.bind (he t) ?_
  intro c u hu hc
  refine Makes.bind_idle makes_expect ?_
  intro _ v hv
  refine Makes.bind (hb v) ?_
  intro a w hw ha
  rw [hv] at hw ha
  rw [← ht]
  exact Makes.pure ((hc.append ha hu hw).imp fun h => ⟨rfl, h⟩)

theorem makes_branch (he : ∀ t, MakesExpr e t) (hb : ∀ t, MakesStatement body t) :
    MakesStatement (branch keyword e body) s := by
  refine Makes.bind_idle makes_expect ?_
  intro _ t ht
  refine Makes.bind (he t) ?_
  intro c u hu hc
  refine Makes.bind_idle makes_expect ?_
  intro _ v hv
  refine Makes.bind (hb v) ?_
  intro yes w hw hyes
  simp only [bind_assoc]
  refine Makes.bind_idle makes_accept? ?_
  rw [hv] at hw hyes
  rw [← ht]
  rintro (_ | other) x hx
  · refine Makes.pure ?_
    rw [hx]
    refine (hc.append (hyes.append (Neat.nil trivial) hw (Nat.le_refl _)) hu hw).imp ?_
    exact fun h => ⟨rfl, h⟩
  · simp only [bind_assoc, pure_bind]
    refine Makes.bind (hb x) ?_
    intro no y hy hno
    rw [hx] at hy hno
    refine Makes.pure ?_
    refine (hc.append (hyes.append hno hw hy) hu (Nat.le_trans hw hy)).imp ?_
    exact fun h => ⟨rfl, h⟩

theorem ids_counting (initial : Option Stmt) (c : Expr) (step : Option Expr) (a : Stmt) :
    (Stmt.counting keyword initial c step a).ids =
      Stmt.ids? initial ++ (c.ids ++ (a.ids ++ Expr.ids? step)) := by
  cases initial <;> cases step <;>
    simp [Stmt.counting, Stmt.ids, Stmt.idsAll, Stmt.ids?, Expr.ids?]

/-- The tree of a `for` declares nothing outside of a block of its own. -/
theorem tidy_counting {initial : Option Stmt} {c : Expr} {step : Option Expr} {a : Stmt}
    (hi : ∀ t, initial = some t → t.Tidy) (hc : c.Tidy) (hs : Expr.Tidy? step)
    (ha : a.declares = false ∧ a.Tidy) :
    (Stmt.counting keyword initial c step a).declares = false ∧
      (Stmt.counting keyword initial c step a).Tidy := by
  cases initial <;> cases step <;>
    simp_all [Stmt.counting, Stmt.declares, Stmt.Tidy, Stmt.TidyAll, Expr.Tidy?]

/-- A loop is read with its step before its body, and an absent condition is made last. -/
theorem makes_countingLoop (he : ∀ t, MakesExpr e t) (hb : ∀ t, MakesStatement body t) :
    MakesStatement (countingLoop keyword e body) s := by
  refine Makes.bind_idle makes_expect ?_
  intro _ t ht
  refine Makes.bind (makes_countingStart he) ?_
  intro initial u hu hi
  refine Makes.bind (makes_optional he) ?_
  intro c v hv hc
  refine Makes.bind_idle makes_expect ?_
  intro _ w hw
  refine Makes.bind (makes_optional he) ?_
  intro step x hx hs
  refine Makes.bind_idle makes_expect ?_
  intro _ y hy
  refine Makes.bind (hb y) ?_
  intro a z hz ha
  rw [hw] at hx hs
  rw [hy] at hz ha
  rw [← ht]
  have hxz := Nat.le_trans hx hz
  have hvz := Nat.le_trans hv hxz
  have parts := hi.append (hc.append (hs.append ha hx hz) hv hxz) hu hvz
  have swap (cs ds : List NodeId) :
      (Stmt.ids? initial ++ (cs ++ (Expr.ids? step ++ a.ids)) ++ ds).Perm
        (Stmt.ids? initial ++ (cs ++ ds ++ (a.ids ++ Expr.ids? step))) := by
    simp only [List.append_assoc, List.perm_append_left_iff]
    have : (Expr.ids? step ++ (a.ids ++ ds)).Perm (ds ++ (a.ids ++ Expr.ids? step)) := by
      rw [← List.append_assoc]
      exact List.perm_append_comm.trans (List.perm_append_comm.append_left ds)
    exact this
  cases c with
  | some c =>
    refine Makes.pure ⟨?_, tidy_counting parts.inPlace.1 parts.inPlace.2.1
      parts.inPlace.2.2.1 parts.inPlace.2.2.2⟩
    rw [ids_counting]
    exact parts.fresh.perm (by simpa [Expr.ids?] using swap c.ids [])
  | none =>
    simp only [bind_assoc, pure_bind]
    refine Makes.bind makes_fresh ?_
    rintro n z' _ ⟨rfl, hz'⟩
    refine Makes.pure ⟨?_, tidy_counting parts.inPlace.1 trivial parts.inPlace.2.2.1
      parts.inPlace.2.2.2⟩
    rw [ids_counting, hz']
    refine (parts.root (Nat.le_trans hu hvz)).fresh.perm ?_
    simpa [Expr.ids?, Expr.ids] using swap [] [z.nextId]

theorem makes_print (he : ∀ t, MakesExpr e t) : MakesStatement (print e) s := by
  refine Makes.bind (he s) ?_
  intro a t _ ha
  refine Makes.bind_idle makes_expect ?_
  intro _ u hu
  exact Makes.pure (by simpa [hu, Stmt.ids, Stmt.Tidy, Stmt.declares] using ha)

theorem makes_giveBack (he : ∀ t, MakesExpr e t) : MakesStatement (giveBack keyword e) s := by
  refine Makes.bind (makes_optional he) ?_
  intro a t _ ha
  refine Makes.bind_idle makes_expect ?_
  intro _ u hu
  exact Makes.pure (by simpa [hu, Stmt.ids, Stmt.Tidy, Stmt.declares] using ha)

theorem makes_breakLoop : MakesStatement (breakLoop keyword) s := by
  refine Makes.bind_idle makes_expect ?_
  intro _ t ht
  exact Makes.pure (Neat.nil ⟨rfl, trivial⟩)

theorem makes_parameters {fuel : Nat} {done : Array Token} :
    Makes (parameters fuel done) s fun _ hi => hi = s.nextId := by
  induction fuel generalizing done s with
  | zero => exact Makes.throw
  | succ fuel ih =>
    unfold parameters
    refine Makes.unless fun t ht => ?_
    refine Makes.bind_idle makes_expect ?_
    intro name u hu
    refine Makes.bind_idle makes_accept? ?_
    rintro (_ | comma) v hv
    · exact Makes.pure (hv.trans (hu.trans ht))
    · exact ih.mono fun _ _ _ h => h.trans (hv.trans (hu.trans ht))

/-- What the parsers make that call each other with one unit of fuel less each time. -/
structure Made (fuel : Nat) : Prop where
  expression : ∀ s, MakesExpr (expression fuel) s
  chain : ∀ level s, MakesExpr (chain fuel level) s
  chainRest : ∀ level left lo s, lo ≤ s.nextId → Neat lo s.nextId left.ids left.Tidy →
    Makes (chainRest fuel level left) s fun e hi => Neat lo hi e.ids e.Tidy
  unary : ∀ s, MakesExpr (unary fuel) s
  calls : ∀ callee lo s, lo ≤ s.nextId → Neat lo s.nextId callee.ids callee.Tidy →
    Makes (calls fuel callee) s fun e hi => Neat lo hi e.ids e.Tidy
  arguments : ∀ done lo s, lo ≤ s.nextId →
    Neat lo s.nextId (Expr.idsAll done.toList) (Expr.TidyAll done.toList) →
    Makes (arguments fuel done) s fun es hi => Neat lo hi (Expr.idsAll es) (Expr.TidyAll es)
  atom : ∀ s, MakesExpr (atom fuel) s
  lambda : ∀ s, Makes (lambda fuel) s fun f hi => Neat s.nextId hi f.ids f.Tidy
  block : ∀ s, Makes (block fuel) s fun ss hi =>
    Neat s.nextId hi (Stmt.idsAll ss) (Stmt.TidyAll ss)
  statement : ∀ s, MakesStatement (statement fuel) s
  declaration : ∀ s, Makes (declaration fuel) s fun a hi =>
    ∀ t, a = some t → Neat s.nextId hi t.ids t.Tidy
  declarations : ∀ inBlock done lo s, lo ≤ s.nextId →
    Neat lo s.nextId (Stmt.idsAll done.toList) (Stmt.TidyAll done.toList) →
    Makes (declarations fuel inBlock done) s fun ss hi =>
      Neat lo hi (Stmt.idsAll ss) (Stmt.TidyAll ss)

variable {fuel : Nat}

theorem makes_expression (h : Made fuel) : MakesExpr (expression (fuel + 1)) s := by
  unfold expression
  refine Makes.bind (h.chain .or s) ?_
  intro target t ht ha
  refine Makes.bind_idle makes_accept? ?_
  rintro (_ | equal) u hu
  · exact Makes.pure (hu ▸ ha)
  · refine Makes.bind (h.expression u) ?_
    intro value v hv hb
    rw [hu] at hv hb
    split
    · refine Makes.bind makes_fresh ?_
      rintro n w _ ⟨rfl, hw⟩
      have hs : s.nextId ≤ v.nextId := Nat.le_trans ht hv
      have hneat : Neat _ _ _ _ := ⟨hb.fresh.mono ht (Nat.le_refl _), hb.inPlace⟩
      exact Makes.pure (hw ▸ hneat.root hs)
    · refine Makes.bind_idle makes_complain ?_
      intro _ w hw
      exact Makes.pure ⟨ha.fresh.mono (Nat.le_refl _) (hw ▸ hv), ha.inPlace⟩

theorem makes_operand (h : Made fuel) (level : Level) :
    MakesExpr (operandOf level (chain fuel) (unary fuel)) s := by
  cases level
  case factor => exact h.unary s
  all_goals exact h.chain _ s

theorem makes_chain (h : Made fuel) (level : Level) : MakesExpr (chain (fuel + 1) level) s := by
  unfold chain
  refine Makes.bind (makes_operand h level) ?_
  intro first t ht ha
  exact h.chainRest level first _ t ht ha

/-- An operator takes an identity behind those of both its operands. -/
theorem neat_combine {n : NodeId} {left right : Expr} {op : LogicalOp ⊕ BinaryOp} {token : Token}
    (hl : Neat lo mid left.ids left.Tidy) (hr : Neat mid n right.ids right.Tidy) (hlo : lo ≤ mid)
    (hhi : mid ≤ n) :
    Neat lo (n + 1) (combine n left op token right).ids (combine n left op token right).Tidy := by
  have := (hl.append hr hlo hhi).root (Nat.le_trans hlo hhi)
  cases op <;> simpa [combine, Expr.ids, Expr.Tidy] using this

theorem makes_chainRest (h : Made fuel) (level : Level) (left : Expr) (hlo : lo ≤ s.nextId)
    (hl : Neat lo s.nextId left.ids left.Tidy) :
    Makes (chainRest (fuel + 1) level left) s fun e hi => Neat lo hi e.ids e.Tidy := by
  unfold chainRest
  refine Makes.bind_idle makes_acceptMap? ?_
  rintro (_ | ⟨op, token⟩) t ht
  · exact Makes.pure (ht ▸ hl)
  · rw [← ht] at hlo hl
    refine Makes.bind (makes_operand h level) ?_
    intro right u hu hr
    refine Makes.bind makes_fresh ?_
    rintro n v _ ⟨rfl, hv⟩
    refine h.chainRest level _ lo v ?_ (hv ▸ neat_combine hl hr hlo hu)
    rw [hv]
    exact Nat.le_trans hlo (Nat.le_succ_of_le hu)

theorem makes_unary (h : Made fuel) : MakesExpr (unary (fuel + 1)) s := by
  unfold unary
  refine Makes.bind_idle makes_acceptMap? ?_
  rintro (_ | ⟨op, token⟩) t ht
  · refine Makes.bind (h.atom t) ?_
    intro callee u hu ha
    exact ht ▸ h.calls callee _ u hu ha
  · rw [← ht]
    refine Makes.bind (h.unary t) ?_
    intro a u hu ha
    refine Makes.bind makes_fresh ?_
    rintro n v _ ⟨rfl, hv⟩
    exact Makes.pure (hv ▸ ha.root hu)

theorem makes_calls (h : Made fuel) (callee : Expr) (hlo : lo ≤ s.nextId)
    (hc : Neat lo s.nextId callee.ids callee.Tidy) :
    Makes (calls (fuel + 1) callee) s fun e hi => Neat lo hi e.ids e.Tidy := by
  unfold calls
  refine Makes.bind_idle makes_accept? ?_
  rintro (_ | lp) t ht
  · exact Makes.pure (ht ▸ hc)
  · rw [← ht] at hlo hc
    have given : Makes (unlessNext .rightParen (arguments fuel #[])) t fun es hi =>
        Neat t.nextId hi (Expr.idsAll (es.getD [])) (Expr.TidyAll (es.getD [])) := by
      refine (makes_unlessNext (r := fun es hi =>
        Neat t.nextId hi (Expr.idsAll es) (Expr.TidyAll es)) fun u hu => ?_).mono ?_
      · exact hu ▸ h.arguments #[] u.nextId u (Nat.le_refl _) (Neat.nil trivial)
      · rintro _ hi _ (⟨rfl, rfl⟩ | ⟨es, rfl, hes⟩)
        · exact Neat.nil trivial
        · exact hes
    refine Makes.bind given ?_
    intro es u hu hes
    refine Makes.bind_idle makes_expect ?_
    intro paren v hv
    refine Makes.bind makes_fresh ?_
    rintro n w _ ⟨rfl, hw⟩
    have all := (hc.append hes hlo hu).root (Nat.le_trans hlo hu)
    refine h.calls _ lo w ?_ ?_
    · rw [hw, hv]
      exact Nat.le_trans hlo (Nat.le_succ_of_le hu)
    · rw [hw, hv]
      simpa [Expr.ids, Expr.Tidy] using all

theorem makes_arguments (h : Made fuel) (done : Array Expr) (hlo : lo ≤ s.nextId)
    (hd : Neat lo s.nextId (Expr.idsAll done.toList) (Expr.TidyAll done.toList)) :
    Makes (arguments (fuel + 1) done) s fun es hi =>
      Neat lo hi (Expr.idsAll es) (Expr.TidyAll es) := by
  unfold arguments
  refine Makes.unless fun t ht => ?_
  rw [← ht] at hlo hd
  refine Makes.bind (h.expression t) ?_
  intro a u hu ha
  have all : Neat lo u.nextId (Expr.idsAll (done.push a).toList)
      (Expr.TidyAll (done.push a).toList) := by
    simpa [idsAll_append, tidyAll_append, Expr.idsAll, Expr.TidyAll] using hd.append ha hlo hu
  refine Makes.bind_idle makes_accept? ?_
  rintro (_ | comma) v hv
  · exact Makes.pure (hv ▸ all)
  · exact h.arguments _ lo v (hv ▸ Nat.le_trans hlo hu) (hv ▸ all)

theorem makes_atom (h : Made fuel) : MakesExpr (atom (fuel + 1)) s := by
  unfold atom
  refine Makes.bind_idle makes_acceptMap? ?_
  rintro (_ | ⟨value⟩ | ⟨token⟩ | _ | _) t ht
  · exact makes_missing
  · refine Makes.bind makes_fresh ?_
    rintro n u _ ⟨rfl, hu⟩
    exact Makes.pure (by rw [hu, ht]; exact ⟨Fresh.single, trivial⟩)
  · refine Makes.bind makes_fresh ?_
    rintro n u _ ⟨rfl, hu⟩
    exact Makes.pure (by rw [hu, ht]; exact ⟨Fresh.single, trivial⟩)
  · refine Makes.bind (h.lambda t) ?_
    intro f u hu hf
    exact Makes.pure (ht ▸ hf)
  · refine Makes.bind (h.expression t) ?_
    intro a u hu ha
    refine Makes.bind_idle makes_expect ?_
    intro _ v hv
    refine Makes.bind makes_fresh ?_
    rintro n w _ ⟨rfl, hw⟩
    refine Makes.pure ?_
    rw [hw, hv, ← ht]
    exact ha.root hu

theorem makes_lambda (h : Made fuel) :
    Makes (lambda (fuel + 1)) s fun f hi => Neat s.nextId hi f.ids f.Tidy := by
  unfold lambda
  refine Makes.bind_idle makes_expect ?_
  intro _ t ht
  refine Makes.bind_idle ((makes_unlessNext fun u hu => hu ▸ makes_parameters).mono ?_) ?_
  · rintro a hi _ (⟨_, h⟩ | ⟨_, _, h⟩) <;> exact h
  intro params u hu
  refine Makes.bind_idle makes_expect ?_
  intro _ v hv
  refine Makes.bind_idle makes_expect ?_
  intro _ w hw
  refine Makes.bind (h.block w) ?_
  intro body x hx hb
  refine Makes.bind makes_fresh ?_
  rintro n y _ ⟨rfl, hy⟩
  refine Makes.pure ?_
  rw [hy, ← ht, ← hu, ← hv, ← hw]
  exact hb.root hx

theorem makes_block (h : Made fuel) : Makes (block (fuel + 1)) s fun ss hi =>
    Neat s.nextId hi (Stmt.idsAll ss) (Stmt.TidyAll ss) := by
  unfold block
  refine Makes.bind (h.declarations true #[] _ s (Nat.le_refl _) (Neat.nil trivial)) ?_
  intro body t _ hb
  refine Makes.bind_idle makes_expect ?_
  intro _ u hu
  exact Makes.pure (hu ▸ hb)

theorem makes_statement (h : Made fuel) : MakesStatement (statement (fuel + 1)) s := by
  unfold statement
  refine Makes.bind_idle makes_acceptMap? ?_
  rintro (_ | ⟨_ | _ | _ | _ | _ | _ | _, keyword⟩) t ht <;> rw [← ht]
  · exact makes_expressionStatement h.expression
  · exact makes_countingLoop h.expression h.statement
  · exact makes_branch h.expression h.statement
  · exact makes_print h.expression
  · exact makes_giveBack h.expression
  · exact makes_loop h.expression h.statement
  · exact makes_breakLoop
  · refine Makes.bind (h.block t) ?_
    intro body u _ hb
    exact Makes.pure (hb.imp fun h => ⟨rfl, h⟩)

theorem makes_declaration (h : Made fuel) : Makes (declaration (fuel + 1)) s fun a hi =>
    ∀ t, a = some t → Neat s.nextId hi t.ids t.Tidy := by
  unfold declaration
  refine makes_recovering (r := fun (t : Stmt) hi => Neat s.nextId hi t.ids t.Tidy) ?_
  refine Makes.bind_idle makes_acceptFunctionName? ?_
  rintro (_ | name) t ht <;> rw [← ht]
  · refine Makes.bind_idle makes_accept? ?_
    rintro (_ | var) u hu <;> rw [← hu]
    · exact (h.statement u).stmt
    · exact makes_varDeclaration h.expression
  · refine Makes.bind (h.lambda t) ?_
    intro f u _ hf
    exact Makes.pure hf

/-- Declarations are collected with identities in the order they were read in. -/
theorem makes_declarations (h : Made fuel) (inBlock : Bool) (done : Array Stmt)
    (hlo : lo ≤ s.nextId)
    (hd : Neat lo s.nextId (Stmt.idsAll done.toList) (Stmt.TidyAll done.toList)) :
    Makes (declarations (fuel + 1) inBlock done) s fun ss hi =>
      Neat lo hi (Stmt.idsAll ss) (Stmt.TidyAll ss) := by
  unfold declarations
  refine Makes.bind_idle makes_get ?_
  intro st t ht
  refine Makes.bind_idle makes_check ?_
  intro closes u hu
  rw [← ht, ← hu] at hlo hd
  split
  · exact Makes.pure hd
  refine Makes.bind (h.declaration u) ?_
  rintro (_ | a) v hv ha
  · refine h.declarations inBlock done lo v (Nat.le_trans hlo hv) ?_
    exact ⟨hd.fresh.mono (Nat.le_refl _) hv, hd.inPlace⟩
  · refine h.declarations inBlock _ lo v (Nat.le_trans hlo hv) ?_
    simpa [stmt_idsAll_append, stmt_tidyAll_append, Stmt.idsAll, Stmt.TidyAll] using
      hd.append (ha a rfl) hlo hv

theorem made (fuel : Nat) : Made fuel := by
  induction fuel with
  | zero => constructor <;> intros <;> exact Makes.throw
  | succ fuel ih =>
    exact
      { expression := fun _ => makes_expression ih
        chain := fun level _ => makes_chain ih level
        chainRest := fun level left _ _ => makes_chainRest ih level left
        unary := fun _ => makes_unary ih
        calls := fun callee _ _ => makes_calls ih callee
        arguments := fun done _ _ => makes_arguments ih done
        atom := fun _ => makes_atom ih
        lambda := fun _ => makes_lambda ih
        block := fun _ => makes_block ih
        statement := fun _ => makes_statement ih
        declaration := fun _ => makes_declaration ih
        declarations := fun inBlock done _ _ => makes_declarations ih inBlock done }

end Lox.Parse

namespace Lox

/-- With or without errors, the identities in a parsed program are new and pairwise different, and
declarations stand in lists of statements. -/
theorem parse_neat (tokens : List Token) (finish : Token) (firstId : NodeId) :
    firstId ≤ (parse tokens finish firstId).nextId ∧
      Fresh firstId (parse tokens finish firstId).nextId
        (Stmt.idsAll (parse tokens finish firstId).program) ∧
      Stmt.TidyAll (parse tokens finish firstId).program := by
  have h := (Parse.made (16 * (tokens.length + 1))).declarations false #[] firstId
    ⟨tokens, #[], firstId⟩ (Nat.le_refl _) ⟨Fresh.nil, trivial⟩
  simp only [Parse.Makes, Ends] at h
  unfold parse
  cases hp : Parse.declarations (16 * (tokens.length + 1)) false #[] ⟨tokens, #[], firstId⟩ with
  | ok program s =>
    rw [hp] at h
    simpa [hp] using ⟨h.1, h.2.fresh, h.2.inPlace⟩
  | error i s =>
    rw [hp] at h
    simpa [hp] using ⟨h, Fresh.nil, trivial⟩

end Lox
