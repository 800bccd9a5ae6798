import Lox.Proofs.Parse.Seats

/-! Whatever is put in the slots between its declarations, a phrase is read as the tree it has
without them, with what the fillings come to added at their places. -/
namespace Lox.Parse

open Grammar (Derives Phrase)

variable {p : Phrase} {ts : List Token} {parts : List Part}

/-- Parts of a phrase with a tree that statements can be added to. With nothing in the slots it is
`t`; with fillings in them, the parsers build it with what those come to, and complain of what is
wrong with those. -/
def Grown (p : Phrase) (t : p.Tree) (parts : List Part) : Prop :=
  ∃ u : p.Tree, p.fill (fun _ => []) u = t ∧ ∀ F : Nat → Filling,
    Complete p (Part.tokens (fun i => (F i).tokens) parts)
      ((Part.slots parts).flatMap fun i => (F i).complaints)
      (p.fill (fun i => (F i).statements) u)

/-- The same of declarations, which begin as declarations do. -/
def GrownAll (ss : List Stmt) (parts : List Part) : Prop :=
  Grown .declarations ss parts ∧ ∀ F : Nat → Filling,
    let us := Part.tokens (fun i => (F i).tokens) parts
    us = [] ∨ BeginsDeclaration us

/-- The tokens of a phrase, with slots at any of its places, are read as its tree is grown. -/
def Fillable : (p : Phrase) → List Token → p.Tree → Prop
  | .declarations, ts, ss => Seats true ts (GrownAll ss)
  | .block, ts, ss => ∃ us brace, ts = us ++ [brace] ∧ brace.kind = .rightBrace ∧
    Seats true us (GrownAll ss)
  | p, ts, t => Seats false ts (Grown p t)

/-- A phrase without braces has no seats. -/
theorem fillable_leaf {t : p.Tree} (hts : ∀ token ∈ ts, token.kind ≠ .leftBrace)
    (hc : Complete p ts [] t) (hfill : ∀ statements, p.fill statements t = t) :
    Seats false ts (Grown p t) := by
  refine (Seats.leaf hts).mono ?_
  rintro _ rfl
  refine ⟨t, hfill _, fun F => ?_⟩
  rw [hfill]
  simpa using hc

theorem operator_ne_brace {level : Level} {token : Token} {op : LogicalOp ⊕ BinaryOp}
    (h : level.operator? token.kind = some op) : token.kind ≠ .leftBrace := by
  intro hk
  cases level <;> simp [hk, Level.operator?] at h

theorem fillable_nothing : Seats true [] (GrownAll []) := by
  refine Seats.last.mono ?_
  rintro _ ⟨is, rfl⟩
  have hc (F : Nat → Filling) := Filling.complete_slots F is (Or.inl rfl) complete_nothing
  refine ⟨⟨is.map .mark, by simp, fun F => ?_⟩, fun F => ?_⟩
  · simpa using (hc F).2
  · simpa using (hc F).1

/-- The slots before a declaration are marks before its tree. -/
theorem fillable_next {us : List Token} {s : Stmt} {ss : List Stmt}
    (hs : Derives true .declaration ts s) (h : Seats false ts (Grown .declaration s))
    (h' : Seats true us (GrownAll ss)) : Seats true (ts ++ us) (GrownAll (s :: ss)) := by
  refine (Seats.next hs (Seats.begins (p := .declaration) (by simp) (begins hs) h) h').mono ?_
  rintro _ ⟨is, as, bs, rfl, ⟨⟨s, rfl, hs'⟩, hb⟩, ⟨ss, rfl, hss⟩, hbs⟩
  have hmark := Phrase.unmarked_fill hs.unmarked
  have hc (F : Nat → Filling) := Filling.complete_slots F is
    (Or.inr (BeginsDeclaration.append _ (hb _))) (complete_next (hs' F) (hb _) (hss F) (hbs F))
  refine ⟨⟨is.map .mark ++ s :: ss, ?_, fun F => ?_⟩, fun F => ?_⟩
  · simp [Stmt.fillAll_unmarked hmark]
  · simpa [Stmt.fillAll_unmarked hmark] using (hc F).2
  · simpa using (hc F).1

section Around

variable (p q : Phrase) {t : p.Tree} (wrap : p.Tree → q.Tree) (before after : List Token)

/-- A phrase that is another one between tokens can be filled as that can. -/
theorem fillable_between (hbefore : ∀ token ∈ before, token.kind ≠ .leftBrace)
    (hafter : ∀ token ∈ after, token.kind ≠ .leftBrace)
    (hfill : ∀ statements t, q.fill statements (wrap t) = wrap (p.fill statements t))
    (hc : ∀ {us cs t}, Complete p us cs t → Complete q (before ++ (us ++ after)) cs (wrap t))
    (h : Seats false ts (Grown p t)) :
    Seats false (before ++ (ts ++ after)) (Grown q (wrap t)) := by
  refine (Seats.append (Seats.leaf hbefore) (Seats.append h (Seats.leaf hafter))).mono ?_
  rintro _ ⟨_, _, rfl, rfl, as, _, rfl, ⟨u, rfl, hu⟩, rfl⟩
  refine ⟨wrap u, hfill _ _, fun F => ?_⟩
  rw [hfill]
  simpa using hc (hu F)

/-- Tokens before a phrase that are no brace move its seats along. -/
theorem fillable_behind (hbefore : ∀ token ∈ before, token.kind ≠ .leftBrace)
    (hfill : ∀ statements t, q.fill statements (wrap t) = wrap (p.fill statements t))
    (hc : ∀ {us cs t}, Complete p us cs t → Complete q (before ++ us) cs (wrap t))
    (h : Seats false ts (Grown p t)) : Seats false (before ++ ts) (Grown q (wrap t)) := by
  simpa using fillable_between p q wrap before [] hbefore (by simp) hfill
    (fun h => by simpa using hc h) h

/-- The same of a phrase that is another one before tokens, if it begins as that does. -/
theorem fillable_ended (hp : p ≠ .declarations) (hb : Begins p ts)
    (hafter : ∀ token ∈ after, token.kind ≠ .leftBrace)
    (hfill : ∀ statements t, q.fill statements (wrap t) = wrap (p.fill statements t))
    (hc : ∀ {us cs t}, Complete p us cs t → Begins p us → Complete q (us ++ after) cs (wrap t))
    (h : Seats false ts (Grown p t)) : Seats false (ts ++ after) (Grown q (wrap t)) := by
  refine (Seats.append (Seats.begins hp hb h) (Seats.leaf hafter)).mono ?_
  rintro _ ⟨as, _, rfl, ⟨⟨u, rfl, hu⟩, hbegins⟩, rfl⟩
  refine ⟨wrap u, hfill _ _, fun F => ?_⟩
  rw [hfill]
  simpa using hc (hu F) (hbegins _)

theorem fillable_begun (hp : p ≠ .declarations) (hb : Begins p ts)
    (hfill : ∀ statements t, q.fill statements (wrap t) = wrap (p.fill statements t))
    (hc : ∀ {us cs t}, Complete p us cs t → Begins p us → Complete q us cs (wrap t))
    (h : Seats false ts (Grown p t)) : Seats false ts (Grown q (wrap t)) := by
  simpa using fillable_ended p q wrap [] hp hb (by simp) hfill
    (fun h hb => by simpa using hc h hb) h

end Around

/-- A phrase of two others, with tokens before and between them that open no block, can be filled as
they can. -/
theorem fillable_pair (p p' q : Phrase) {t : p.Tree} {t' : p'.Tree} {us : List Token}
    (wrap : p.Tree → p'.Tree → q.Tree) (before between : List Token)
    (hbefore : ∀ token ∈ before, token.kind ≠ .leftBrace)
    (hbetween : ∀ token ∈ between, token.kind ≠ .leftBrace)
    (hfill : ∀ statements t t',
      q.fill statements (wrap t t') = wrap (p.fill statements t) (p'.fill statements t'))
    (hc : ∀ {us vs cs ds t t'}, Complete p us cs t → Complete p' vs ds t' →
      Complete q (before ++ (us ++ (between ++ vs))) (cs ++ ds) (wrap t t'))
    (h : Seats false ts (Grown p t)) (h' : Seats false us (Grown p' t')) :
    Seats false (before ++ (ts ++ (between ++ us))) (Grown q (wrap t t')) := by
  refine (Seats.append (Seats.leaf hbefore)
    (Seats.append h (Seats.append (Seats.leaf hbetween) h'))).mono ?_
  rintro _ ⟨_, _, rfl, rfl, as, _, rfl, ⟨u, rfl, hu⟩, _, bs, rfl, rfl, u', rfl, hu'⟩
  refine ⟨wrap u u', hfill _ _ _, fun F => ?_⟩
  rw [hfill]
  simpa using hc (hu F) (hu' F)

/-- A block has a seat behind its opening brace and behind each of its declarations. -/
theorem fillable_block {brace : Token} {ss : List Stmt} (hk : brace.kind = .leftBrace)
    (h : Fillable .block ts ss) :
    Seats false (brace :: ts) (Grown (.statement false) (.block ss)) := by
  obtain ⟨us, last, rfl, hb, h⟩ := h
  refine (Seats.braces hk hb h).mono ?_
  rintro _ ⟨as, rfl, ⟨ss, rfl, hs⟩, -⟩
  refine ⟨.block ss, rfl, fun F => ?_⟩
  simpa using complete_block hk (complete_braced (hs F) hb)

theorem fillable_function {lp rp brace : Token} {us ps : List Token} {ss : List Stmt} {n : NodeId}
    (hl : lp.kind = .leftParen) (hr : rp.kind = .rightParen) (hk : brace.kind = .leftBrace)
    (h : Seats false ts (Grown .parameters ps)) (h' : Fillable .block us ss) :
    Seats false (lp :: (ts ++ rp :: brace :: us)) (Grown .function (.mk n ps ss)) := by
  obtain ⟨vs, last, rfl, hb, h'⟩ := h'
  refine (Seats.cons (by simp [hl]) (Seats.append h
    (Seats.cons (by simp [hr]) (Seats.braces hk hb h')))).mono ?_
  rintro _ ⟨_, rfl, as, _, rfl, ⟨ps, rfl, hp⟩, _, rfl, bs, rfl, ⟨ss, rfl, hs⟩, -⟩
  refine ⟨.mk _ ps ss, rfl, fun F => ?_⟩
  simpa using complete_function hl (hp F) hr hk (complete_braced (hs F) hb)

/-- The seats of a call are in the expression called and in the arguments. -/
theorem fillable_call {e : Expr} {lp rp : Token} {us : List Token} {es : List Expr} {n : NodeId}
    (hl : lp.kind = .leftParen) (hr : rp.kind = .rightParen) (h : Seats false ts (Grown .call e))
    (h' : Seats false us (Grown .arguments es)) :
    Seats false (ts ++ lp :: (us ++ [rp])) (Grown .call (.call n e rp es)) := by
  refine (Seats.append h (Seats.cons (by simp [hl])
    (Seats.append h' (Seats.leaf (by simp [hr]))))).mono ?_
  rintro _ ⟨as, _, rfl, ⟨e, rfl, hv⟩, _, rfl, bs, _, rfl, ⟨es, rfl, ha⟩, rfl⟩
  refine ⟨.call n e rp es, rfl, fun F => ?_⟩
  simpa using complete_call (hv F) hl (ha F) hr

section Statements

variable {keyword lp rp : Token} {us vs : List Token} {d : Bool} {s : Stmt}

theorem fillable_branchElse {other : Token} {d' : Bool} {c : Expr} {s' : Stmt}
    (hk : keyword.kind = .kwIf) (hl : lp.kind = .leftParen) (hr : rp.kind = .rightParen)
    (ho : other.kind = .kwElse) (h : Seats false ts (Grown .expression c))
    (h' : Seats false us (Grown (.statement false) s))
    (h'' : Seats false vs (Grown (.statement d') s')) :
    Seats false (keyword :: lp :: (ts ++ rp :: (us ++ other :: vs)))
      (Grown (.statement d') (.branch keyword c s (some s'))) := by
  refine (Seats.cons (by simp [hk]) (Seats.cons (by simp [hl]) (Seats.append h
    (Seats.cons (by simp [hr]) (Seats.append h' (Seats.cons (by simp [ho]) h'')))))).mono ?_
  rintro _ ⟨_, rfl, _, rfl, as, _, rfl, ⟨c, rfl, hc⟩, _, rfl, bs, _, rfl, ⟨s, rfl, hs⟩, ds, rfl,
    s', rfl, hs'⟩
  refine ⟨.branch _ c s (some s'), rfl, fun F => ?_⟩
  simpa using complete_branchElse hk hl (hc F) hr (hs F) ho (hs' F)

/-- The blocks of a counting loop have no slots of their own: they are not in its tokens. -/
theorem fillable_counting {semi : Token} {ws : List Token} {i : Option Stmt} {c step : Option Expr}
    {n : NodeId} (hk : keyword.kind = .kwFor) (hl : lp.kind = .leftParen)
    (hi : Derives true .start ts i) (hm : semi.kind = .semicolon) (hr : rp.kind = .rightParen)
    (hs : Derives true (.statement d) ws s) (h : Seats false ts (Grown .start i))
    (hc : Seats false us (Grown .optional c)) (ht : Seats false vs (Grown .optional step))
    (hb : Seats false ws (Grown (.statement d) s)) :
    Seats false (keyword :: lp :: (ts ++ (us ++ semi :: (vs ++ rp :: ws))))
      (Grown (.statement d) (.counting keyword i (c.getD (.literal n (.bool true))) step s)) := by
  refine (Seats.cons (by simp [hk]) (Seats.cons (by simp [hl]) (Seats.append h
    (Seats.append hc (Seats.cons (by simp [hm]) (Seats.append ht
      (Seats.cons (by simp [hr]) hb))))))).mono ?_
  rintro _ ⟨_, rfl, _, rfl, as, _, rfl, ⟨i, rfl, hgi⟩, bs, _, rfl, ⟨c, rfl, hgc⟩, _, rfl, cs, _,
    rfl, ⟨step, rfl, hgt⟩, ds, rfl, s, rfl, hgs⟩
  have hmarks := Phrase.unmarked_fill hi.unmarked
  have hmark := Phrase.unmarked_fill hs.unmarked
  refine ⟨.counting keyword i (c.getD (.literal n (.bool true))) step s, ?_, fun F => ?_⟩
  · exact Stmt.fill_counting hmarks hmark
  · simpa [Stmt.fill_counting hmarks hmark] using
      complete_counting hk hl (hgi F) (hgc F) hm (hgt F) hr (hgs F)

end Statements

/-- What is derived can be filled. -/
theorem fillable {t : p.Tree} (h : Derives true p ts t) : Fillable p ts t := by
  induction h with
  | nothing => exact fillable_nothing
  | next hs _ h h' => exact fillable_next hs h h'
  | named hk hn _ h =>
    exact fillable_behind .function .declaration (Stmt.function _) [_, _] (by simp [hk, hn])
      (fun _ _ => rfl) (complete_named hk hn) h
  | declared hk _ h =>
    exact fillable_behind .binding .declaration id [_] (by simp [hk]) (fun _ _ => rfl)
      (complete_declared hk) h
  | plain hd h =>
    exact fillable_begun (.statement _) .declaration id (by simp) (begins hd) (fun _ _ => rfl)
      complete_plain h
  | unset hn hs => exact fillable_leaf (by simp [hn, hs]) (complete_binding hn hs) fun _ => rfl
  | set hn he _ hs h =>
    exact fillable_between .expression .binding (fun e => Stmt.var _ (some e)) [_, _] [_]
      (by simp [hn, he]) (by simp [hs]) (fun _ _ => rfl) (fun h => complete_set hn he h hs) h
  | evaluate he hs h =>
    exact fillable_ended .expression (.statement _) Stmt.expression [_] (by simp) (begins he)
      (by simp [hs]) (fun _ _ => rfl) (fun h hb => complete_evaluate h hs hb) h
  | print hk _ hs h =>
    exact fillable_between .expression (.statement _) Stmt.print [_] [_] (by simp [hk])
      (by simp [hs]) (fun _ _ => rfl) (fun h => complete_print hk h hs) h
  | giveBack hk _ hs h =>
    exact fillable_between .optional (.statement _) (Stmt.giveBack _) [_] [_] (by simp [hk])
      (by simp [hs]) (fun _ _ => rfl) (fun h => complete_giveBack hk h hs) h
  | breakLoop hk hs =>
    exact fillable_leaf (by simp [hk, hs]) (complete_breakLoop hk hs) fun _ => rfl
  | block hk _ h => exact fillable_block hk h
  | loop hk hl _ hr _ h h' =>
    exact fillable_pair .expression (.statement _) (.statement _) (Stmt.loop _) [_, _] [_]
      (by simp [hk, hl]) (by simp [hr]) (fun _ _ _ => rfl)
      (fun h h' => complete_loop hk hl h hr h') h h'
  | counting hk hl hi _ hm _ hr hs h hc ht hb =>
    rw [Grammar.desugared_eq]
    exact fillable_counting hk hl hi hm hr hs h hc ht hb
  | branch hk hl _ hr _ h h' =>
    exact fillable_pair .expression (.statement _) (.statement _) (Stmt.branch _ · · none) [_, _]
      [_] (by simp [hk, hl]) (by simp [hr]) (fun _ _ _ => rfl)
      (fun h h' => complete_branch hk hl h hr h') h h'
  | branchElse hk hl _ hr _ hd ho _ h h' h'' =>
    obtain rfl := hd rfl
    exact fillable_branchElse hk hl hr ho h h' h''
  | startNothing hs => exact fillable_leaf (by simp [hs]) (complete_startNothing hs) fun _ => rfl
  | startVariable hk _ h =>
    exact fillable_behind .binding .start some [_] (by simp [hk]) (fun _ _ => rfl)
      (complete_startVariable hk) h
  | startExpression he hs h =>
    exact fillable_ended .expression .start (fun e => some (Stmt.expression e)) [_] (by simp)
      (begins he) (by simp [hs]) (fun _ _ => rfl) (fun h hb => complete_startExpression h hs hb) h
  | braced _ hb h => exact ⟨_, _, rfl, hb, h⟩
  | function hl _ hr hk _ h h' => exact fillable_function hl hr hk h h'
  | noParameters =>
    exact fillable_leaf (by simp) (fun _ _ hr _ => (takes_unlessNext_none hr).mono (by simp))
      fun _ => rfl
  | someParameters hd hl h =>
    refine (Seats.begins (p := .names) (by simp) (begins hd) h).mono ?_
    rintro _ ⟨⟨ps, rfl, hp⟩, hb⟩
    exact ⟨ps, rfl, fun F => complete_someParameters (hp F) hl (hb _)⟩
  | oneName hn => exact fillable_leaf (by simp [hn]) (complete_oneName hn) fun _ => rfl
  | moreNames hn hc _ h =>
    exact fillable_behind .names .names (_ :: ·) [_, _] (by simp [hn, hc]) (fun _ _ => rfl)
      (complete_moreNames hn hc) h
  | absent =>
    exact fillable_leaf (by simp) (fun _ _ _ _ hr _ => (takes_unlessNext_none hr).mono (by simp))
      fun _ => rfl
  | present he h =>
    exact fillable_begun .expression .optional some (by simp) (begins he) (fun _ _ => rfl)
      complete_present h
  | assign hn hq _ h =>
    exact fillable_behind .expression .expression (Expr.assign _ _) [_, _] (by simp [hn, hq])
      (fun _ _ => rfl) (complete_assign hn hq) h
  | loosest _ h =>
    exact fillable_behind (.chain _) .expression id [] (by simp) (fun _ _ => rfl) complete_loosest h
  | single he h =>
    exact fillable_begun (.operand _) (.chain _) id (by simp) (begins he) (fun _ _ => rfl)
      complete_single h
  | logical _ ho _ h h' =>
    have hop := operator?_logical ho
    exact fillable_pair (.chain _) (.operand _) (.chain _) (Expr.logical _ · _ _ ·) [] [_]
      (by simp) (by simp [operator_ne_brace hop]) (fun _ _ _ => rfl)
      (fun h h' => complete_combine h hop h') h h'
  | binary _ ho _ h h' =>
    have hop := operator?_binary ho
    exact fillable_pair (.chain _) (.operand _) (.chain _) (Expr.binary _ · _ _ ·) [] [_]
      (by simp) (by simp [operator_ne_brace hop]) (fun _ _ _ => rfl)
      (fun h h' => complete_combine h hop h') h h'
  | tighter ht _ h =>
    exact fillable_behind (.chain _) (.operand _) id [] (by simp) (fun _ _ => rfl)
      (complete_tighter ht) h
  | tightest _ h =>
    exact fillable_behind .unary (.operand _) id [] (by simp) (fun _ _ => rfl) complete_tightest h
  | not hk _ h | negate hk _ h =>
    exact fillable_behind .unary .unary (Expr.unary _ _ _) [_] (by simp [hk]) (fun _ _ => rfl)
      (complete_unary (by simp [unaryAt?, hk])) h
  | called _ h =>
    exact fillable_behind .call .unary id [] (by simp) (fun _ _ => rfl)
      (fun h _ _ => h.takes_call) h
  | uncalled he h =>
    exact fillable_begun .primary .call id (by simp) (begins he) (fun _ _ => rfl)
      complete_uncalled h
  | call _ hl _ hr h h' => exact fillable_call hl hr h h'
  | noArguments =>
    exact fillable_leaf (by simp) (fun _ _ hr _ => (takes_unlessNext_none hr).mono (by simp))
      fun _ => rfl
  | someArguments hd hl h =>
    refine (Seats.begins (p := .values) (by simp) (begins hd) h).mono ?_
    rintro _ ⟨⟨es, rfl, ha⟩, hb⟩
    refine ⟨es, rfl, fun F => complete_someArguments (ha F) ?_ (hb _)⟩
    simpa [maxArity, Expr.length_fillAll] using hl
  | oneValue _ h =>
    exact fillable_behind .expression .values (fun e => [e]) [] (by simp) (by simp)
      complete_oneValue h
  | moreValues _ hc _ h h' =>
    exact fillable_pair .expression .values .values List.cons [] [_] (by simp) (by simp [hc])
      (fun _ _ _ => rfl) (fun h h' => complete_moreValues h hc h') h h'
  | no hk | yes hk | nil hk | number hk | string hk =>
    exact fillable_leaf (by simp [hk]) (complete_literal (by simp [atomAt?, hk])) fun _ => rfl
  | name hk => exact fillable_leaf (by simp [hk]) (complete_reference hk) fun _ => rfl
  | lambda hk _ h =>
    exact fillable_behind .function .primary Expr.lambda [_] (by simp [hk]) (fun _ _ => rfl)
      (complete_lambda hk) h
  | group hl _ hr h =>
    exact fillable_between .expression .primary (Expr.group _) [_] [_] (by simp [hl])
      (by simp [hr]) (fun _ _ => rfl) (fun h => complete_group hl h hr) h

end Lox.Parse
