import Lox.Proofs.Parse.Cursor
import Lox.Proofs.Parse.Taking

/-! A parser with a cursor beside the one without: they do the same for as long as the tokens end
where the cursor's list does. Every run of the parser of declarations moves the cursor. -/
namespace Lox.Cursor

/-- The tokens of a source text and the one that stands for its end. -/
structure Input where
  tokens : List Token
  finish : Token
  finish_kind : finish.kind = .eof
  kind_ne : ∀ t ∈ tokens, t.kind ≠ .eof

variable {I : Input} {c c' c'' : State} {s s' : Parse.State} {t name : Token} {more : List Token}
  {α β γ : Type} {x : Parser α} {y : Parse.Parser α} {kind : TokenKind} {d d' n n' m : Nat}

/-- Two parsers at the same place: what is still to be read stands from the cursor on. -/
structure Along (I : Input) (c : State) (s : Parse.State) : Prop where
  tokens : c.tokens = I.tokens ++ [I.finish]
  cursor_le : c.cursor ≤ I.tokens.length
  rest : s.rest = I.tokens.drop c.cursor
  errors : c.errors.toList = s.complaints.toList.map fun e => ⟨e.fault, e.token.getD I.finish⟩
  nextId : c.nextId = s.nextId

/-- How a parser moves: past `n` tokens at least. The declarations that it runs start at different
places, no less than `d` tokens ahead, and each stops behind the place where it started. -/
structure Moves (d n : Nat) (c c' : State) : Prop where
  cursor : c.cursor + n ≤ c'.cursor
  calls : ∃ new, c'.calls = c.calls ++ new ∧ (new.map Call.start).Nodup ∧
    ∀ call ∈ new, c.cursor + d ≤ call.start ∧ call.start < call.stop ∧ call.stop ≤ c'.cursor

theorem Moves.still (hcursor : c.cursor + n ≤ c'.cursor) (hcalls : c'.calls = c.calls) :
    Moves d n c c' := ⟨hcursor, [], by simp [hcalls], by simp, by simp⟩

/-- Moves after one another add up, in tokens and in calls. -/
theorem Moves.trans (h : Moves d n c c') (h' : Moves d' n' c' c'') (hd : d ≤ n + d')
    (hm : m ≤ n + n') : Moves d m c c'' := by
  obtain ⟨hcursor, new, hnew, hnodup, hbounds⟩ := h
  obtain ⟨hcursor', new', hnew', hnodup', hbounds'⟩ := h'
  refine ⟨by omega, new ++ new', by rw [hnew', hnew, List.append_assoc], ?_, ?_⟩
  · rw [List.map_append, List.nodup_append]
    refine ⟨hnodup, hnodup', ?_⟩
    -- The first have stopped before the others start.
    intro place hplace place' hplace'
    obtain ⟨call, hcall, rfl⟩ := List.mem_map.mp hplace
    obtain ⟨call', hcall', rfl⟩ := List.mem_map.mp hplace'
    have := hbounds call hcall
    have := hbounds' call' hcall'
    omega
  · rw [List.forall_mem_append]
    refine ⟨fun call hcall => ?_, fun call hcall => ?_⟩
    · have := hbounds call hcall
      omega
    · have := hbounds' call hcall
      omega

theorem Moves.mono (h : Moves d n c c') (hd : d' ≤ d) (hn : n' ≤ n) : Moves d' n' c c' :=
  (Moves.still (d := d') (n := 0) (Nat.le_refl _) rfl).trans h (by omega) (by omega)

theorem Moves.noted (h : Moves 1 1 c c') :
    Moves 0 1 c { c' with calls := c'.calls ++ [⟨c.cursor, c'.cursor⟩] } := by
  obtain ⟨hcursor, new, hnew, hnodup, hbounds⟩ := h
  refine ⟨hcursor, new ++ [⟨c.cursor, c'.cursor⟩], by simp [hnew], ?_, ?_⟩
  · rw [List.map_append, List.nodup_append]
    refine ⟨hnodup, by simp, ?_⟩
    intro place hplace place' hplace'
    obtain ⟨call, hcall, rfl⟩ := List.mem_map.mp hplace
    obtain rfl := List.mem_singleton.mp hplace'
    have hstart := (hbounds call hcall).1
    exact (Nat.ne_of_lt hstart).symm
  · rw [List.forall_mem_append]
    refine ⟨fun call hcall => ?_, fun call hcall => ?_⟩
    · have := hbounds call hcall
      simp only
      omega
    · obtain rfl := List.mem_singleton.mp hcall
      exact ⟨Nat.le_refl _, hcursor, Nat.le_refl _⟩

/-- How two parsers end side by side: with the same result, both unwinding, or both without fuel.
The cursor has not left its list. -/
inductive Outcome (I : Input) (d n : Nat) (c : State) :
    EStateM.Result Stop State α → EStateM.Result Parse.Interrupt Parse.State α → Prop
  | ok {a : α} {c' : State} {s' : Parse.State} (along : Along I c' s') (moves : Moves d n c c') :
      Outcome I d n c (.ok a c') (.ok a s')
  | unwind {c' : State} {s' : Parse.State} (along : Along I c' s') (moves : Moves d 0 c c') :
      Outcome I d n c (.error .unwind c') (.error .unwind s')
  | outOfFuel {c' : State} {s' : Parse.State} :
      Outcome I d n c (.error .outOfFuel c') (.error .outOfFuel s')

/-- From the same place, a parser with a cursor does as one without. -/
def Follows (I : Input) (d n : Nat) (x : Parser α) (y : Parse.Parser α) : Prop :=
  ∀ c s, Along I c s → Outcome I d n c (x c) (y s)

theorem Outcome.after {r : EStateM.Result Stop State α}
    {r' : EStateM.Result Parse.Interrupt Parse.State α} (hmoves : Moves d n c c')
    (h : Outcome I d' n' c' r r') (hd : d ≤ n + d') (hm : m ≤ n + n') : Outcome I d m c r r' := by
  cases h with
  | ok along moves => exact .ok along (hmoves.trans moves hd hm)
  | unwind along moves => exact .unwind along (hmoves.trans moves hd (Nat.zero_le _))
  | outOfFuel => exact .outOfFuel

/-- Two parsers agree on two parts if they agree on each, the second from wherever both are. -/
theorem Outcome.bind {f : α → Parser β} {g : α → Parse.Parser β}
    (hx : Outcome I d n c (x c) (y s)) (hf : ∀ a, Follows I d' n' (f a) (g a)) (hd : d ≤ n + d')
    (hm : m ≤ n + n') : Outcome I d m c ((x >>= f) c) ((y >>= g) s) := by
  simp only [Bind.bind, EStateM.bind]
  generalize x c = r, y s = r' at hx
  cases hx with
  | ok along moves => exact (hf _ _ _ along).after moves hd hm
  | unwind along moves => exact .unwind along moves
  | outOfFuel => exact .outOfFuel

theorem Follows.mono (h : Follows I d n x y) (hd : d' ≤ d) (hn : n' ≤ n) :
    Follows I d' n' x y := fun c s hc =>
  (h c s hc).after (Moves.still (d := d') (n := 0) (Nat.le_refl _) rfl) (by omega) (by omega)

/-- Once a token has been passed, declarations may start wherever the cursor is. -/
theorem Follows.further (h : Follows I 1 n x y) : Follows I 0 0 x y :=
  h.mono (Nat.zero_le _) (Nat.zero_le _)

theorem Follows.pure {a : α} : Follows I d 0 (pure a) (pure a) := fun _ _ h =>
  .ok h (.still (Nat.le_refl _) rfl)

theorem Follows.outOfFuel : Follows I d n (throw .outOfFuel : Parser α) (throw .outOfFuel) :=
  fun _ _ _ => .outOfFuel

theorem Follows.bind {f : α → Parser β} {g : α → Parse.Parser β} (hx : Follows I d 0 x y)
    (hf : ∀ a, Follows I d n (f a) (g a)) : Follows I d n (x >>= f) (y >>= g) := fun c s h =>
  (hx c s h).bind hf (Nat.le_add_left d 0) (Nat.le_add_left n 0)

/-! What a parser reads is there. -/

theorem run_bind {ε σ : Type} {x : EStateM ε σ α} {f : α → EStateM ε σ β} {a : α} {r t : σ}
    (h : x r = .ok a t) : (x >>= f) r = f a t := by
  simp only [Bind.bind, EStateM.bind, h]

theorem run_get {σ ε : Type} {r : σ} : (get : EStateM ε σ σ) r = .ok r r := rfl

theorem run_tokenAt {place : Nat} (h : c.tokens[place]? = some t) :
    tokenAt place c = .ok t c := by
  simp only [tokenAt, h]

theorem Along.token (h : Along I c s) :
    c.tokens[c.cursor]? = some (s.rest.head?.getD I.finish) := by
  rw [h.tokens, h.rest, List.head?_drop]
  rcases Nat.lt_or_eq_of_le h.cursor_le with hlt | heq
  · rw [List.getElem?_append_left hlt, List.getElem?_eq_getElem hlt, Option.getD_some]
  · simp [heq]

theorem Along.peek (h : Along I c s) : Cursor.peek c = .ok (s.rest.head?.getD I.finish) c := by
  rw [Cursor.peek, run_bind run_get]
  exact run_tokenAt h.token

theorem Along.isAtEnd (h : Along I c s) : Cursor.isAtEnd c = .ok s.rest.isEmpty c := by
  have hkind : decide ((s.rest.head?.getD I.finish).kind = .eof) = s.rest.isEmpty := by
    cases hs : s.rest with
    | nil => simp [I.finish_kind]
    | cons t more =>
      have hmem : t ∈ I.tokens := List.mem_of_mem_drop (h.rest ▸ hs ▸ List.mem_cons_self)
      simp [I.kind_ne t hmem]
  rw [Cursor.isAtEnd, run_bind h.peek, hkind]
  rfl

theorem Along.check (h : Along I c s) :
    Cursor.check kind c = .ok (s.rest.head?.any (·.kind = kind)) c := by
  rw [Cursor.check, run_bind h.isAtEnd]
  cases hs : s.rest with
  | nil => rfl
  | cons t more =>
    rw [List.isEmpty_cons, if_neg Bool.false_ne_true, run_bind h.peek, hs]
    rfl

/-- Behind the next token, the parsers are at the same place again. -/
theorem Along.next (h : Along I c s) (hs : s.rest = t :: more) :
    Along I { c with cursor := c.cursor + 1 } { s with rest := more } := by
  have hdrop : I.tokens.drop c.cursor = t :: more := h.rest ▸ hs
  have hlt : c.cursor < I.tokens.length := by
    refine Nat.lt_of_not_le fun hge => ?_
    simp [List.drop_of_length_le hge] at hdrop
  rw [List.drop_eq_getElem_cons hlt, List.cons.injEq] at hdrop
  exact ⟨h.tokens, hlt, hdrop.2.symm, h.errors, h.nextId⟩

theorem Along.lt_length (h : Along I c s) (hs : s.rest = t :: more) :
    c.cursor + 1 < c.tokens.length := by
  have hle := (h.next hs).cursor_le
  rw [h.tokens, List.length_append, List.length_singleton]
  exact Nat.lt_succ_of_le hle

/-- A look at the token after the next stays within the tokens, since the last one ends the input.
-/
theorem Along.checkNext (h : Along I c s) (hs : s.rest = t :: more) (hkind : kind ≠ .eof) :
    Cursor.checkNext kind c = .ok (more.head?.any (·.kind = kind)) c := by
  have hlt : ¬c.tokens.length ≤ c.cursor + 1 := Nat.not_le_of_lt (h.lt_length hs)
  have htoken : c.tokens[c.cursor + 1]? = some (more.head?.getD I.finish) := (h.next hs).token
  have hfound : decide ((more.head?.getD I.finish).kind = kind) =
      more.head?.any (·.kind = kind) := by
    cases more with
    | nil => simp [I.finish_kind, hkind.symm]
    | cons t more => rfl
  rw [Cursor.checkNext, run_bind h.isAtEnd, hs, List.isEmpty_cons, if_neg Bool.false_ne_true,
    run_bind run_get, if_neg hlt, run_bind (run_tokenAt htoken), hfound]
  rfl

theorem Along.previous (h : Along I c s) (hs : s.rest = t :: more) :
    Cursor.previous { c with cursor := c.cursor + 1 } =
      .ok t { c with cursor := c.cursor + 1 } := by
  have htoken : c.tokens[c.cursor]? = some t := by
    rw [h.token, hs]
    rfl
  rw [Cursor.previous, run_bind run_get]
  exact run_tokenAt htoken

/-- With a token left, the cursor reads it and moves on by one. -/
theorem Along.advance (h : Along I c s) (hs : s.rest = t :: more) :
    Cursor.advance c = .ok t { c with cursor := c.cursor + 1 } := by
  have hstep : step c = .ok () { c with cursor := c.cursor + 1 } := if_pos (h.lt_length hs)
  rw [Cursor.advance, run_bind h.isAtEnd, hs, List.isEmpty_cons, if_neg Bool.false_ne_true,
    run_bind hstep]
  exact h.previous hs

/-- At the end of the input the last token is read once more, so there has to be one. -/
theorem Along.advance_end (h : Along I c s) (hs : s.rest = []) (hpos : 0 < c.cursor) :
    ∃ t, Cursor.advance c = .ok t c := by
  have hle := h.cursor_le
  have hlength : c.tokens.length = I.tokens.length + 1 := by simp [h.tokens]
  cases hplace : c.cursor with
  | zero => omega
  | succ place =>
    have hlt : place < c.tokens.length := by omega
    refine ⟨c.tokens[place], ?_⟩
    rw [Cursor.advance, run_bind h.isAtEnd, hs, List.isEmpty_nil, if_pos rfl, Cursor.previous,
      run_bind run_get, hplace]
    exact run_tokenAt (List.getElem?_eq_getElem hlt)

theorem Along.acceptMap?_some {f : Token → Option α} {a : α} (h : Along I c s)
    (hs : s.rest = t :: more) (ht : f t = some a) :
    Cursor.acceptMap? f c = .ok (some a) { c with cursor := c.cursor + 1 } := by
  rw [Cursor.acceptMap?, run_bind h.isAtEnd, hs, List.isEmpty_cons, if_neg Bool.false_ne_true,
    run_bind h.peek, hs, List.head?_cons, Option.getD_some, ht]
  simp only
  rw [run_bind (h.advance hs), ht]
  rfl

theorem Along.acceptMap?_none {f : Token → Option α} (h : Along I c s)
    (hs : ∀ token ∈ s.rest.head?, f token = none) : Cursor.acceptMap? f c = .ok none c := by
  rw [Cursor.acceptMap?, run_bind h.isAtEnd]
  cases hrest : s.rest with
  | nil => rfl
  | cons t more =>
    have ht : f t = none := hs t (by rw [hrest]; rfl)
    rw [List.isEmpty_cons, if_neg Bool.false_ne_true, run_bind h.peek, hrest, List.head?_cons,
      Option.getD_some, ht]
    rfl

/-- A fault blamed on no token is blamed on the end of the input. -/
theorem Along.complain (h : Along I c s) (fault : SyntaxFault) (token : Option Token) :
    Along I { c with errors := c.errors.push ⟨fault, token.getD I.finish⟩ }
      { s with complaints := s.complaints.push ⟨fault, token⟩ } :=
  ⟨h.tokens, h.cursor_le, h.rest, by simp [h.errors], h.nextId⟩

theorem Along.complainHere (h : Along I c s) (fault : SyntaxFault) :
    Cursor.complainHere fault c =
      .ok () { c with errors := c.errors.push ⟨fault, s.rest.head?.getD I.finish⟩ } := by
  rw [Cursor.complainHere, run_bind h.peek]
  rfl

/-! Parsers that begin with a token. -/

/-- A computation that goes on with the next token passed. -/
theorem Outcome.next {r : EStateM.Result Stop State α}
    {r' : EStateM.Result Parse.Interrupt Parse.State α}
    (h : Outcome I (d - 1) (n - 1) { c with cursor := c.cursor + 1 } r r') :
    Outcome I d n c r r' := by
  have hmoves : Moves d 1 c { c with cursor := c.cursor + 1 } := .still (Nat.le_refl _) rfl
  refine h.after hmoves ?_ ?_ <;> omega

/-- A token that is accepted counts as one step of those still owed. -/
theorem Follows.bind_acceptMap? {f : Token → Option γ} {g : Option γ → Parser α}
    {h : Option γ → Parse.Parser α}
    (hsome : ∀ a, Follows I (d - 1) (n - 1) (g (some a)) (h (some a)))
    (hnone : Follows I d n (g none) (h none)) :
    Follows I d n (acceptMap? f >>= g) (Parse.acceptMap? f >>= h) := by
  intro c s hc
  have hstay (hs : ∀ token ∈ s.rest.head?, f token = none) :
      Outcome I d n c ((acceptMap? f >>= g) c) ((Parse.acceptMap? f >>= h) s) := by
    rw [run_bind (hc.acceptMap?_none hs), run_bind (Parse.acceptMap?_none hs)]
    exact hnone c s hc
  cases hs : s.rest with
  | nil => exact hstay (by simp [hs])
  | cons t more =>
    cases ht : f t with
    | none => exact hstay (by simp [hs, ht])
    | some a =>
      have hparse : Parse.acceptMap? f s = .ok (some a) { s with rest := more } := by
        simp [Parse.acceptMap?, hs, ht]
      rw [run_bind (hc.acceptMap?_some hs ht), run_bind hparse]
      exact .next (hsome a _ _ (hc.next hs))

theorem Follows.bind_accept? {g : Option Token → Parser α} {h : Option Token → Parse.Parser α}
    (hsome : ∀ token, Follows I (d - 1) (n - 1) (g (some token)) (h (some token)))
    (hnone : Follows I d n (g none) (h none)) :
    Follows I d n (accept? kind >>= g) (Parse.accept? kind >>= h) :=
  .bind_acceptMap? hsome hnone

theorem follows_complainHere {fault : SyntaxFault} :
    Follows I d 0 (complainHere fault) (Parse.complainHere fault) := by
  intro c s h
  rw [h.complainHere]
  exact .ok (h.complain fault s.rest.head?) (.still (Nat.le_refl _) rfl)

theorem follows_complain {fault : SyntaxFault} :
    Follows I d 0 (complain fault t) (Parse.complain fault (some t)) := fun _ _ h =>
  .ok (h.complain fault (some t)) (.still (Nat.le_refl _) rfl)

theorem follows_missing {what : Expectation} :
    Follows I d n (missing what : Parser α) (Parse.missing what) := by
  intro c s h
  rw [missing, run_bind (h.complainHere _)]
  exact .unwind (h.complain (.expected what) s.rest.head?) (.still (Nat.le_refl _) rfl)

theorem follows_expect {what : Expectation} :
    Follows I d 1 (expect kind what) (Parse.expect kind what) :=
  .bind_accept? (fun _ => .pure) follows_missing

theorem Follows.bind_expect {what : Expectation} {g : Token → Parser α}
    {h : Token → Parse.Parser α} (hg : ∀ token, Follows I (d - 1) (n - 1) (g token) (h token)) :
    Follows I d n (expect kind what >>= g) (Parse.expect kind what >>= h) := by
  intro c s hc
  refine (follows_expect (d := d) c s hc).bind hg ?_ ?_ <;> omega

theorem Follows.bind_fresh {g : NodeId → Parser α} {h : NodeId → Parse.Parser α}
    (hg : ∀ id, Follows I d n (g id) (h id)) :
    Follows I d n (fresh >>= g) (Parse.fresh >>= h) := by
  intro c s hc
  have hnext : Along I { c with nextId := c.nextId + 1 } { s with nextId := c.nextId + 1 } :=
    ⟨hc.tokens, hc.cursor_le, hc.rest, hc.errors, rfl⟩
  have hmoves : Moves d 0 c { c with nextId := c.nextId + 1 } := .still (Nat.le_refl _) rfl
  simp only [Bind.bind, EStateM.bind, fresh, Parse.fresh, ← hc.nextId]
  exact (hg _ _ _ hnext).after hmoves (Nat.le_add_left d 0) (Nat.le_add_left n 0)

/-- A complaint on the way, under a condition. -/
theorem Follows.unless {p : Prop} [Decidable p] {fault : SyntaxFault} (h : Follows I d n x y) :
    Follows I d n (do
      if p then complainHere fault
      x) (do
      if p then Parse.complainHere fault
      y) := by
  by_cases hp : p
  · simp only [if_pos hp]
    exact follows_complainHere.bind fun _ => h
  · simp only [if_neg hp]
    exact h

theorem follows_unlessNext (h : Follows I d 0 x y) :
    Follows I d 0 (unlessNext kind x) (Parse.unlessNext kind y) := by
  intro c s hc
  have hcheck : Parse.check kind s = .ok (s.rest.head?.any (·.kind = kind)) s := rfl
  rw [unlessNext, run_bind hc.check, Parse.unlessNext, run_bind hcheck]
  cases s.rest.head?.any (·.kind = kind) with
  | true => exact Follows.pure c s hc
  | false => exact (h.bind fun _ => .pure) c s hc

theorem Along.acceptFunctionName? (h : Along I c s) (hs : s.rest = t :: name :: more)
    (hfun : t.kind = .kwFun) (hname : name.kind = .identifier) :
    Cursor.acceptFunctionName? c = .ok (some name) { c with cursor := c.cursor + 1 + 1 } := by
  have hnext := h.next hs
  unfold Cursor.acceptFunctionName?
  rw [run_bind h.check, hs, List.head?_cons, Option.any_some, decide_eq_true hfun, if_pos rfl,
    run_bind (h.checkNext hs (by decide)), List.head?_cons, Option.any_some, decide_eq_true hname,
    if_pos rfl, run_bind (h.advance hs), run_bind (hnext.advance rfl)]
  rfl

theorem Along.acceptFunctionName?_none (h : Along I c s)
    (hs : ∀ t name more, s.rest = t :: name :: more →
      ¬(t.kind = .kwFun ∧ name.kind = .identifier)) :
    Cursor.acceptFunctionName? c = .ok none c := by
  unfold Cursor.acceptFunctionName?
  rw [run_bind h.check]
  cases hrest : s.rest with
  | nil => rfl
  | cons t more =>
    rw [List.head?_cons, Option.any_some]
    by_cases hfun : t.kind = .kwFun
    · rw [decide_eq_true hfun, if_pos rfl, run_bind (h.checkNext hrest (by decide))]
      cases more with
      | nil => rfl
      | cons name more =>
        have hname : name.kind ≠ .identifier := fun hname => hs t name more hrest ⟨hfun, hname⟩
        rw [List.head?_cons, Option.any_some, decide_eq_false hname]
        rfl
    · rw [decide_eq_false hfun]
      rfl

theorem Follows.bind_acceptFunctionName? {g : Option Token → Parser α}
    {h : Option Token → Parse.Parser α}
    (hsome : ∀ token, Follows I (d - 1) (n - 1) (g (some token)) (h (some token)))
    (hnone : Follows I d n (g none) (h none)) :
    Follows I d n (acceptFunctionName? >>= g) (Parse.acceptFunctionName? >>= h) := by
  intro c s hc
  by_cases hs : ∃ t name more, s.rest = t :: name :: more ∧ t.kind = .kwFun ∧
      name.kind = .identifier
  · obtain ⟨t, name, more, hs, hfun, hname⟩ := hs
    have hparse : Parse.acceptFunctionName? s = .ok (some name) { s with rest := more } := by
      simp [Parse.acceptFunctionName?, hs, hfun, hname]
    have hmoves : Moves d 1 c { c with cursor := c.cursor + 1 + 1 } :=
      .still (Nat.le_add_right ..) rfl
    rw [run_bind hparse, run_bind (hc.acceptFunctionName? hs hfun hname)]
    refine (hsome name _ _ ((hc.next hs).next rfl)).after hmoves ?_ ?_ <;> omega
  · have hparse : Parse.acceptFunctionName? s = .ok none s := by
      unfold Parse.acceptFunctionName?
      split
      next t name more hrest =>
        exact if_neg fun hkinds => hs ⟨t, name, more, hrest, by simpa using hkinds⟩
      next => rfl
    rw [run_bind hparse, run_bind (hc.acceptFunctionName?_none ?_)]
    · exact hnone c s hc
    · exact fun t name more hrest hkinds => hs ⟨t, name, more, hrest, hkinds⟩

/-! Recovery. -/

/-- Skipping to a semicolon or a declaration moves the cursor as far as the tokens are dropped. -/
theorem Along.skip {fuel : Nat} (h : Along I c s) (hs : s.rest = t :: more)
    (hfuel : more.length < fuel) : ∃ c',
      Cursor.skip fuel { c with cursor := c.cursor + 1 } = .ok () c' ∧
        Along I c' { s with rest := Parse.skipStatement s.rest } ∧
        c.cursor < c'.cursor ∧ c'.calls = c.calls := by
  induction fuel generalizing c s t more with
  | zero => omega
  | succ fuel ih =>
    have hnext := h.next hs
    have hlt : c.cursor < c.cursor + 1 := Nat.lt_succ_self _
    unfold Cursor.skip
    rw [run_bind hnext.isAtEnd, hs]
    cases more with
    | nil => exact ⟨_, rfl, hnext, hlt, rfl⟩
    | cons next more =>
      rw [List.isEmpty_cons, if_neg Bool.false_ne_true, run_bind (h.previous hs),
        Parse.skipStatement]
      by_cases hpassed : t.kind = .semicolon
      · rw [if_pos hpassed, decide_eq_true hpassed, Bool.true_or, if_pos rfl]
        exact ⟨_, rfl, hnext, hlt, rfl⟩
      · rw [if_neg hpassed, decide_eq_false hpassed, Bool.false_or, run_bind hnext.peek,
          List.head?_cons, Option.getD_some]
        cases Parse.isBoundary next.kind with
        | true => exact ⟨_, rfl, hnext, hlt, rfl⟩
        | false =>
          rw [if_neg Bool.false_ne_true, if_neg Bool.false_ne_true, run_bind (hnext.advance rfl)]
          obtain ⟨c', hskip, halong, hmoved, hcalls⟩ :=
            ih hnext rfl (Nat.lt_of_succ_lt_succ hfuel)
          exact ⟨c', hskip, halong, Nat.lt_trans hlt hmoved, hcalls⟩

/-- Where a token is next or has been passed, recovery finds the same place. -/
theorem Along.synchronize (h : Along I c s) (hpos : s.rest ≠ [] ∨ 0 < c.cursor) : ∃ c',
    Cursor.synchronize c = .ok () c' ∧
      Along I c' { s with rest := Parse.skipStatement s.rest } ∧ c.cursor ≤ c'.cursor ∧
        (s.rest ≠ [] → c.cursor < c'.cursor) ∧ c'.calls = c.calls := by
  have hlength : c.tokens.length = I.tokens.length + 1 := by simp [h.tokens]
  unfold Cursor.synchronize
  cases hs : s.rest with
  | nil =>
    obtain ⟨t, hadvance⟩ := h.advance_end hs (hpos.resolve_left (not_not_intro hs))
    refine ⟨c, ?_, ⟨h.tokens, h.cursor_le, hs.symm.trans h.rest, h.errors, h.nextId⟩,
      Nat.le_refl _, absurd rfl, rfl⟩
    rw [run_bind hadvance]
    change Cursor.skip c.tokens.length c = .ok () c
    rw [hlength, Cursor.skip, run_bind h.isAtEnd, hs]
    rfl
  | cons t more =>
    have hfuel : more.length < c.tokens.length := by
      have hdrop := congrArg List.length (h.rest.symm.trans hs)
      rw [List.length_drop, List.length_cons] at hdrop
      omega
    obtain ⟨c', hskip, halong, hlt, hcalls⟩ := h.skip hs hfuel
    refine ⟨c', ?_, hs ▸ halong, Nat.le_of_lt hlt, fun _ => hlt, hcalls⟩
    rw [run_bind (h.advance hs)]
    exact hskip

/-- A parser that recovers has passed a token, also where it gives up at the end of the input. -/
theorem Outcome.recovering (hc : Along I c s) (hs : s.rest ≠ [])
    (h : Outcome I d 1 c (x c) (y s)) :
    Outcome I d 1 c (Cursor.recovering x c) (Parse.recovering y s) := by
  simp only [Cursor.recovering, Parse.recovering]
  generalize x c = r, y s = r' at h
  cases h with
  | ok along moves => exact .ok along moves
  | outOfFuel => exact .outOfFuel
  | unwind along moves =>
    rename_i c' s'
    have hpassed : c.cursor < I.tokens.length := by
      refine Nat.lt_of_not_le fun hge => hs ?_
      rw [hc.rest, List.drop_of_length_le hge]
    have hmoved := moves.cursor
    -- At the end of the input nothing is skipped, but all that was there has been passed.
    have hend (hrest : s'.rest = []) : c'.cursor = I.tokens.length := by
      have hdrop := along.rest.symm.trans hrest
      exact Nat.le_antisymm along.cursor_le (List.drop_eq_nil_iff.mp hdrop)
    have hpos : s'.rest ≠ [] ∨ 0 < c'.cursor := by
      by_cases hrest : s'.rest = []
      · exact .inr (by have := hend hrest; omega)
      · exact .inl hrest
    obtain ⟨c'', hsync, halong, hle, hlt, hcalls⟩ := along.synchronize hpos
    have hcursor : c.cursor + 1 ≤ c''.cursor := by
      by_cases hrest : s'.rest = []
      · have := hend hrest
        omega
      · have := hlt hrest
        omega
    change Outcome I d 1 c ((Cursor.synchronize >>= fun _ => pure none) c') (.ok none _)
    rw [run_bind hsync]
    have hmoves : Moves d 0 c c'' :=
      moves.trans (.still (d := d) (n := 0) hle hcalls) (Nat.le_add_left ..) (Nat.zero_le _)
    exact .ok halong ⟨hcursor, hmoves.calls⟩

theorem run_noted : Cursor.noted x c = match x c with
    | .ok a c' => .ok a { c' with calls := c'.calls ++ [⟨c.cursor, c'.cursor⟩] }
    | .error e c' => .error e c' := by
  rw [Cursor.noted, run_bind run_get]
  simp only [Bind.bind, EStateM.bind]
  cases x c <;> rfl

/-- A run that has passed a token, with no other one started here, is noted as started here. -/
theorem Outcome.noted (h : Outcome I 1 1 c (x c) (y s)) :
    Outcome I 0 1 c (Cursor.noted x c) (y s) := by
  rw [run_noted]
  generalize x c = r, y s = r' at h
  cases h with
  | ok along moves =>
    exact .ok ⟨along.tokens, along.cursor_le, along.rest, along.errors, along.nextId⟩ moves.noted
  | unwind along moves => exact .unwind along (moves.mono (Nat.zero_le _) (Nat.le_refl _))
  | outOfFuel => exact .outOfFuel

end Lox.Cursor
