import Lox.Parse
import Lox.Proofs.Identity

/-! Two runs of parsers side by side, which see the same tokens for as long as they read any. They
complain of the same, and their results differ in identities only. -/
namespace Lox.Parse

/-- What is known of the tokens before two parsers that run side by side, and of those behind the
semicolon that ends a declaration. A `minor` complaint does not stop a parser and a `final` one
does. Where the runs are alike as a `whole`, they may read functions and blocks and go on behind a
semicolon. -/
structure Setting where
  before : List Token → List Token → Prop
  behind : List Token → List Token → Prop
  minor : Complaint → Prop
  final : Complaint → Prop
  whole : Prop
  head {as bs} : before as bs → as.head? = bs.head?
  tail {t as bs} : before (t :: as) (t :: bs) → t.kind ≠ .semicolon → before as bs
  semicolon {t as bs} : before (t :: as) (t :: bs) → t.kind = .semicolon → behind as bs
  skip {as bs} : before as bs → behind (skipStatement as) (skipStatement bs)
  minor_here {as bs fault} : before as bs → (∀ what, fault ≠ .expected what) →
    minor ⟨fault, as.head?⟩
  minor_at {t as bs} : before (t :: as) (t :: bs) → minor ⟨.invalidAssignmentTarget, some t⟩
  final_here {as bs what} : before as bs → final ⟨.expected what, as.head?⟩
  whole_of_nesting {t as bs} : before (t :: as) (t :: bs) →
    t.kind ∈ [.kwFun, .kwFor, .kwIf, .kwWhile, .leftBrace] → whole
  before_of_behind {as bs} : whole → behind as bs → before as bs
  behind_of_before {as bs} : whole → before as bs → behind as bs
  minor_of_final {c} : whole → final c → minor c

variable {S : Setting} {α β γ : Type} {pre mid post : List Token → List Token → Prop}
  {x y : Parser α} {f g : α → Parser β} {same : α → α → Prop} {same' : β → β → Prop}

/-- How two runs side by side end: both with a result, both unwinding, or one without fuel. -/
inductive Alike.Ends (S : Setting) (post : List Token → List Token → Prop) (same : α → α → Prop)
    (s t : State) : EStateM.Result Interrupt State α → EStateM.Result Interrupt State α → Prop
  | ok {a b s' t'} (new : List Complaint) (hs : s'.complaints.toList = s.complaints.toList ++ new)
      (ht : t'.complaints.toList = t.complaints.toList ++ new) (hnew : ∀ c ∈ new, S.minor c)
      (hrest : post s'.rest t'.rest) (hsame : same a b) : Ends S post same s t (.ok a s') (.ok b t')
  | unwind {s' t'} (new : List Complaint) (last : Complaint)
      (hs : s'.complaints.toList = s.complaints.toList ++ (new ++ [last]))
      (ht : t'.complaints.toList = t.complaints.toList ++ (new ++ [last]))
      (hnew : ∀ c ∈ new, S.minor c) (hlast : S.final last) (hrest : S.before s'.rest t'.rest) :
      Ends S post same s t (.error .unwind s') (.error .unwind t')
  | left {s' r} : Ends S post same s t (.error .outOfFuel s') r
  | right {t' r} : Ends S post same s t r (.error .outOfFuel t')

/-- Begun on tokens of which `pre` holds, two parsers end alike, and `post` holds of the tokens they
leave. -/
def Alike (S : Setting) (pre : List Token → List Token → Prop) (x y : Parser α)
    (post : List Token → List Token → Prop) (same : α → α → Prop) : Prop :=
  ∀ s t, pre s.rest t.rest → Alike.Ends S post same s t (x s) (y t)

theorem Alike.outOfFuel_left : Alike S pre (throw .outOfFuel) y post same := fun _ _ _ => .left

theorem Alike.outOfFuel_right : Alike S pre x (throw .outOfFuel) post same := fun _ _ _ => .right

theorem Alike.pure {a b : α} (h : same a b) : Alike S pre (pure a) (pure b) pre same :=
  fun _ _ hrest => .ok [] (by simp) (by simp) (by simp) hrest h

/-- Two readings stay alike over a further part that is alike for results that are. -/
theorem Alike.bind (hx : Alike S pre x y mid same)
    (hf : ∀ a b, same a b → Alike S mid (f a) (g b) post same') :
    Alike S pre (x >>= f) (y >>= g) post same' := by
  intro s t h
  have hxy := hx s t h
  simp only [Bind.bind, EStateM.bind]
  generalize x s = r, y t = r' at hxy
  cases hxy with
  | unwind new last hs ht hnew hlast hrest => exact .unwind new last hs ht hnew hlast hrest
  | left => exact .left
  | right => exact .right
  | ok new hs ht hnew hrest hsame =>
    rename_i a b s' t'
    have hfg := hf a b hsame s' t' hrest
    simp only
    generalize f a s' = r, g b t' = r' at hfg
    cases hfg with
    | ok more hs' ht' hmore hrest' hsame' =>
      refine .ok (new ++ more) (by simp [hs', hs]) (by simp [ht', ht]) ?_ hrest' hsame'
      exact fun c hc => (List.mem_append.mp hc).elim (hnew c) (hmore c)
    | unwind more last hs' ht' hmore hlast hrest' =>
      refine .unwind (new ++ more) last (by simp [hs', hs]) (by simp [ht', ht]) ?_ hlast hrest'
      exact fun c hc => (List.mem_append.mp hc).elim (hnew c) (hmore c)
    | left => exact .left
    | right => exact .right

theorem Alike.leaving {post' : List Token → List Token → Prop} (hx : Alike S pre x y post same)
    (hpost : ∀ {as bs}, post as bs → post' as bs) : Alike S pre x y post' same := by
  intro s t h
  have hxy := hx s t h
  generalize x s = r, y t = r' at hxy ⊢
  cases hxy with
  | ok new hs ht hnew hrest h => exact .ok new hs ht hnew (hpost hrest) h
  | unwind new last hs ht hnew hlast hrest => exact .unwind new last hs ht hnew hlast hrest
  | left => exact .left
  | right => exact .right

/-- Less may be known of the tokens than is. -/
theorem Alike.given {pre' : List Token → List Token → Prop}
    (hpre : ∀ {as bs}, pre' as bs → pre as bs) (hx : Alike S pre x y post same) :
    Alike S pre' x y post same := fun s t h => hx s t (hpre h)

/-- Two parsers that go on from other states with the same complaints. -/
theorem Alike.Ends.of_eq {s t s' t' : State} {r r' : EStateM.Result Interrupt State α}
    (h : Alike.Ends S post same s' t' r r') (hs : s'.complaints = s.complaints)
    (ht : t'.complaints = t.complaints) : Alike.Ends S post same s t r r' := by
  cases h with
  | ok new hs' ht' => exact .ok new (hs ▸ hs') (ht ▸ ht') ‹_› ‹_› ‹_›
  | unwind new last hs' ht' => exact .unwind new last (hs ▸ hs') (ht ▸ ht') ‹_› ‹_› ‹_›
  | left => exact .left
  | right => exact .right

/-- Two readings decide alike by their next token if they have the same. -/
theorem Alike.bind_acceptMap? {f : Token → Option γ} {g h : Option γ → Parser α}
    (hhead : ∀ {as bs}, pre as bs → as.head? = bs.head?)
    (hsome : ∀ token c, f token = some c →
      Alike S (fun as bs => pre (token :: as) (token :: bs)) (g (some c)) (h (some c)) post same)
    (hnone : Alike S (fun as bs => pre as bs ∧ ∀ token ∈ as.head?, f token = none) (g none)
      (h none) post same) :
    Alike S pre (acceptMap? f >>= g) (acceptMap? f >>= h) post same := by
  rintro ⟨as, cs, m⟩ ⟨bs, ds, n⟩ hrest
  have hab := hhead hrest
  cases as with
  | nil =>
    obtain rfl : bs = [] := by simpa using hab.symm
    exact hnone ⟨[], cs, m⟩ ⟨[], ds, n⟩ ⟨hrest, by simp⟩
  | cons token as =>
    obtain ⟨bs, rfl⟩ : ∃ us, bs = token :: us := List.head?_eq_some_iff.mp hab.symm
    cases hf : f token with
    | none =>
      have h := hnone ⟨token :: as, cs, m⟩ ⟨token :: bs, ds, n⟩ ⟨hrest, by simpa using hf⟩
      simpa [Bind.bind, EStateM.bind, acceptMap?, hf] using h
    | some c =>
      have h := hsome token c hf ⟨as, cs, m⟩ ⟨bs, ds, n⟩ hrest
      simp only [Bind.bind, EStateM.bind, acceptMap?, hf]
      exact h.of_eq rfl rfl

theorem Alike.bind_accept? {kind : TokenKind} {g h : Option Token → Parser α}
    (hhead : ∀ {as bs}, pre as bs → as.head? = bs.head?)
    (hsome : ∀ token, token.kind = kind →
      Alike S (fun as bs => pre (token :: as) (token :: bs)) (g (some token)) (h (some token)) post
        same)
    (hnone : Alike S (fun as bs => pre as bs ∧ ∀ token ∈ as.head?, token.kind ≠ kind) (g none)
      (h none) post same) :
    Alike S pre (accept? kind >>= g) (accept? kind >>= h) post same := by
  refine .bind_acceptMap? hhead ?_ ?_
  · intro token c hc
    split at hc
    · cases hc
      exact hsome token ‹_›
    · cases hc
  · exact hnone.given fun h => ⟨h.1, fun token ht => by simpa using h.2 token ht⟩

/-- Two readings that miss a token both unwind, with the same complaint. -/
theorem alike_missing {what : Expectation} :
    Alike S S.before (missing what : Parser α) (missing what) post same := by
  intro s t h
  refine .unwind [] ⟨.expected what, s.rest.head?⟩ ?_ ?_ (by simp) (S.final_here h) h
  · simp
  · simp [S.head h]

/-- What is expected is there in both runs or in none. -/
theorem Alike.bind_expect {kind : TokenKind} {what : Expectation} {g h : Token → Parser α}
    (hk : kind ≠ .semicolon) (hg : ∀ token, Alike S S.before (g token) (h token) post same) :
    Alike S S.before (expect kind what >>= g) (expect kind what >>= h) post same := by
  unfold expect
  rw [bind_assoc, bind_assoc]
  refine .bind_accept? S.head ?_ ?_
  · intro token hkind
    simp only [pure_bind]
    exact (hg token).given fun h => S.tail h (hkind ▸ hk)
  · have hmissing : Alike S S.before (missing what) (missing what) post fun _ _ : Token => False :=
      alike_missing
    exact .bind (hmissing.given And.left) fun _ _ h => h.elim

/-- Behind a semicolon two readings go on with what differs, if anything. -/
theorem Alike.bind_semicolon {what : Expectation} {g h : Token → Parser α}
    (hg : ∀ token, Alike S S.behind (g token) (h token) post same) :
    Alike S S.before (expect .semicolon what >>= g) (expect .semicolon what >>= h) post same := by
  unfold expect
  rw [bind_assoc, bind_assoc]
  refine .bind_accept? S.head ?_ ?_
  · intro token hkind
    simp only [pure_bind]
    exact (hg token).given fun h => S.semicolon h hkind
  · have hmissing : Alike S S.before (missing what) (missing what) post fun _ _ : Token => False :=
      alike_missing
    exact .bind (hmissing.given And.left) fun _ _ h => h.elim

theorem Alike.bind_fresh {g h : NodeId → Parser α}
    (hg : ∀ m n, Alike S pre (g m) (h n) post same) :
    Alike S pre (fresh >>= g) (fresh >>= h) post same :=
  fun s t hst => (hg s.nextId t.nextId { s with nextId := s.nextId + 1 }
    { t with nextId := t.nextId + 1 } hst).of_eq rfl rfl

theorem Alike.bind_check {kind : TokenKind} {g h : Bool → Parser α}
    (hhead : ∀ {as bs}, pre as bs → as.head? = bs.head?)
    (hg : ∀ b, Alike S (fun as bs => pre as bs ∧ as.head?.any (·.kind = kind) = b) (g b) (h b) post
      same) :
    Alike S pre (check kind >>= g) (check kind >>= h) post same := by
  intro s t hst
  have h := hg (s.rest.head?.any (·.kind = kind)) s t ⟨hst, rfl⟩
  simp only [Bind.bind, EStateM.bind, check, ← hhead hst]
  exact h

theorem Alike.bind_get {g h : State → Parser α}
    (hg : ∀ s t, pre s.rest t.rest → Alike S pre (g s) (h t) post same) :
    Alike S pre (get >>= g) (get >>= h) post same := fun s t hst => hg s t hst s t hst

/-- The name of a function is read in both runs or in none. -/
theorem Alike.bind_acceptFunctionName? {g h : Option Token → Parser α}
    (hsome : S.whole → ∀ name, Alike S S.before (g (some name)) (h (some name)) post same)
    (hnone : Alike S S.before (g none) (h none) post same) :
    Alike S S.before (acceptFunctionName? >>= g) (acceptFunctionName? >>= h) post same := by
  rintro ⟨as, cs, m⟩ ⟨bs, ds, n⟩ hrest
  have hnone := hnone ⟨as, cs, m⟩ ⟨bs, ds, n⟩ hrest
  have hab := S.head hrest
  cases as with
  | nil =>
    obtain rfl : bs = [] := by simpa using hab.symm
    simpa [Bind.bind, EStateM.bind, acceptFunctionName?] using hnone
  | cons token as =>
    obtain ⟨bs, rfl⟩ : ∃ us, bs = token :: us := List.head?_eq_some_iff.mp hab.symm
    by_cases hk : token.kind = .kwFun
    · have hw := S.whole_of_nesting hrest (by simp [hk])
      have htail := S.tail hrest (by simp [hk])
      have hab := S.head htail
      cases as with
      | nil =>
        obtain rfl : bs = [] := by simpa using hab.symm
        simpa [Bind.bind, EStateM.bind, acceptFunctionName?] using hnone
      | cons name as =>
        obtain ⟨bs, rfl⟩ : ∃ us, bs = name :: us := List.head?_eq_some_iff.mp hab.symm
        by_cases hn : name.kind = .identifier
        · have h := hsome hw name ⟨as, cs, m⟩ ⟨bs, ds, n⟩ (S.tail htail (by simp [hn]))
          simp only [Bind.bind, EStateM.bind, acceptFunctionName?, hk, hn]
          exact h.of_eq rfl rfl
        · simpa [Bind.bind, EStateM.bind, acceptFunctionName?, hn] using hnone
    · cases as <;> cases bs <;>
        simpa [Bind.bind, EStateM.bind, acceptFunctionName?, hk] using hnone

/-- Two values that may be absent, both or none of them. -/
def Both (same : α → α → Prop) : Option α → Option α → Prop
  | none, none => True
  | some a, some b => same a b
  | _, _ => False

/-- Within a whole both runs go on behind the same declaration. -/
theorem alike_recovering (hw : S.whole) (hx : Alike S pre x y S.behind same) :
    Alike S pre (recovering x) (recovering y) S.before (Both same) := by
  intro s t h
  have hxy := hx s t h
  simp only [recovering]
  generalize x s = r, y t = r' at hxy
  cases hxy with
  | ok new hs ht hnew hrest hsame =>
    exact .ok new hs ht hnew (S.before_of_behind hw hrest) hsame
  | unwind new last hs ht hnew hlast hrest =>
    refine .ok (new ++ [last]) hs ht ?_ (S.before_of_behind hw (S.skip hrest)) trivial
    intro c hc
    rcases List.mem_append.mp hc with hc | hc
    · exact hnew c hc
    · rw [List.mem_singleton.mp hc]
      exact S.minor_of_final hw hlast
  | left => exact .left
  | right => exact .right

theorem alike_complain {fault : SyntaxFault} {token : Option Token} (h : S.minor ⟨fault, token⟩) :
    Alike S pre (complain fault token) (complain fault token) pre fun _ _ => True :=
  fun _ _ hst => .ok [⟨fault, token⟩] (by simp) (by simp) (by simpa using h) hst trivial

theorem alike_complainHere {fault : SyntaxFault} (h : ∀ what, fault ≠ .expected what) :
    Alike S S.before (complainHere fault) (complainHere fault) S.before fun _ _ => True := by
  intro s t hst
  refine .ok [⟨fault, s.rest.head?⟩] ?_ ?_ ?_ hst trivial
  · simp
  · simp [S.head hst]
  · simpa using S.minor_here hst h

/-- A complaint on the way, under a condition. -/
theorem Alike.unless {c d : Prop} [Decidable c] [Decidable d] {fault : SyntaxFault} (hcd : c ↔ d)
    (h : ∀ what, fault ≠ .expected what) (hx : Alike S S.before x y post same) :
    Alike S S.before (do
      if c then complainHere fault
      x) (do
      if d then complainHere fault
      y) post same := by
  by_cases hc : c
  · simp only [if_pos hc, if_pos (hcd.mp hc)]
    exact .bind (alike_complainHere h) fun _ _ _ => hx
  · simp only [if_neg hc, if_neg (mt hcd.mpr hc)]
    exact hx

theorem alike_unlessNext {kind : TokenKind} (hx : Alike S S.before x y S.before same) :
    Alike S S.before (unlessNext kind x) (unlessNext kind y) S.before (Both same) := by
  refine .bind_check S.head ?_
  intro b
  cases b with
  | true => exact (Alike.pure trivial).given And.left
  | false => exact .bind (hx.given And.left) fun _ _ h => .pure h

end Lox.Parse
