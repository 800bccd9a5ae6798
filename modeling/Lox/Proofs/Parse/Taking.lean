import Lox.Parse

/-! Parsers that take given tokens with given complaints, whatever tokens follow. -/
namespace Lox.Parse

variable {α β γ : Type} {x : Parser α} {f : α → Parser β} {ts us rest : List Token} {token : Token}
  {cs ds : List Complaint} {r : α → Prop} {r' : β → Prop}

/-- Where `ts` stands before `rest`, the parser takes `ts`, complains of `cs` and has a result as
`r` says. -/
def Takes (x : Parser α) (ts rest : List Token) (cs : List Complaint) (r : α → Prop) : Prop :=
  ∀ s : State, s.rest = ts ++ rest →
    ∃ a t, x s = .ok a t ∧ t.rest = rest ∧ t.complaints.toList = s.complaints.toList ++ cs ∧ r a

theorem Takes.pure {a : α} (h : r a) : Takes (pure a) [] rest [] r :=
  fun s hs => ⟨a, s, rfl, hs, by simp, h⟩

/-- A parser in two parts takes what its parts take. -/
theorem Takes.bind (hx : Takes x ts (us ++ rest) cs r)
    (hf : ∀ a, r a → Takes (f a) us rest ds r') :
    Takes (x >>= f) (ts ++ us) rest (cs ++ ds) r' := by
  intro s hs
  obtain ⟨a, t, hx, ht, hc, ha⟩ := hx s (by simpa using hs)
  obtain ⟨b, u, hf, hu, hc', hb⟩ := hf a ha t ht
  refine ⟨b, u, ?_, hu, by simp [hc', hc], hb⟩
  simp [Bind.bind, EStateM.bind, hx, hf]

/-- The last parser of a sequence that complains of anything. -/
theorem Takes.bind_quiet (hx : Takes x ts (us ++ rest) cs r)
    (hf : ∀ a, r a → Takes (f a) us rest [] r') : Takes (x >>= f) (ts ++ us) rest cs r' := by
  have h : Takes (x >>= f) (ts ++ us) rest (cs ++ []) r' := Takes.bind hx hf
  simpa using h

/-- The last parser of a sequence that takes any tokens. -/
theorem Takes.bind_last (hx : Takes x ts rest cs r) (hf : ∀ a, r a → Takes (f a) [] rest [] r') :
    Takes (x >>= f) ts rest cs r' := by
  have h : Takes (x >>= f) (ts ++ []) rest cs r' := Takes.bind_quiet hx hf
  simpa using h

theorem Takes.mono {r' : α → Prop} (hx : Takes x ts rest cs r) (h : ∀ a, r a → r' a) :
    Takes x ts rest cs r' := by
  intro s hs
  obtain ⟨a, t, hx, ht, hc, ha⟩ := hx s hs
  exact ⟨a, t, hx, ht, hc, h a ha⟩

/-- A token that fits is taken. -/
theorem Takes.bind_acceptMap? {c : γ} {f : Token → Option γ} {g : Option γ → Parser α}
    (hf : f token = some c) (hg : Takes (g (some c)) ts rest cs r) :
    Takes (acceptMap? f >>= g) (token :: ts) rest cs r := by
  intro s hs
  obtain ⟨a, t, hx, ht, hc, ha⟩ := hg { s with rest := ts ++ rest } rfl
  refine ⟨a, t, ?_, ht, hc, ha⟩
  rw [List.cons_append] at hs
  simpa [Bind.bind, EStateM.bind, acceptMap?, hs, hf] using hx

theorem acceptMap?_none {f : Token → Option γ} {s : State}
    (hf : ∀ token ∈ s.rest.head?, f token = none) : acceptMap? f s = .ok none s := by
  cases hr : s.rest with
  | nil => simp [acceptMap?, hr]
  | cons token rest =>
    have := hf token (by simp [hr])
    simp [acceptMap?, hr, this]

theorem Takes.bind_acceptMap?_none {f : Token → Option γ} {g : Option γ → Parser α}
    (hf : ∀ token ∈ (ts ++ rest).head?, f token = none) (hg : Takes (g none) ts rest cs r) :
    Takes (acceptMap? f >>= g) ts rest cs r := by
  intro s hs
  obtain ⟨a, t, hx, ht⟩ := hg s hs
  refine ⟨a, t, ?_, ht⟩
  rw [← hs] at hf
  simpa [Bind.bind, EStateM.bind, acceptMap?_none hf] using hx

theorem Takes.bind_accept? {kind : TokenKind} {g : Option Token → Parser α}
    (hk : token.kind = kind) (hg : Takes (g (some token)) ts rest cs r) :
    Takes (accept? kind >>= g) (token :: ts) rest cs r :=
  Takes.bind_acceptMap? (by simp [hk]) hg

theorem Takes.bind_accept?_none {kind : TokenKind} {g : Option Token → Parser α}
    (hk : ∀ token ∈ (ts ++ rest).head?, token.kind ≠ kind) (hg : Takes (g none) ts rest cs r) :
    Takes (accept? kind >>= g) ts rest cs r :=
  Takes.bind_acceptMap?_none (by simpa using hk) hg

theorem Takes.bind_expect {kind : TokenKind} {what : Expectation} {g : Token → Parser α}
    (hk : token.kind = kind) (hg : Takes (g token) ts rest cs r) :
    Takes (expect kind what >>= g) (token :: ts) rest cs r := by
  unfold expect
  rw [bind_assoc]
  exact Takes.bind_accept? hk (by simpa using hg)

theorem Takes.bind_fresh {g : NodeId → Parser α} (hg : ∀ n, Takes (g n) ts rest cs r) :
    Takes (fresh >>= g) ts rest cs r :=
  fun s hs => hg s.nextId { s with nextId := s.nextId + 1 } hs

theorem Takes.bind_get {g : State → Parser α}
    (hg : ∀ s, s.rest = ts ++ rest → Takes (g s) ts rest cs r) :
    Takes (get >>= g) ts rest cs r :=
  fun s hs => hg s hs s hs

theorem Takes.bind_check {kind : TokenKind} {b : Bool} {g : Bool → Parser α}
    (hb : (ts ++ rest).head?.any (·.kind = kind) = b) (hg : Takes (g b) ts rest cs r) :
    Takes (check kind >>= g) ts rest cs r := by
  intro s hs
  obtain ⟨a, t, hx, ht⟩ := hg s hs
  refine ⟨a, t, ?_, ht⟩
  have hcheck : check kind s = .ok b s := by simp only [check, hs, hb]
  simpa [Bind.bind, EStateM.bind, hcheck] using hx

theorem takes_unlessNext_none {kind : TokenKind} (hk : ∃ token ∈ rest.head?, token.kind = kind) :
    Takes (unlessNext kind x) [] rest [] (· = none) := by
  obtain ⟨token, ht, hk⟩ := hk
  refine Takes.bind_check (b := true) ?_ (Takes.pure rfl)
  simpa [Option.mem_def.mp ht] using hk

/-- What may be left out is taken unless the token behind it comes first. -/
theorem takes_unlessNext_some {kind : TokenKind}
    (hk : ∀ token ∈ (ts ++ rest).head?, token.kind ≠ kind) (hx : Takes x ts rest cs r) :
    Takes (unlessNext kind x) ts rest cs fun a => ∃ b, a = some b ∧ r b := by
  refine Takes.bind_check (b := false) ?_ ?_
  · cases h : (ts ++ rest).head? with
    | none => rfl
    | some token => simpa using hk token h
  · exact Takes.bind_last hx fun b hb => Takes.pure ⟨b, rfl, hb⟩

end Lox.Parse
