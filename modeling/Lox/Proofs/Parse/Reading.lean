import Lox.Parse
import Lox.Proofs.Ends

/-! What a parser reads: a run that is followed to its end either unwinds after a complaint, or has
a result and has moved on. Without a complaint the tokens it read are a phrase. -/
namespace Lox.Parse

variable {α β : Type} {p : Parser α} {f : α → Parser β} {s : State} {bound : α → Nat}
  {phrase : List Token → α → List Token → Prop}

/-- From `s`, fewer than `bound` tokens are left after a result, and if nothing was complained of,
`phrase` holds of the tokens read, the result and the tokens left. -/
def Reads (p : Parser α) (s : State) (bound : α → Nat)
    (phrase : List Token → α → List Token → Prop) : Prop :=
  Ends p s
    (fun a t => s.complaints.size ≤ t.complaints.size ∧ t.rest.length ≤ s.rest.length ∧
      t.rest.length < bound a ∧
      (t.complaints.size = s.complaints.size →
        ∃ ts, s.rest = ts ++ t.rest ∧ phrase ts a t.rest))
    (fun i t => i = .unwind ∧ s.complaints.size < t.complaints.size ∧
      t.rest.length ≤ s.rest.length)

theorem Reads.pure {a : α} (hb : s.rest.length < bound a) (hp : phrase [] a s.rest) :
    Reads (pure a) s bound phrase :=
  ⟨Nat.le_refl _, Nat.le_refl _, hb, fun _ => ⟨[], rfl, hp⟩⟩

/-- What two parts have read one after the other is one phrase if the second completes the first. -/
theorem Reads.bind {bound' : β → Nat} {phrase' : List Token → β → List Token → Prop}
    (hp : Reads p s bound phrase)
    (hf : ∀ a t, t.rest.length < bound a → t.rest.length ≤ s.rest.length →
      Reads (f a) t bound' fun us b rest =>
        ∀ ts, phrase ts a (us ++ rest) → phrase' (ts ++ us) b rest) :
    Reads (p >>= f) s bound' phrase' := by
  refine Ends.bind hp ?_
  rintro a t ⟨hc, hr, hb, hphrase⟩
  refine (hf a t hb hr).mono ?_ ?_
  · rintro b u ⟨hc', hr', hb', hphrase'⟩
    refine ⟨by omega, by omega, hb', fun he => ?_⟩
    obtain ⟨us, hus, h'⟩ := hphrase' (by omega)
    obtain ⟨ts, hts, h⟩ := hphrase (by omega)
    exact ⟨ts ++ us, by simp [hts, hus], h' ts (hus ▸ h)⟩
  · rintro i t ⟨hi, hc', hr'⟩
    exact ⟨hi, by omega, by omega⟩

theorem Reads.mono {bound' : α → Nat} {phrase' : List Token → α → List Token → Prop}
    (hp : Reads p s bound phrase) (hb : ∀ a, bound a ≤ bound' a)
    (h : ∀ ts a rest, phrase ts a rest → phrase' ts a rest) : Reads p s bound' phrase' := by
  refine Ends.mono hp ?_ fun _ _ h => h
  rintro a t ⟨hc, hr, hlt, hphrase⟩
  refine ⟨hc, hr, Nat.lt_of_lt_of_le hlt (hb a), fun he => ?_⟩
  obtain ⟨ts, hts, hts'⟩ := hphrase he
  exact ⟨ts, hts, h _ _ _ hts'⟩

/-- A parser that goes on as another does once some tokens are read. -/
theorem Reads.after {q : Parser α} {t : State} (ts : List Token) (hq : q s = p t)
    (hs : s.rest = ts ++ t.rest) (hc : s.complaints = t.complaints)
    (hp : Reads p t bound fun us a rest => phrase (ts ++ us) a rest) : Reads q s bound phrase := by
  have hlen : t.rest.length ≤ s.rest.length := by simp [hs]
  simp only [Reads, Ends, hq, hc] at hp ⊢
  cases h : p t with
  | ok a u =>
    rw [h] at hp
    obtain ⟨h1, h2, h3, h4⟩ := hp
    refine ⟨h1, by omega, h3, fun he => ?_⟩
    obtain ⟨us, hus, hphrase⟩ := h4 he
    exact ⟨ts ++ us, by simp [hs, hus], hphrase⟩
  | error i u =>
    rw [h] at hp
    exact ⟨hp.1, hp.2.1, by omega⟩

/-- The next token decides whether it is read, and with that which phrase goes on. -/
theorem Reads.bind_acceptMap? {f : Token → Option β} {g : Option β → Parser α}
    (hsome : ∀ token b t, t.rest.length < s.rest.length → f token = some b →
      Reads (g (some b)) t bound fun us a rest => phrase (token :: us) a rest)
    (hnone : ∀ t, t.rest.length ≤ s.rest.length → (∀ token ∈ t.rest.head?, f token = none) →
      Reads (g none) t bound phrase) :
    Reads (acceptMap? f >>= g) s bound phrase := by
  obtain ⟨rest, complaints, nextId⟩ := s
  cases rest with
  | nil => exact Reads.after (p := g none) [] rfl rfl rfl (hnone _ (Nat.le_refl _) (by simp))
  | cons token rest =>
    cases ht : f token with
    | none =>
      refine Reads.after (p := g none) [] ?_ rfl rfl (hnone _ (Nat.le_refl _) (by simpa))
      simp [Bind.bind, EStateM.bind, acceptMap?, ht]
    | some b =>
      refine Reads.after (p := g (some b)) (t := ⟨rest, complaints, nextId⟩) [token] ?_ rfl
        rfl (hsome token b _ (by simp) ht)
      simp [Bind.bind, EStateM.bind, acceptMap?, ht]

theorem Reads.bind_accept? {kind : TokenKind} {g : Option Token → Parser α}
    (hsome : ∀ token t, t.rest.length < s.rest.length → token.kind = kind →
      Reads (g (some token)) t bound fun us a rest => phrase (token :: us) a rest)
    (hnone : ∀ t, t.rest.length ≤ s.rest.length → (∀ token ∈ t.rest.head?, token.kind ≠ kind) →
      Reads (g none) t bound phrase) :
    Reads (accept? kind >>= g) s bound phrase := by
  refine Reads.bind_acceptMap? ?_ ?_
  · intro token other t ht ho
    split at ho
    · cases ho
      exact hsome token t ht ‹_›
    · cases ho
  · intro t ht ho
    exact hnone t ht fun token htoken => by simpa using ho token htoken

theorem missing_eq {what : Expectation} : (missing what : Parser α) s = .error .unwind
    { s with complaints := s.complaints.push ⟨.expected what, s.rest.head?⟩ } := rfl

theorem reads_missing {what : Expectation} : Reads (missing what : Parser α) s bound phrase := by
  simp [Reads, Ends, missing_eq]

/-- Behind a token that is expected, less is left to read. -/
theorem Reads.bind_expect {kind : TokenKind} {what : Expectation} {g : Token → Parser α}
    (h : ∀ token t, t.rest.length < s.rest.length → token.kind = kind →
      Reads (g token) t bound fun us a rest => phrase (token :: us) a rest) :
    Reads (expect kind what >>= g) s bound phrase := by
  unfold expect
  rw [bind_assoc]
  refine Reads.bind_accept? h ?_
  intro t _ _
  have hm : Reads (missing what : Parser Token) t (fun _ => 0) fun _ _ _ => True := reads_missing
  exact Reads.bind hm (by simp)

theorem Reads.bind_fresh {g : NodeId → Parser α}
    (h : ∀ n t, t.rest = s.rest → Reads (g n) t bound phrase) :
    Reads (fresh >>= g) s bound phrase :=
  Reads.after (p := g s.nextId) [] rfl rfl rfl (h _ { s with nextId := s.nextId + 1 } rfl)

/-- Nothing more is said of the phrase once there is a complaint. -/
theorem reads_complain {fault : SyntaxFault} {token : Option Token}
    {r : List Token → Unit → List Token → Prop} :
    Reads (complain fault token) s (fun _ => s.rest.length + 1) r := by
  simp [Reads, Ends, complain]

theorem reads_complainHere {fault : SyntaxFault}
    {r : List Token → Unit → List Token → Prop} :
    Reads (complainHere fault) s (fun _ => s.rest.length + 1) r := by
  simp [Reads, Ends, complainHere, complain]

/-- A complaint on the way, under a condition. -/
theorem Reads.unless {c : Prop} [Decidable c] {fault : SyntaxFault}
    (hp : ∀ t, t.rest.length ≤ s.rest.length →
      Reads p t bound fun ts a rest => ¬c → phrase ts a rest) :
    Reads (do
      if c then complainHere fault
      p) s bound phrase := by
  by_cases hc : c
  · simp only [if_pos hc]
    refine Reads.bind (reads_complainHere (r := fun _ _ _ => False)) ?_
    intro _ t _ ht
    exact (hp t ht).mono (fun _ => Nat.le_refl _) (by simp)
  · simp only [if_neg hc]
    exact (hp s (Nat.le_refl _)).mono (fun _ => Nat.le_refl _) fun _ _ _ h => h hc

theorem Reads.bind_get {g : State → Parser α} (h : Reads (g s) s bound phrase) :
    Reads (get >>= g) s bound phrase :=
  Reads.after [] rfl rfl rfl h

theorem Reads.bind_check {kind : TokenKind} {g : Bool → Parser α}
    (h : Reads (g (s.rest.head?.any (·.kind = kind))) s bound phrase) :
    Reads (check kind >>= g) s bound phrase :=
  Reads.after [] rfl rfl rfl h

theorem reads_unlessNext {kind : TokenKind} (hp : Reads p s (fun _ => s.rest.length + 1) phrase) :
    Reads (unlessNext kind p) s (fun _ => s.rest.length + 1) fun ts a rest =>
      match a with
      | none => ts = []
      | some a => phrase ts a rest := by
  refine Reads.bind_check ?_
  cases s.rest.head?.any (·.kind = kind) with
  | true => exact Reads.pure (by simp) rfl
  | false =>
    refine Reads.bind hp ?_
    intro a t ht _
    exact Reads.pure ht (by simp)

theorem length_skipStatement (ts : List Token) : (skipStatement ts).length ≤ ts.length - 1 := by
  induction ts with
  | nil => simp [skipStatement]
  | cons t ts ih =>
    cases ts with
    | nil => simp [skipStatement]
    | cons next ts =>
      rw [skipStatement]
      split
      · simp
      · simp only [List.length_cons, Nat.add_sub_cancel] at ih ⊢
        omega

/-- Where there is a token to read, a declaration that has been given up has read one as well. -/
theorem reads_recovering (hp : Reads p s (fun _ => s.rest.length) phrase) (hs : s.rest ≠ []) :
    Reads (recovering p) s (fun _ => s.rest.length) fun ts a rest =>
      ∃ b, a = some b ∧ phrase ts b rest := by
  have hpos := List.length_pos_iff.mpr hs
  simp only [Reads, Ends, recovering] at hp ⊢
  cases h : p s with
  | ok a t =>
    rw [h] at hp
    simpa using hp
  | error i t =>
    rw [h] at hp
    obtain ⟨rfl, hc, hr⟩ := hp
    have := length_skipStatement t.rest
    exact ⟨by simp only; omega, by simp only; omega, by simp only; omega, by simp only; omega⟩

end Lox.Parse
