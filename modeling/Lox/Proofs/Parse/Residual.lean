import Lox.Proofs.Ends
import Lox.Proofs.Grammar.Relaxed
import Lox.Proofs.Parse.Junk

/-! Parsers as they go from one language to another: from what the tokens ahead may be, to what may
still come. The first complaint that unwinds is blamed on the first token that cannot come. -/
namespace Lox.Parse

open Relaxed (Rule)
open Relaxed.Rule (token phrase maybe many)

variable {α β γ : Type} {x : Parser α} {f : α → Parser β} {s : State} {a b : Rule}
  {P Q K : Language Token} {before rest : List Token} {new more : List Complaint}

/-- None of the complaints unwinds. -/
def Calm (new : List Complaint) : Prop := ∀ c ∈ new, c.fault.unwinds = false

/-- With some tokens read, what may come according to `P` is what may come according to `K`, as far
as it agrees with the token ahead. -/
def Passes (P : Language Token) (before rest : List Token) (K : Language Token) : Prop :=
  ∃ ts, before = ts ++ rest ∧ K ≤ P.leftQuotient ts ∧
    ∀ w ∈ P.leftQuotient ts, w.head? = rest.head? → w ∈ K

/-- The first complaint that unwinds is blamed on a token: what is before it can be gone on with
according to `P`, but not by this token. The end of the tokens is blamed where they cannot end. -/
def Pinpoints (P : Language Token) (before : List Token) (new : List Complaint) : Prop :=
  ∃ calm c more ts rest, new = calm ++ c :: more ∧ Calm calm ∧ c.fault.unwinds = true ∧
    before = ts ++ rest ∧ c.token = rest.head? ∧ (∃ w, w ∈ P.leftQuotient ts) ∧
      ∀ w ∈ P.leftQuotient ts, w.head? ≠ rest.head?

/-- From `s`, where `P` may come, a parser goes on to where `K` may come, or puts the blame where it
belongs. -/
def Tracks (x : Parser α) (s : State) (P K : Language Token) : Prop :=
  Ends x s
    (fun _ t => ∃ new, t.complaints.toList = s.complaints.toList ++ new ∧
      (Calm new ∧ Passes P s.rest t.rest K ∨ Pinpoints P s.rest new))
    (fun i t => i = .unwind → ∃ new, t.complaints.toList = s.complaints.toList ++ new ∧
      Pinpoints P s.rest new)

theorem Passes.refl : Passes P rest rest P := ⟨[], rfl, le_rfl, fun _ h _ => h⟩

/-- Tokens passed one after the other are passed together. -/
theorem Passes.trans {mid : List Token} (h : Passes P before mid Q) (h' : Passes Q mid rest K) :
    Passes P before rest K := by
  obtain ⟨ts, rfl, hle, hge⟩ := h
  obtain ⟨us, rfl, hle', hge'⟩ := h'
  refine ⟨ts ++ us, (List.append_assoc ..).symm, ?_, ?_⟩
  · intro w hw
    rw [Language.leftQuotient_append]
    exact hle (hle' hw)
  · intro w hw hhead
    rw [Language.leftQuotient_append] at hw
    exact hge' w (hge (us ++ w) hw (by simp [hhead])) hhead

theorem Pinpoints.append (h : Pinpoints P before new) (others : List Complaint) :
    Pinpoints P before (new ++ others) := by
  obtain ⟨calm, c, more, ts, rest, rfl, h⟩ := h
  exact ⟨calm, c, more ++ others, ts, rest, by simp, h⟩

/-- Complaints that do not unwind leave the first that does where it is. -/
theorem Pinpoints.after {mid : List Token} {calm : List Complaint} (hc : Calm calm)
    (hp : Passes P before mid Q) (h : Pinpoints Q mid new) : Pinpoints P before (calm ++ new) := by
  obtain ⟨ts, rfl, hle, hge⟩ := hp
  obtain ⟨calm', c, more, us, rest, rfl, hc', hu, rfl, ht, ⟨w, hw⟩, hnone⟩ := h
  refine ⟨calm ++ calm', c, more, ts ++ us, rest, by simp, ?_, hu, by simp, ht, ⟨w, ?_⟩, ?_⟩
  · intro d hd
    exact (List.mem_append.mp hd).elim (hc d) (hc' d)
  · rw [Language.leftQuotient_append]
    exact hle hw
  · intro v hv hhead
    rw [Language.leftQuotient_append] at hv
    exact hnone v (hge (us ++ v) hv (by simp [hhead])) hhead

theorem Tracks.pure {a : α} : Tracks (pure a) s P P := ⟨[], by simp, .inl ⟨by simp [Calm], .refl⟩⟩

theorem Tracks.outOfFuel : Tracks (throw .outOfFuel : Parser α) s P K := nofun

/-- A parser in two parts keeps track of what may follow if each part does. -/
theorem Tracks.bind (hx : Tracks x s P Q) (hf : ∀ a t, Tracks (f a) t Q K) :
    Tracks (x >>= f) s P K := by
  refine Ends.bind hx ?_
  rintro a t ⟨new, hnew, hcase⟩
  refine (hf a t).mono ?_ ?_
  · rintro b u ⟨new', hnew', hcase'⟩
    refine ⟨new ++ new', by simp [hnew', hnew], ?_⟩
    rcases hcase with ⟨hcalm, hpass⟩ | hblame
    · rcases hcase' with ⟨hcalm', hpass'⟩ | hblame'
      · refine .inl ⟨fun c hc => ?_, hpass.trans hpass'⟩
        exact (List.mem_append.mp hc).elim (hcalm c) (hcalm' c)
      · exact .inr (hblame'.after hcalm hpass)
    · exact .inr (hblame.append new')
  · intro i u h hi
    obtain ⟨new', hnew', hblame'⟩ := h hi
    refine ⟨new ++ new', by simp [hnew', hnew], ?_⟩
    rcases hcase with ⟨hcalm, hpass⟩ | hblame
    · exact hblame'.after hcalm hpass
    · exact hblame.append new'

/-- Only what begins with the token ahead matters. -/
theorem Tracks.narrow (hle : Q ≤ P) (h : ∀ w ∈ P, w.head? = s.rest.head? → w ∈ Q)
    (hx : Tracks x s Q K) : Tracks x s P K := by
  have hpass : Passes P s.rest s.rest Q := ⟨[], rfl, hle, h⟩
  have hcalm : Calm [] := by simp [Calm]
  refine Ends.mono hx ?_ ?_
  · rintro a t ⟨new, hnew, hcase⟩
    exact ⟨new, hnew, hcase.imp (And.imp_right hpass.trans) fun hb => hb.after hcalm hpass⟩
  · intro i t h hi
    obtain ⟨new, hnew, hb⟩ := h hi
    exact ⟨new, hnew, hb.after hcalm hpass⟩

/-- A parser that goes on as another does once some tokens are read. -/
theorem Tracks.after {y : Parser α} {t : State} (ts : List Token) (hy : y s = x t)
    (hs : s.rest = ts ++ t.rest) (hc : s.complaints = t.complaints)
    (hx : Tracks x t (P.leftQuotient ts) K) : Tracks y s P K := by
  have hpass : Passes P s.rest t.rest (P.leftQuotient ts) := ⟨ts, hs, le_rfl, fun _ h _ => h⟩
  have hcalm : Calm [] := by simp [Calm]
  simp only [Tracks, Ends, hy, hc] at hx ⊢
  cases h : x t with
  | ok a u =>
    rw [h] at hx
    obtain ⟨new, hnew, hcase⟩ := hx
    exact ⟨new, hnew, hcase.imp (And.imp_right hpass.trans) fun hb => hb.after hcalm hpass⟩
  | error i u =>
    rw [h] at hx
    intro hi
    obtain ⟨new, hnew, hb⟩ := hx hi
    exact ⟨new, hnew, hb.after hcalm hpass⟩

/-- A token taken leaves the language behind it; a token not taken leaves the language as it is. -/
theorem Tracks.bind_acceptMap? {c : Token → Option γ} {g : Option γ → Parser α}
    (hsome : ∀ t b u, s.rest = t :: u.rest → c t = some b →
      Tracks (g (some b)) u (P.leftQuotient [t]) K)
    (hnone : ∀ u, (∀ t ∈ u.rest.head?, c t = none) → s.rest = u.rest → Tracks (g none) u P K) :
    Tracks (acceptMap? c >>= g) s P K := by
  obtain ⟨rest, complaints, nextId⟩ := s
  cases rest with
  | nil => exact Tracks.after (x := g none) [] rfl rfl rfl (hnone _ (by simp) rfl)
  | cons t rest =>
    cases ht : c t with
    | none =>
      refine Tracks.after (x := g none) [] ?_ rfl rfl (hnone _ (by simpa using ht) rfl)
      simp [Bind.bind, EStateM.bind, acceptMap?, ht]
    | some b =>
      refine Tracks.after (x := g (some b)) (t := ⟨rest, complaints, nextId⟩) [t] ?_ rfl rfl
        (hsome t b _ rfl ht)
      simp [Bind.bind, EStateM.bind, acceptMap?, ht]

theorem Tracks.bind_accept? {kind : TokenKind} {g : Option Token → Parser α}
    (hsome : ∀ t u, s.rest = t :: u.rest → t.kind = kind →
      Tracks (g (some t)) u (P.leftQuotient [t]) K)
    (hnone : ∀ u, (∀ t ∈ u.rest.head?, t.kind ≠ kind) → s.rest = u.rest → Tracks (g none) u P K) :
    Tracks (accept? kind >>= g) s P K := by
  refine Tracks.bind_acceptMap? ?_ ?_
  · intro t b u hs hb
    split at hb
    · cases hb
      exact hsome t u hs ‹_›
    · cases hb
  · intro u hu hs
    exact hnone u (fun t ht => by simpa using hu t ht) hs

theorem Tracks.bind_acceptFunctionName? {g : Option Token → Parser α}
    (hsome : ∀ t name u, t.kind = .kwFun → name.kind = .identifier →
      Tracks (g (some name)) u (P.leftQuotient [t, name]) K)
    (hnone : (∀ t name more, s.rest = t :: name :: more → t.kind = .kwFun →
      name.kind ≠ .identifier) → Tracks (g none) s P K) :
    Tracks (acceptFunctionName? >>= g) s P K := by
  obtain ⟨rest, complaints, nextId⟩ := s
  match rest with
  | [] => exact Tracks.after (x := g none) [] rfl rfl rfl (hnone (by simp))
  | [t] => exact Tracks.after (x := g none) [] rfl rfl rfl (hnone (by simp))
  | t :: name :: rest =>
    by_cases h : t.kind = .kwFun ∧ name.kind = .identifier
    · refine Tracks.after (x := g (some name)) (t := ⟨rest, complaints, nextId⟩) [t, name] ?_ rfl
        rfl (hsome t name _ h.1 h.2)
      simp [Bind.bind, EStateM.bind, acceptFunctionName?, h]
    · refine Tracks.after (x := g none) [] ?_ rfl rfl (hnone ?_)
      · simp [Bind.bind, EStateM.bind, acceptFunctionName?, h]
      · rintro t' name' more he ht hname
        simp only [List.cons.injEq] at he
        obtain ⟨rfl, rfl, -⟩ := he
        exact h ⟨ht, hname⟩

/-- Where no program goes on with the next token, the complaint pinpoints it. -/
theorem tracks_missing {what : Expectation} (hP : ∃ w, w ∈ P)
    (h : ∀ w ∈ P, w.head? ≠ s.rest.head?) : Tracks (missing what : Parser α) s P K :=
  fun _ => ⟨[⟨.expected what, s.rest.head?⟩], by simp,
    [], _, [], [], s.rest, rfl, by simp [Calm], rfl, rfl, rfl, hP, h⟩

theorem Tracks.bind_fresh {g : NodeId → Parser α} (h : ∀ n u, Tracks (g n) u P K) :
    Tracks (fresh >>= g) s P K :=
  Tracks.after (x := g s.nextId) (t := { s with nextId := s.nextId + 1 }) [] rfl rfl rfl (h _ _)

theorem Tracks.bind_get {g : State → Parser α} (h : Tracks (g s) s P K) :
    Tracks (get >>= g) s P K := Tracks.after [] rfl rfl rfl h

theorem Tracks.bind_check {kind : TokenKind} {g : Bool → Parser α}
    (h : Tracks (g (s.rest.head?.any (·.kind = kind))) s P K) :
    Tracks (check kind >>= g) s P K := Tracks.after [] rfl rfl rfl h

/-- A complaint that does not unwind. -/
theorem tracks_complain {fault : SyntaxFault} {token : Option Token}
    (h : fault.unwinds = false) : Tracks (complain fault token) s P P :=
  ⟨[⟨fault, token⟩], by simp, .inl ⟨by simpa [Calm] using h, .refl⟩⟩

theorem Tracks.unless {c : Prop} [Decidable c] {fault : SyntaxFault}
    (hf : fault.unwinds = false) (hx : ∀ t, Tracks x t P K) :
    Tracks (do
      if c then complainHere fault
      x) s P K := by
  by_cases hc : c
  · simp only [if_pos hc]
    exact Tracks.bind (Q := P) (tracks_complain hf) fun _ t => hx t
  · simp only [if_neg hc]
    exact hx s

/-- A declaration that is given up has put the blame where it belongs. -/
theorem Tracks.recovering (hx : Tracks x s P K) : Tracks (recovering x) s P K := by
  simp only [Tracks, Ends, Parse.recovering] at hx ⊢
  cases h : x s with
  | ok a t =>
    rw [h] at hx
    exact hx
  | error i t =>
    rw [h] at hx
    cases i with
    | unwind =>
      obtain ⟨new, hnew, hb⟩ := hx rfl
      exact ⟨new, hnew, .inr hb⟩
    | outOfFuel =>
      intro hi
      cases hi

section Words

variable {t : Token} {kind : TokenKind} {w : List Token} {R : Language Token}

/-- Something may come. -/
def Live (P : Language Token) : Prop := ∃ w, w ∈ P

@[simp] theorem live_mul : Live (a.words * Q) ↔ Live Q := by
  constructor
  · rintro ⟨_, h⟩
    obtain ⟨_, -, w, hw, -⟩ := Language.mem_mul.mp h
    exact ⟨w, hw⟩
  · rintro ⟨w, hw⟩
    obtain ⟨ts, ha⟩ := a.inhabited
    exact ⟨ts ++ w, Language.append_mem_mul ha hw⟩

theorem Live.right (P : Language Token) (h : Live Q) : Live (P + Q) := h.imp fun _ => .inr

/-- A rule that makes no empty tokens gives the token that comes first. -/
theorem head_of_mem (ha : a.nullable = false) (hw : w ∈ a.words * Q) :
    ∃ t us, w = t :: us ∧ t.kind ∈ a.first := by
  obtain ⟨ts, hts, us, -, rfl⟩ := Language.mem_mul.mp hw
  cases ts with
  | nil => exact absurd (Relaxed.Makes.nullable hts rfl) (by simp [ha])
  | cons t ts => exact ⟨t, ts ++ us, rfl, Relaxed.Makes.first hts t rfl⟩

theorem quotient_add (ts : List Token) :
    (P + Q).leftQuotient ts = P.leftQuotient ts + Q.leftQuotient ts := rfl

theorem mem_token_mul :
    w ∈ (token kind).words * Q ↔ ∃ t us, w = t :: us ∧ t.kind = kind ∧ us ∈ Q := by
  rw [Language.mem_mul]
  constructor
  · rintro ⟨_, hts, us, hus, rfl⟩
    obtain ⟨t, hk, rfl⟩ := Relaxed.mem_words_token.mp hts
    exact ⟨t, us, rfl, hk, hus⟩
  · rintro ⟨t, us, rfl, hk, hus⟩
    exact ⟨[t], .token hk, us, hus, rfl⟩

theorem quotient_of_kind (hk : t.kind = kind) :
    ((token kind).words * Q).leftQuotient [t] = Q := by
  refine Language.ext fun w => ?_
  rw [Language.mem_leftQuotient, mem_token_mul]
  constructor
  · rintro ⟨t', us, he, -, hus⟩
    obtain ⟨-, rfl⟩ := List.cons.inj he
    exact hus
  · exact fun hw => ⟨t, w, rfl, hk, hw⟩

/-- No word of a rule begins with a token that is not among its first. -/
theorem quotient_rule (ha : a.nullable = false) (ht : t.kind ∉ a.first) :
    (a.words * Q).leftQuotient [t] = 0 := by
  refine Language.ext fun w => iff_of_false ?_ (Language.notMem_zero w)
  intro hw
  obtain ⟨t', us, he, hfirst⟩ := head_of_mem ha hw
  obtain ⟨rfl, -⟩ := List.cons.inj he
  exact ht hfirst

theorem quotient_token :
    ((token kind).words * Q).leftQuotient [t] = if t.kind = kind then Q else 0 := by
  split
  · exact quotient_of_kind ‹_›
  · exact quotient_rule rfl (by simpa [Rule.first])

theorem quotient_phrase {p : Relaxed.Phrase} (ht : t.kind ∉ p.first) :
    ((phrase p).words * Q).leftQuotient [t] = 0 := quotient_rule rfl ht

theorem quotient_single (ha : a.single = true) :
    (a.words * Q).leftQuotient [t] = if t.kind ∈ a.first then Q else 0 := by
  induction a with
  | token kind => simp [quotient_token, Rule.first]
  | either a b iha ihb =>
    rw [Rule.single, Bool.and_eq_true] at ha
    have hwords : (Rule.either a b).words = a.words + b.words := Relaxed.words_add
    rw [hwords, add_mul, quotient_add, iha ha.1, ihb ha.2]
    simp only [Rule.first, List.mem_append]
    split_ifs <;> simp_all
  | phrase | nothing | both | many => cases ha

/-- A way to go on that the token ahead does not begin. -/
theorem Tracks.skip (ha : a.nullable = false) (hs : ∀ t ∈ s.rest.head?, t.kind ∉ a.first)
    (hx : Tracks x s P K) : Tracks x s (a.words * Q + P) K := by
  refine Tracks.narrow (fun w hw => .inr hw) ?_ hx
  rintro w (hw | hw) hhead
  · obtain ⟨t, us, rfl, hfirst⟩ := head_of_mem ha hw
    exact absurd hfirst (hs t (by simp [← hhead]))
  · exact hw

/-- A rule that cannot begin with the next token may be left out. -/
theorem Tracks.skip_right (ha : a.nullable = false) (hs : ∀ t ∈ s.rest.head?, t.kind ∉ a.first)
    (hx : Tracks x s P K) : Tracks x s (P + a.words * Q) K := by
  rw [add_comm]
  exact hx.skip ha hs

theorem Tracks.bind_expect {what : Expectation} {g : Token → Parser α} (hQ : Live Q)
    (h : ∀ t u, Tracks (g t) u Q K) :
    Tracks (expect kind what >>= g) s ((token kind).words * Q) K := by
  unfold expect
  rw [bind_assoc]
  refine Tracks.bind_accept? ?_ ?_
  · intro t u _ hk
    rw [quotient_of_kind hk]
    simpa using h t u
  · intro u hu _
    refine Tracks.bind (tracks_missing (live_mul.mpr hQ) ?_) h
    intro w hw hhead
    obtain ⟨t, us, rfl, hk⟩ := head_of_mem rfl hw
    exact hu t (by simp [← hhead]) (by simpa [Rule.first] using hk)

/-- A token that decides between two ways to go on. What begins with it otherwise, goes on in the
same way. -/
theorem Tracks.bind_accept?_or {g : Option Token → Parser α}
    (hQ : ∀ t, t.kind = kind → Q.leftQuotient [t] ≤ R)
    (hsome : ∀ t u, Tracks (g (some t)) u R K) (hnone : ∀ u, s.rest = u.rest →
      (∀ t ∈ u.rest.head?, t.kind ≠ kind) → Tracks (g none) u Q K) :
    Tracks (accept? kind >>= g) s ((token kind).words * R + Q) K := by
  refine Tracks.bind_accept? ?_ ?_
  · intro t u _ hk
    rw [quotient_add, quotient_of_kind hk]
    refine Tracks.narrow (fun w hw => .inl hw) ?_ (hsome t u)
    rintro w (hw | hw) -
    · exact hw
    · exact hQ t hk hw
  · intro u hu hs
    exact Tracks.skip rfl (by simpa [Rule.first] using hu) (hnone u hs hu)

/-- What may be left out ends where the token behind it stands. -/
theorem tracks_unlessNext (ha : a.nullable = false) (hf : kind ∉ a.first)
    (hx : ∀ t, Tracks x t (a.words * ((token kind).words * Q)) ((token kind).words * Q)) :
    Tracks (unlessNext kind x) s ((maybe a).words * ((token kind).words * Q))
      ((token kind).words * Q) := by
  rw [Relaxed.words_maybe, add_mul, one_mul]
  refine Tracks.bind_check ?_
  cases hnext : s.rest.head?.any (·.kind = kind) with
  | true =>
    refine Tracks.skip ha ?_ Tracks.pure
    intro t ht hfirst
    simp only [Option.mem_def.mp ht, Option.any_some, decide_eq_true_eq] at hnext
    exact hf (hnext ▸ hfirst)
  | false =>
    refine Tracks.skip_right rfl ?_ (Tracks.bind (hx s) fun _ _ => Tracks.pure)
    intro t ht hk
    simp only [Option.mem_def.mp ht, Option.any_some, decide_eq_false_iff_not] at hnext
    exact hnext (by simpa [Rule.first] using hk)

end Words

end Lox.Parse
