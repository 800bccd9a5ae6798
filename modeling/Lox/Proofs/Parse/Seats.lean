import Mathlib.Data.List.ReduceOption
import Lox.Proofs.Parse.Slots

/-! The places between the declarations of a program, of its blocks and of its functions. Slots at
these places are found along the derivation of the program. -/
namespace Lox

open Grammar (Derives Phrase)

/-- The tokens of a phrase and the places between declarations, which are `none`. Those `between`
have such places around each of them; others have them within braces only. -/
inductive Spacing : (between : Bool) → List (Option Token) → Prop
  | last : Spacing true [none]
  | next {ds cs s} (hd : Derives true .declaration ds.reduceOption s) (hl : Spacing false ds)
      (hc : Spacing true cs) : Spacing true (none :: (ds ++ cs))
  | nil : Spacing false []
  | token {t ps} (ht : t.kind ≠ .leftBrace) (h : Spacing false ps) : Spacing false (some t :: ps)
  | braces {l ds r ps} (hl : l.kind = .leftBrace) (hd : Spacing true ds) (hr : r.kind = .rightBrace)
      (h : Spacing false ps) : Spacing false (some l :: (ds ++ some r :: ps))

/-- Parts that have the tokens of a spacing, and slots at its places only. -/
def Fills : List (Option Token) → List Part → Prop
  | [], parts => parts = []
  | some t :: ps, parts => ∃ rest, parts = .token t :: rest ∧ Fills ps rest
  | none :: ps, parts => ∃ (is : List Nat) (rest : List Part),
    parts = is.map .slot ++ rest ∧ Fills ps rest

variable {ts us : List Token} {ps qs : List (Option Token)} {parts : List Part} {t l r : Token}
  {R R' : List Part → Prop} {between : Bool}

theorem fills_append : Fills (ps ++ qs) parts ↔
    ∃ as bs, parts = as ++ bs ∧ Fills ps as ∧ Fills qs bs := by
  induction ps generalizing parts with
  | nil => simp [Fills]
  | cons p ps ih =>
    cases p with
    | none =>
      simp only [List.cons_append, Fills, ih]
      constructor
      · rintro ⟨is, _, rfl, as, bs, rfl, ha, hb⟩
        exact ⟨is.map .slot ++ as, bs, by simp, ⟨is, as, rfl, ha⟩, hb⟩
      · rintro ⟨_, bs, rfl, ⟨is, as, rfl, ha⟩, hb⟩
        exact ⟨is, as ++ bs, by simp, as, bs, rfl, ha, hb⟩
    | some t =>
      simp only [List.cons_append, Fills, ih]
      constructor
      · rintro ⟨_, rfl, as, bs, rfl, ha, hb⟩
        exact ⟨.token t :: as, bs, by simp, ⟨as, rfl, ha⟩, hb⟩
      · rintro ⟨_, bs, rfl, ⟨as, rfl, ha⟩, hb⟩
        exact ⟨as ++ bs, by simp, as, bs, rfl, ha, hb⟩

theorem Spacing.append (h : Spacing between ps) (hq : Spacing false qs) :
    between = false → Spacing false (ps ++ qs) := by
  induction h with
  | last | next => exact nofun
  | nil => exact fun _ => hq
  | token ht _ ih => exact fun h => .token ht (ih h)
  | braces hl hd hr _ _ ih =>
    intro h
    rw [List.cons_append, List.append_assoc]
    exact .braces hl hd hr (ih h)

/-- Tokens with a spacing, such that `R` holds of all parts that fill it. -/
def Seats (between : Bool) (ts : List Token) (R : List Part → Prop) : Prop :=
  ∃ ps, ps.reduceOption = ts ∧ Spacing between ps ∧ ∀ parts, Fills ps parts → R parts

namespace Seats

theorem mono (h : Seats between ts R) (hR : ∀ parts, R parts → R' parts) :
    Seats between ts R' := by
  obtain ⟨ps, hts, hl, h⟩ := h
  exact ⟨ps, hts, hl, fun parts hp => hR parts (h parts hp)⟩

theorem nil : Seats false [] (· = []) := ⟨[], rfl, .nil, fun _ h => h⟩

theorem cons (ht : t.kind ≠ .leftBrace) (h : Seats false ts R) :
    Seats false (t :: ts) fun parts => ∃ as, parts = .token t :: as ∧ R as := by
  obtain ⟨ps, rfl, hl, h⟩ := h
  refine ⟨some t :: ps, rfl, .token ht hl, ?_⟩
  rintro _ ⟨as, rfl, ha⟩
  exact ⟨as, rfl, h as ha⟩

/-- Tokens without a place between them. -/
theorem leaf (hts : ∀ t ∈ ts, t.kind ≠ .leftBrace) : Seats false ts (· = ts.map .token) := by
  induction ts with
  | nil => exact nil
  | cons t ts ih =>
    have hrest := ih fun u hu => hts u (List.mem_cons_of_mem t hu)
    refine (cons (hts t List.mem_cons_self) hrest).mono ?_
    rintro _ ⟨_, rfl, rfl⟩
    rfl

/-- The seats of two phrases are those of one and then those of the other. -/
theorem append (h : Seats false ts R) (h' : Seats false us R') :
    Seats false (ts ++ us) fun parts => ∃ as bs, parts = as ++ bs ∧ R as ∧ R' bs := by
  obtain ⟨ps, rfl, hl, h⟩ := h
  obtain ⟨qs, rfl, hl', h'⟩ := h'
  refine ⟨ps ++ qs, List.reduceOption_append _ _, hl.append hl' rfl, fun parts hp => ?_⟩
  obtain ⟨as, bs, rfl, ha, hb⟩ := fills_append.mp hp
  exact ⟨as, bs, rfl, h as ha, h' bs hb⟩

/-- Declarations in braces. -/
theorem braces (hl : l.kind = .leftBrace) (hr : r.kind = .rightBrace) (h : Seats true ts R) :
    Seats false (l :: (ts ++ [r])) fun parts =>
      ∃ as, parts = .token l :: (as ++ [.token r]) ∧ R as := by
  obtain ⟨ps, rfl, hd, h⟩ := h
  refine ⟨some l :: (ps ++ [some r]), ?_, .braces hl hd hr .nil, ?_⟩
  · simp [List.reduceOption_append]
  · rintro _ ⟨_, rfl, hp⟩
    obtain ⟨as, bs, rfl, ha, rest, rfl, rfl⟩ := fills_append.mp hp
    exact ⟨as, rfl, h as ha⟩

/-- The place behind the last declaration. -/
theorem last : Seats true [] fun parts => ∃ is : List Nat, parts = is.map .slot := by
  refine ⟨[none], rfl, .last, ?_⟩
  rintro _ ⟨is, _, rfl, rfl⟩
  exact ⟨is, by simp⟩

/-- A declaration, the place before it and what is behind it. -/
theorem next {s : Stmt} (hs : Derives true .declaration ts s) (h : Seats false ts R)
    (h' : Seats true us R') : Seats true (ts ++ us) fun parts =>
      ∃ (is : List Nat) (as bs : List Part), parts = is.map .slot ++ (as ++ bs) ∧ R as ∧ R' bs := by
  obtain ⟨ps, rfl, hl, h⟩ := h
  obtain ⟨qs, rfl, hl', h'⟩ := h'
  refine ⟨none :: (ps ++ qs), List.reduceOption_append _ _, .next hs hl hl', ?_⟩
  rintro _ ⟨is, _, rfl, hp⟩
  obtain ⟨as, bs, rfl, ha, hb⟩ := fills_append.mp hp
  exact ⟨is, as, bs, rfl, h as ha, h' bs hb⟩

end Seats

namespace Parse

variable {p : Phrase}

/-- How a phrase begins is told by its first token, and after `fun` by the one behind it. -/
theorem Begins.of_heads (hp : p ≠ .declarations) (h : Begins p ts)
    (hus : ∀ t vs, ts = t :: vs → ∃ ws, us = t :: ws ∧
      (t.kind = .kwFun → ∀ u xs, vs = u :: xs → ∃ ys, ws = u :: ys)) : Begins p us := by
  have second {t : Token} {vs ws : List Token}
      (hws : t.kind = .kwFun → ∀ u xs, vs = u :: xs → ∃ ys, ws = u :: ys)
      (hf : t.kind = .kwFun → ∃ lp xs, vs = lp :: xs ∧ lp.kind = .leftParen)
      (hk : t.kind = .kwFun) :
      ∃ lp xs, ws = lp :: xs ∧ lp.kind = .leftParen := by
    obtain ⟨lp, xs, rfl, hl⟩ := hf hk
    obtain ⟨ys, rfl⟩ := hws hk lp xs rfl
    exact ⟨lp, ys, rfl, hl⟩
  cases p with
  | declarations => exact absurd rfl hp
  | primary | call | unary | operand | chain | expression | values =>
    obtain ⟨t, vs, rfl, ha, hf⟩ := h
    obtain ⟨ws, rfl, hws⟩ := hus t vs rfl
    exact ⟨t, ws, rfl, ha, second hws hf⟩
  | statement =>
    obtain ⟨t, vs, rfl, hv, he, hb, hf⟩ := h
    obtain ⟨ws, rfl, hws⟩ := hus t vs rfl
    exact ⟨t, ws, rfl, hv, he, hb, second hws hf⟩
  | declaration | names | function =>
    obtain ⟨t, vs, rfl, h⟩ := h
    obtain ⟨ws, rfl, -⟩ := hus t vs rfl
    exact ⟨t, ws, rfl, h⟩
  | _ => trivial

end Parse

/-- Only an opening brace is followed by a seat of its own. -/
theorem Spacing.first (h : Spacing false ps) (hts : ps.reduceOption = t :: ts) :
    ∃ qs, ps = some t :: qs ∧ (t.kind ≠ .leftBrace → Spacing false qs ∧ qs.reduceOption = ts) := by
  cases h with
  | nil => simp at hts
  | token ht h =>
    simp only [List.reduceOption_cons_of_some, List.cons.injEq] at hts
    obtain ⟨rfl, hts⟩ := hts
    exact ⟨_, rfl, fun _ => ⟨h, hts⟩⟩
  | braces hl _ _ _ =>
    simp only [List.reduceOption_cons_of_some, List.cons.injEq] at hts
    obtain ⟨rfl, -⟩ := hts
    exact ⟨_, rfl, fun hk => absurd hl hk⟩

/-- Whatever is put in the slots of a phrase, it begins as it does without them. -/
theorem Seats.begins {p : Phrase} (hp : p ≠ .declarations) (hb : Parse.Begins p ts)
    (h : Seats false ts R) : Seats false ts fun parts =>
      R parts ∧ ∀ F : Nat → List Token, Parse.Begins p (Part.tokens F parts) := by
  obtain ⟨ps, hts, hl, h⟩ := h
  refine ⟨ps, hts, hl, fun parts hfit => ⟨h parts hfit, fun F => ?_⟩⟩
  refine hb.of_heads hp ?_
  rintro t vs rfl
  obtain ⟨qs, rfl, hqs⟩ := hl.first hts
  obtain ⟨rest, rfl, hrest⟩ := hfit
  refine ⟨_, rfl, ?_⟩
  rintro hk u xs rfl
  obtain ⟨hl', hu⟩ := hqs (by simp [hk])
  obtain ⟨rs, rfl, -⟩ := hl'.first hu
  obtain ⟨more, rfl, -⟩ := hrest
  exact ⟨_, rfl⟩

end Lox
