import Lox.Proofs.Parse.Soundness

/-! How the tokens of a phrase begin, and what may follow an expression without becoming part of it.
-/
namespace Lox.Parse

open Grammar (Derives Phrase)

/-- Tokens that begin an expression without an operator before it. -/
def BeginsPrimary (ts : List Token) : Prop :=
  ∃ t us, ts = t :: us ∧ (atomAt? t).isSome ∧
    (t.kind = .kwFun → ∃ lp vs, us = lp :: vs ∧ lp.kind = .leftParen)

def BeginsUnary (ts : List Token) : Prop :=
  ∃ t us, ts = t :: us ∧ ((atomAt? t).isSome ∨ (unaryAt? t).isSome) ∧
    (t.kind = .kwFun → ∃ lp vs, us = lp :: vs ∧ lp.kind = .leftParen)

def BeginsStatement (ts : List Token) : Prop :=
  ∃ t us, ts = t :: us ∧ t.kind ≠ .kwVar ∧ t.kind ≠ .kwElse ∧ t.kind ≠ .rightBrace ∧
    (t.kind = .kwFun → ∃ lp vs, us = lp :: vs ∧ lp.kind = .leftParen)

def BeginsDeclaration (ts : List Token) : Prop :=
  ∃ t us, ts = t :: us ∧ t.kind ≠ .kwElse ∧ t.kind ≠ .rightBrace

/-- How the tokens of a phrase begin. -/
def Begins : Phrase → List Token → Prop
  | .primary, ts | .call, ts => BeginsPrimary ts
  | .unary, ts | .operand _, ts | .chain _, ts | .expression, ts => BeginsUnary ts
  | .values, ts => BeginsUnary ts
  | .names, ts => ∃ t us, ts = t :: us ∧ t.kind = .identifier
  | .function, ts => ∃ lp us, ts = lp :: us ∧ lp.kind = .leftParen
  | .statement _, ts => BeginsStatement ts
  | .declaration, ts => BeginsDeclaration ts
  | .declarations, ts => ts = [] ∨ BeginsDeclaration ts
  | _, _ => True

theorem BeginsPrimary.append {ts : List Token} (us : List Token) (h : BeginsPrimary ts) :
    BeginsPrimary (ts ++ us) := by
  obtain ⟨t, vs, rfl, ha, hf⟩ := h
  refine ⟨t, vs ++ us, rfl, ha, fun hk => ?_⟩
  obtain ⟨lp, ws, rfl, hl⟩ := hf hk
  exact ⟨lp, ws ++ us, rfl, hl⟩

theorem BeginsPrimary.unary {ts : List Token} (h : BeginsPrimary ts) : BeginsUnary ts := by
  obtain ⟨t, vs, rfl, ha, hf⟩ := h
  exact ⟨t, vs, rfl, Or.inl ha, hf⟩

theorem BeginsUnary.append {ts : List Token} (us : List Token) (h : BeginsUnary ts) :
    BeginsUnary (ts ++ us) := by
  obtain ⟨t, vs, rfl, ha, hf⟩ := h
  refine ⟨t, vs ++ us, rfl, ha, fun hk => ?_⟩
  obtain ⟨lp, ws, rfl, hl⟩ := hf hk
  exact ⟨lp, ws ++ us, rfl, hl⟩

theorem BeginsUnary.statement {ts : List Token} (us : List Token) (h : BeginsUnary ts) :
    BeginsStatement (ts ++ us) := by
  obtain ⟨t, vs, he, ha, hf⟩ := h.append us
  refine ⟨t, vs, he, ?_, ?_, ?_, hf⟩ <;>
    · intro hk
      simp [atomAt?, unaryAt?, hk] at ha

theorem BeginsDeclaration.append {ts : List Token} (us : List Token) (h : BeginsDeclaration ts) :
    BeginsDeclaration (ts ++ us) := by
  obtain ⟨t, vs, rfl, hk⟩ := h
  exact ⟨t, vs ++ us, rfl, hk⟩

/-- A phrase begins as its kind says, however it was derived. -/
theorem begins {nearest : Bool} {p : Phrase} {ts : List Token} {t : p.Tree}
    (h : Derives nearest p ts t) : Begins p ts := by
  induction h with
  | nothing => exact Or.inl rfl
  | next _ _ h => exact Or.inr (BeginsDeclaration.append _ h)
  | named hk | declared hk => exact ⟨_, _, rfl, by simp [hk], by simp [hk]⟩
  | plain _ h =>
    obtain ⟨t, us, rfl, -, he, hb, -⟩ := h
    exact ⟨t, us, rfl, he, hb⟩
  | evaluate _ _ h => exact h.statement _
  | print hk | giveBack hk | breakLoop hk | block hk | loop hk | counting hk | branch hk
  | branchElse hk => exact ⟨_, _, rfl, by simp [hk], by simp [hk], by simp [hk], by simp [hk]⟩
  | function hl => exact ⟨_, _, rfl, hl⟩
  | assign hn => exact ⟨_, _, rfl, by simp [atomAt?, hn], by simp [hn]⟩
  | loosest _ h | single _ h | tighter _ _ h | tightest _ h | uncalled _ h => exact h
  | oneValue _ h => exact h
  | oneName hn | moreNames hn => exact ⟨_, _, rfl, hn⟩
  | logical _ _ _ h | binary _ _ _ h | moreValues _ _ _ h => exact h.append _
  | called _ h => exact BeginsPrimary.unary h
  | not hk | negate hk => exact ⟨_, _, rfl, by simp [unaryAt?, hk], by simp [hk]⟩
  | call _ _ _ _ h => exact h.append _
  | no hk | yes hk | nil hk | number hk | string hk | name hk | group hk =>
    exact ⟨_, _, rfl, by simp [atomAt?, hk], by simp [hk]⟩
  | lambda hk _ h => exact ⟨_, _, rfl, by simp [atomAt?, hk], fun _ => h⟩
  | _ => trivial

/-- No call follows, and no operator of a level up to a rank. -/
def Stops (rank : Nat) (rest : List Token) : Prop :=
  ∀ t ∈ rest.head?, t.kind ≠ .leftParen ∧
    ∀ level : Level, level.rank ≤ rank → level.operator? t.kind = none

/-- Nothing follows that an expression could go on with. -/
def Closed (rest : List Token) : Prop :=
  Stops 8 rest ∧ ∀ t ∈ rest.head?, t.kind ≠ .equal

theorem Stops.mono {m n : Nat} {rest : List Token} (h : Stops n rest) (hmn : m ≤ n) :
    Stops m rest :=
  fun t ht => ⟨(h t ht).1, fun level hl => (h t ht).2 level (by omega)⟩

theorem closed_cons {t : Token} {rest : List Token}
    (h : t.kind = .semicolon ∨ t.kind = .rightParen ∨ t.kind = .comma) : Closed (t :: rest) := by
  refine ⟨?_, ?_⟩
  · rintro u ⟨⟩
    refine ⟨?_, ?_⟩
    · rcases h with h | h | h <;> simp [h]
    · intro level _
      rcases h with h | h | h <;> cases level <;> simp [h, Level.operator?]
  · rintro u ⟨⟩
    rcases h with h | h | h <;> simp [h]

/-- An operator of a level is none of a tighter one, and begins no call. -/
theorem stops_operator {level : Level} {t : Token} {rest : List Token}
    {op : LogicalOp ⊕ BinaryOp} (h : level.operator? t.kind = some op) :
    Stops (level.rank - 1) (t :: rest) := by
  rintro u ⟨⟩
  unfold Level.operator? at h
  split at h
  case h_13 => cases h
  all_goals
    rename_i hk
    refine ⟨by simp [hk], ?_⟩
    intro tight ht
    cases tight <;> simp [hk, Level.operator?, Level.rank] at ht ⊢

theorem stops_equal {t : Token} {rest : List Token} (h : t.kind = .equal) :
    Stops 8 (t :: rest) := by
  rintro u ⟨⟩
  refine ⟨by simp [h], ?_⟩
  intro level _
  cases level <;> simp [h, Level.operator?]

end Lox.Parse
