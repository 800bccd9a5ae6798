import Lox.Proofs.Parse.Abreast
import Lox.Proofs.Parse.Programs

/-! Tokens up to a semicolon among which no statement can be taken to begin. Wherever they stand
between declarations, the parser is just behind the semicolon after one turn, whatever it finds
wrong with them. -/
namespace Lox

/-- Whether a parser unwinds after a fault, to the declaration around it. -/
def SyntaxFault.unwinds : SyntaxFault → Bool
  | expected _ => true
  | _ => false

/-- The kinds of the tokens that may stand anywhere in junk. -/
def Loose (kind : TokenKind) : Prop :=
  kind ∉ [.leftBrace, .rightBrace, .semicolon, .eof] ∧ Parse.isBoundary kind = false

/-- Tokens between declarations, with the semicolon that ends them. Only the first of them may be
one that begins a statement, and only a statement without a part that is a statement. -/
structure Junk where
  tokens : List Token
  semicolon : Token
  closes : semicolon.kind = .semicolon
  opens : ∀ t ∈ tokens.head?, Loose t.kind ∧ t.kind ≠ .kwElse ∨
    t.kind ∈ [.kwPrint, .kwReturn, .kwVar, .kwBreak]
  loose : ∀ t ∈ tokens.tail, Loose t.kind

namespace Junk

variable (j : Junk)

/-- All tokens of junk. -/
def all : List Token := j.tokens ++ [j.semicolon]

variable {j} {t : Token}

/-- Junk is made of tokens that begin nothing and of those a short statement begins with. -/
theorem loose_or_opens (h : t ∈ j.tokens) :
    Loose t.kind ∨ t.kind ∈ [.kwPrint, .kwReturn, .kwVar, .kwBreak] := by
  cases hj : j.tokens with
  | nil => simp [hj] at h
  | cons first more =>
    rw [hj] at h
    rcases List.mem_cons.mp h with rfl | h
    · exact (j.opens t (by simp [hj])).imp And.left id
    · exact .inl (j.loose t (by simp [hj, h]))

theorem kind_ne_semicolon (h : t ∈ j.tokens) : t.kind ≠ .semicolon := by
  intro hk
  rcases loose_or_opens h with hl | hk'
  · simp [Loose, hk] at hl
  · simp [hk] at hk'

/-- No token of junk opens anything that could swallow what follows. -/
theorem not_nesting (h : t ∈ j.all) :
    t.kind ∉ [.kwFun, .kwFor, .kwIf, .kwWhile, .leftBrace] := by
  intro hk
  rcases List.mem_append.mp h with h | h
  · simp only [List.mem_cons, List.not_mem_nil, or_false] at hk
    rcases loose_or_opens h with hl | hk'
    · rcases hk with hk | hk | hk | hk | hk <;> simp [Loose, hk, Parse.isBoundary] at hl
    · rcases hk with hk | hk | hk | hk | hk <;> simp [hk] at hk'
  · simp [List.mem_singleton.mp h, j.closes] at hk

end Junk

namespace Parse

variable {j : Junk} {as bs zs rest : List Token}

theorem begins_junk (j : Junk) : BeginsDeclaration j.all := by
  cases hj : j.tokens with
  | nil => exact ⟨j.semicolon, [], by simp [Junk.all, hj], by simp [j.closes], by simp [j.closes]⟩
  | cons first more =>
    refine ⟨first, more ++ [j.semicolon], by simp [Junk.all, hj], fun hk => ?_, fun hk => ?_⟩
    · rcases j.opens first (by simp [hj]) with h | h
      · exact h.2 hk
      · simp [hk] at h
    · have hfirst : first ∈ j.tokens := by simp [hj]
      rcases Junk.loose_or_opens hfirst with h | h
      · simp [Loose, hk] at h
      · simp [hk] at h

theorem suffix_tail {α : Type} {a : α} {l m : List α} (h : a :: l <:+ m) : l <:+ m.tail := by
  obtain ⟨front, rfl⟩ := h
  cases front with
  | nil => exact List.suffix_rfl
  | cons b front => exact ⟨front ++ [a], by simp⟩

/-- What is skipped of junk ends with its semicolon. -/
theorem skipStatement_junk (hz : zs <:+ j.tokens) :
    skipStatement (zs ++ j.semicolon :: rest) = rest := by
  induction zs with
  | nil => cases rest <;> simp [skipStatement, j.closes]
  | cons t zs ih =>
    have htail := suffix_tail hz
    have hnext : ∀ u ∈ (zs ++ j.semicolon :: rest).head?, isBoundary u.kind = false := by
      cases zs with
      | nil => simp [j.closes, isBoundary]
      | cons u zs =>
        rintro _ ⟨⟩
        exact (j.loose u (htail.subset List.mem_cons_self)).2
    have hk := Junk.kind_ne_semicolon (hz.subset List.mem_cons_self)
    have hrest := ih ((List.suffix_cons t zs).trans hz)
    cases hmore : zs ++ j.semicolon :: rest with
    | nil => simp at hmore
    | cons u more =>
      rw [hmore] at hnext hrest
      have hstep : skipStatement (t :: u :: more) =
          if t.kind = .semicolon || isBoundary u.kind then u :: more
          else skipStatement (u :: more) := rfl
      rw [List.cons_append, hmore, hstep, hnext u rfl, hrest]
      simp [hk]

/-- The next token, where junk is left, is one of it. -/
theorem head?_junk (hz : zs <:+ j.tokens) :
    ∃ t ∈ j.all, (zs ++ j.semicolon :: rest).head? = some t := by
  cases zs with
  | nil => exact ⟨j.semicolon, by simp [Junk.all], rfl⟩
  | cons t zs => exact ⟨t, List.mem_append_left _ (hz.subset List.mem_cons_self), rfl⟩

/-- Two runs on the same junk, with any tokens behind it. -/
def Setting.junk (j : Junk) (as bs : List Token) : Setting where
  before us vs := ∃ zs, zs <:+ j.tokens ∧ us = zs ++ j.semicolon :: as ∧
    vs = zs ++ j.semicolon :: bs
  behind us vs := us = as ∧ vs = bs
  minor c := (∃ t ∈ j.all, c.token = some t) ∧ ∀ what, c.fault ≠ .expected what
  final c := ∃ t ∈ j.all, c.token = some t
  whole := False
  head := by
    rintro _ _ ⟨zs, -, rfl, rfl⟩
    cases zs <;> rfl
  tail := by
    rintro t us vs ⟨zs, hz, hus, hvs⟩ hk
    cases zs with
    | nil =>
      obtain ⟨rfl, -⟩ := List.cons.inj hus
      exact absurd j.closes hk
    | cons u zs =>
      exact ⟨zs, (List.suffix_cons u zs).trans hz, (List.cons.inj hus).2, (List.cons.inj hvs).2⟩
  semicolon := by
    rintro t us vs ⟨zs, hz, hus, hvs⟩ hk
    cases zs with
    | nil => exact ⟨(List.cons.inj hus).2, (List.cons.inj hvs).2⟩
    | cons u zs =>
      obtain ⟨rfl, -⟩ := List.cons.inj hus
      exact absurd hk (Junk.kind_ne_semicolon (hz.subset List.mem_cons_self))
  skip := by
    rintro _ _ ⟨zs, hz, rfl, rfl⟩
    exact ⟨skipStatement_junk hz, skipStatement_junk hz⟩
  minor_here := by
    rintro _ _ fault ⟨zs, hz, rfl, -⟩ hfault
    exact ⟨head?_junk hz, hfault⟩
  minor_at := by
    rintro t _ _ ⟨zs, hz, hus, -⟩
    obtain ⟨u, hu, hhead⟩ := head?_junk hz
    rw [← hus] at hhead
    exact ⟨⟨u, hu, hhead⟩, by simp⟩
  final_here := by
    rintro _ _ what ⟨zs, hz, rfl, -⟩
    exact head?_junk hz
  whole_of_nesting := by
    rintro t _ _ ⟨zs, hz, hus, -⟩ hk
    obtain ⟨u, hu, hhead⟩ := head?_junk hz
    rw [← hus] at hhead
    obtain rfl := Option.some.inj hhead
    exact Junk.not_nesting hu hk
  before_of_behind h := h.elim
  behind_of_before h := h.elim
  minor_of_final h := h.elim

/-- Complaints that are blamed on the tokens of junk, of which at most one makes a parser unwind. -/
structure Blames (j : Junk) (cs : List Complaint) : Prop where
  token : ∀ c ∈ cs, ∃ t ∈ j.all, c.token = some t
  unwinding : cs.countP (·.fault.unwinds) ≤ 1

/-- No minor complaint unwinds. -/
theorem blames_minor {cs : List Complaint} (h : ∀ c ∈ cs, (Setting.junk j as bs).minor c) :
    cs.countP (·.fault.unwinds) = 0 := by
  refine List.countP_eq_zero.mpr fun c hc => ?_
  have hminor := (h c hc).2
  cases hf : c.fault with
  | expected what => exact absurd hf (hminor what)
  | _ => simp [SyntaxFault.unwinds]

variable {s t : State} {m n : Nat}

/-- A declaration that is tried on junk is done or given up when the semicolon is read. Nothing
behind it has a part in what comes of it. -/
theorem declaration_junk (hs : s.rest = j.all ++ as) (ht : t.rest = j.all ++ bs)
    (hm : 16 * (j.all ++ as).length + 11 ≤ m) (hn : 16 * (j.all ++ bs).length + 11 ≤ n) :
    ∃ a b s' t' new, declaration m s = .ok a s' ∧ declaration n t = .ok b t' ∧
      s'.rest = as ∧ t'.rest = bs ∧ s'.complaints.toList = s.complaints.toList ++ new ∧
      t'.complaints.toList = t.complaints.toList ++ new ∧ Both SameStmt a b ∧ Blames j new := by
  have hne (l : List Token) : j.all ++ l ≠ [] := by simp [Junk.all]
  have hreads := (sound m).declaration s (hs ▸ hne as) (hs ▸ hm)
  have hreads' := (sound n).declaration t (ht ▸ hne bs) (ht ▸ hn)
  obtain ⟨m, rfl⟩ := Nat.exists_eq_add_of_le' (show 1 ≤ m by omega)
  obtain ⟨n, rfl⟩ := Nat.exists_eq_add_of_le' (show 1 ≤ n by omega)
  have halike := alike_attempt (abreast (.junk j as bs) m n) s t
    ⟨j.tokens, List.suffix_rfl, by simp [hs, Junk.all], by simp [ht, Junk.all]⟩
  simp only [declaration_succ, recovering, Reads, Lox.Ends] at hreads hreads' ⊢
  generalize attempt m s = r, attempt n t = r' at halike hreads hreads' ⊢
  cases halike with
  | left => simp at hreads
  | right => simp at hreads'
  | ok new hs ht hnew hrest hsame =>
    refine ⟨_, _, _, _, new, rfl, rfl, hrest.1, hrest.2, hs, ht, hsame, ?_, ?_⟩
    · exact fun c hc => (hnew c hc).1
    · rw [blames_minor hnew]
      omega
  | unwind new last hs ht hnew hlast hrest =>
    obtain ⟨zs, hz, hs', ht'⟩ := hrest
    refine ⟨none, none, _, _, new ++ [last], rfl, rfl, ?_, ?_, hs, ht, trivial, ?_, ?_⟩
    · simp only [hs', skipStatement_junk hz]
    · simp only [ht', skipStatement_junk hz]
    · intro c hc
      rcases List.mem_append.mp hc with hc | hc
      · exact (hnew c hc).1
      · exact List.mem_singleton.mp hc ▸ hlast
    · rw [List.countP_append, blames_minor hnew]
      simp [List.countP_singleton]
      split <;> omega

/-- After one turn on junk by itself there is nothing left to read. -/
theorem alone_junk {a : Option Stmt}
    (h : declaration (16 * j.all.length + 15) ⟨j.all, #[], 0⟩ = .ok a s) (hs : s.rest = []) :
    alone j.all = (a.toList, s.complaints.toList) := by
  obtain ⟨token, vs, hall, -⟩ := begins_junk j
  have hne : j.all.isEmpty = false := by simp [hall]
  have hget (s : State) : (get : Parser State) s = .ok s s := rfl
  cases a <;>
    simp [alone, declarations, Bind.bind, EStateM.bind, hget, check, Pure.pure, EStateM.pure,
      Nat.mul_add, hne, h, hs]

/-- Before any tokens, junk comes to what it comes to by itself. -/
theorem takes_junk (hm : 16 * (j.all ++ rest).length + 11 ≤ m) :
    Takes (declaration m) j.all rest (alone j.all).2 fun a =>
      Stmt.bareAll a.toList = Stmt.bareAll (alone j.all).1 := by
  intro s hs
  obtain ⟨a, b, s', t, new, hx, ht, hrest, hend, hc, hc', hsame, -⟩ := declaration_junk (j := j)
    (t := ⟨j.all, #[], 0⟩) (n := 16 * j.all.length + 15) hs (List.append_nil _).symm hm
    (by simp)
  rw [alone_junk ht hend]
  refine ⟨a, s', hx, hrest, by simpa [hc'] using hc, ?_⟩
  cases a <;> cases b <;> simp_all [Both, Stmt.bareAll]

/-- Junk before declarations adds what it comes to by itself. -/
theorem complete_junk {us : List Token} {ds : List Complaint} {qs : List Stmt}
    (h : Complete .declarations us ds qs) :
    Complete .declarations (j.all ++ us) ((alone j.all).2 ++ ds) ((alone j.all).1 ++ qs) := by
  intro fuel rest inBlock done hr hf
  obtain ⟨fuel, rfl⟩ := Nat.exists_eq_add_of_le' (show 1 ≤ fuel by omega)
  obtain ⟨token, vs, hall, -, hbrace⟩ := begins_junk j
  have hlen : j.all.length = vs.length + 1 := by simp [hall]
  simp only [List.length_append] at hf
  unfold declarations
  refine Takes.bind_get fun state hstate => ?_
  refine Takes.bind_check rfl ?_
  rw [if_neg (by simp [hstate, hall, hbrace])]
  refine Takes.bind (takes_junk (by simp only [List.length_append]; omega)) ?_
  intro a ha
  have hmore (done : Array Stmt) := h fuel rest inBlock done hr (by simp; omega)
  cases a with
  | none =>
    refine (hmore done).mono ?_
    rintro _ ⟨more, rfl, heq⟩
    exact ⟨more, rfl, by simp [stmt_bareAll_append, ← ha, heq, Stmt.bareAll]⟩
  | some s =>
    refine (hmore (done.push s)).mono ?_
    rintro _ ⟨more, rfl, heq⟩
    exact ⟨s :: more, by simp, by simp [stmt_bareAll_append, ← ha, heq, Stmt.bareAll]⟩

/-- Junk comes to at most one statement. All complaints are about its own tokens, and at most one of
them makes the parser unwind. -/
theorem alone_blames (j : Junk) : (alone j.all).1.length ≤ 1 ∧ Blames j (alone j.all).2 := by
  obtain ⟨a, b, s, t, new, hs, ht, hend, -, hc, -, -, hblames⟩ := declaration_junk (j := j)
    (s := ⟨j.all, #[], 0⟩) (t := ⟨j.all, #[], 0⟩) (m := 16 * j.all.length + 15)
    (n := 16 * j.all.length + 15) (List.append_nil _).symm (List.append_nil _).symm
    (by simp) (by simp)
  have hnew : s.complaints.toList = new := by simpa using hc
  rw [alone_junk hs hend]
  exact ⟨by cases a <;> simp, hnew ▸ hblames⟩

end Parse

end Lox
