import Lox.Proofs.Parse.Programs
import Lox.Proofs.Resolve.Violations

/-! The tokens at the places of a program are those it was read from. -/
namespace Lox

/-- The token at a place that errors are blamed on. -/
def Node.token? : Node → Option Token
  | use _ _ name | declared name => some name
  | breakLoop keyword | giveBack keyword => some keyword
  | other _ => none

/-- All tokens at places satisfy `P`. -/
def Marked (P : Token → Prop) (ps : List Place) : Prop := ∀ p ∈ ps, ∀ t ∈ p.node.token?, P t

section Marked

variable {P : Token → Prop} {around : Surroundings} {ps qs : List Place}

@[simp] theorem marked_nil : Marked P [] := by simp [Marked]

@[simp] theorem marked_cons {node : Node} :
    Marked P (⟨around, node⟩ :: ps) ↔ (∀ t ∈ node.token?, P t) ∧ Marked P ps := by
  simp [Marked]

@[simp] theorem marked_append : Marked P (ps ++ qs) ↔ Marked P ps ∧ Marked P qs := by
  simp [Marked, or_imp, forall_and]

theorem marked_paramPlaces {names : List Token} (before : List Token) (h : ∀ t ∈ names, P t) :
    Marked P (paramPlaces around before names) := by
  induction names generalizing before with
  | nil => exact marked_nil
  | cons name names ih =>
    rw [List.forall_mem_cons] at h
    exact marked_cons.mpr ⟨by simpa [Node.token?] using h.1, ih _ h.2⟩

/-- An error is put on the token of its place. -/
theorem Place.token?_of_violation? {p : Place} {e : ScopeError} (h : p.violation? = some e) :
    p.node.token? = some e.token := by
  obtain ⟨around, node⟩ := p
  cases node with
  | breakLoop keyword | giveBack keyword | declared name =>
    simp only [violation?] at h
    split at h <;> cases h
    rfl
  | use id access name =>
    cases access with
    | read =>
      simp only [violation?] at h
      split at h <;> cases h
      rfl
    | write => cases h
  | other id => cases h

/-- An error of scope is blamed on the token at its place. -/
theorem Marked.violations (h : Marked P ps) : ∀ e ∈ ps.filterMap Place.violation?, P e.token := by
  intro e he
  obtain ⟨p, hp, hviolation⟩ := List.mem_filterMap.mp he
  exact h p hp e.token (Place.token?_of_violation? hviolation)

end Marked

namespace Grammar

variable {P : Token → Prop}

/-- The tokens at the places of the tree of a phrase satisfy `P`. -/
def Phrase.Marked (P : Token → Prop) : (p : Phrase) → p.Tree → Prop
  | .declarations, ss | .block, ss =>
    ∀ within before, Lox.Marked P (Stmt.placesAll within before ss)
  | .declaration, s | .binding, s | .statement _, s => ∀ around, Lox.Marked P (s.places around)
  | .start, s => ∀ around, Lox.Marked P (Stmt.places? around s)
  | .function, fn => ∀ around, Lox.Marked P (fn.places around)
  | .parameters, ps | .names, ps => ∀ t ∈ ps, P t
  | .optional, e => ∀ around, Lox.Marked P (Expr.places? around e)
  | .expression, e | .chain _, e | .operand _, e | .unary, e | .call, e | .primary, e =>
    ∀ around, Lox.Marked P (e.places around)
  | .arguments, es | .values, es => ∀ around, Lox.Marked P (Expr.placesAll around es)

variable {nearest : Bool} {p : Phrase} {ts : List Token}

theorem marked_counting {keyword : Token} {i : Option Stmt} {c : Expr} {step : Option Expr}
    {s : Stmt} (hi : ∀ around, Lox.Marked P (Stmt.places? around i))
    (hc : ∀ around, Lox.Marked P (c.places around))
    (ht : ∀ around, Lox.Marked P (Expr.places? around step))
    (hs : ∀ around, Lox.Marked P (s.places around)) (around : Surroundings) :
    Lox.Marked P ((Stmt.counting keyword i c step s).places around) := by
  cases i <;> cases step <;>
    simp_all [Stmt.counting, Stmt.places, Stmt.placesAll, Stmt.places?, Expr.places?]

/-- The tokens at the places of a phrase are its own. -/
theorem marked_of_derives {t : p.Tree} (h : Derives nearest p ts t)
    (hts : ∀ token ∈ ts, P token) : p.Marked P t := by
  induction h with try simp only [List.forall_mem_append, List.forall_mem_cons] at hts
  | nothing => exact fun _ _ => marked_nil
  | next _ _ hs hss => exact fun _ _ => marked_append.mpr ⟨hs hts.1 _, hss hts.2 _ _⟩
  | named _ _ _ hf =>
    exact fun _ => marked_cons.mpr ⟨by simpa [Node.token?] using hts.2.1, hf hts.2.2 _⟩
  | declared _ _ hs => exact hs hts.2
  | plain _ hs => exact hs hts
  | unset _ _ => exact fun _ => marked_cons.mpr ⟨by simpa [Node.token?] using hts.1, marked_nil⟩
  | set _ _ _ _ he =>
    exact fun _ => marked_cons.mpr ⟨by simpa [Node.token?] using hts.1, he hts.2.2.1 _⟩
  | evaluate _ _ he => exact he hts.1
  | print _ _ _ he => exact he hts.2.1
  | giveBack _ _ _ he =>
    exact fun _ => marked_cons.mpr ⟨by simpa [Node.token?] using hts.1, he hts.2.1 _⟩
  | breakLoop _ _ =>
    exact fun _ => marked_cons.mpr ⟨by simpa [Node.token?] using hts.1, marked_nil⟩
  | block _ _ hb => exact fun _ => hb hts.2 _ _
  | loop _ _ _ _ _ hc hs =>
    exact fun _ => marked_append.mpr ⟨hc hts.2.2.1 _, hs hts.2.2.2.2 _⟩
  | @counting _ _ _ _ _ c _ _ _ _ _ _ _ n _ _ _ _ _ _ _ _ hi hc ht hs =>
    have hcondition (around : Surroundings) :
        Lox.Marked P ((c.getD (.literal n (.bool true))).places around) := by
      cases c with
      | none => simp [Expr.places, Node.token?]
      | some c => exact hc hts.2.2.2.1 around
    rw [desugared_eq]
    exact marked_counting (hi hts.2.2.1) hcondition (ht hts.2.2.2.2.2.1) (hs hts.2.2.2.2.2.2.2)
  | branch _ _ _ _ _ hc hs =>
    exact fun _ => marked_append.mpr
      ⟨hc hts.2.2.1 _, marked_append.mpr ⟨hs hts.2.2.2.2 _, marked_nil⟩⟩
  | branchElse _ _ _ _ _ _ _ _ hc hs hs' =>
    exact fun _ => marked_append.mpr
      ⟨hc hts.2.2.1 _, marked_append.mpr ⟨hs hts.2.2.2.2.1 _, hs' hts.2.2.2.2.2.2 _⟩⟩
  | startNothing _ => exact fun _ => marked_nil
  | startVariable _ _ hs => exact hs hts.2
  | startExpression _ _ he => exact he hts.1
  | braced _ _ hs => exact hs hts.1
  | function _ _ _ _ _ hp hb =>
    exact fun _ => marked_append.mpr ⟨marked_paramPlaces [] (hp hts.2.1),
      marked_append.mpr ⟨hb hts.2.2.2.2 _ _, by simp [Node.token?]⟩⟩
  | noParameters => exact nofun
  | someParameters _ _ hp => exact hp hts
  | oneName _ => exact List.forall_mem_cons.mpr hts
  | moreNames _ _ _ hp => exact List.forall_mem_cons.mpr ⟨hts.1, hp hts.2.2⟩
  | absent => exact fun _ => marked_nil
  | present _ he => exact he hts
  | assign _ _ _ he =>
    exact fun _ => marked_append.mpr ⟨he hts.2.2 _, by simpa [Node.token?] using hts.1⟩
  | loosest _ he | single _ he | tighter _ _ he | tightest _ he | called _ he | uncalled _ he =>
    exact he hts
  | logical _ _ _ hl hr | binary _ _ _ hl hr =>
    exact fun _ => marked_append.mpr
      ⟨hl hts.1 _, marked_append.mpr ⟨hr hts.2.2 _, by simp [Node.token?]⟩⟩
  | not _ _ he | negate _ _ he =>
    exact fun _ => marked_append.mpr ⟨he hts.2 _, by simp [Node.token?]⟩
  | call _ _ _ _ he ha =>
    exact fun _ => marked_append.mpr
      ⟨he hts.1 _, marked_append.mpr ⟨ha hts.2.2.1 _, by simp [Node.token?]⟩⟩
  | noArguments => exact fun _ => marked_nil
  | someArguments _ _ ha => exact ha hts
  | oneValue _ he => exact fun _ => marked_append.mpr ⟨he hts _, marked_nil⟩
  | moreValues _ _ _ he ha => exact fun _ => marked_append.mpr ⟨he hts.1 _, ha hts.2.2 _⟩
  | no | yes | nil | number | string => exact fun _ => by simp [Expr.places, Node.token?]
  | name _ => exact fun _ => marked_cons.mpr ⟨by simpa [Node.token?] using hts, marked_nil⟩
  | lambda _ _ hf => exact hf hts.2
  | group _ _ _ he => exact fun _ => marked_append.mpr ⟨he hts.2.1 _, by simp [Node.token?]⟩

end Grammar

/-- Errors of scope in a program are blamed on tokens it was read from. -/
theorem resolve_blames {P : Token → Prop} {tokens : List Token} {finish : Token} {firstId : NodeId}
    (htokens : ∀ t ∈ tokens, P t) (h : (parse tokens finish firstId).errors = []) :
    ∀ e ∈ (resolve (parse tokens finish firstId).program).errors, P e.token := by
  have hmarked := Grammar.marked_of_derives (program_of_parse h) htokens (fun _ => []) []
  rw [resolve_eq_places (parse_neat tokens finish firstId).2.2]
  exact Marked.violations hmarked

end Lox
