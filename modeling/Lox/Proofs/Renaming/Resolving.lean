import Mathlib.Data.List.Forall2
import Lox.Proofs.Renaming.Renamed
import Lox.Proofs.Resolve.Opened

/-! Resolving a program in which local variables are renamed: the two walks stay side by side, with
scopes that differ in the names only. -/
namespace Lox

namespace Resolve

section Growth

/-- A walk changes no scope but the innermost, and only adds to what was found before. -/
structure Grows (w v : Walk) : Prop where
  level : v.scopes.length = w.scopes.length
  outer : v.scopes.tail = w.scopes.tail
  located : w.located.toList <+: v.located.toList
  quiet : v.errors = #[] → w.errors = #[]

variable {u v w : Walk} {f : Walk → Walk}

theorem Grows.refl (w : Walk) : Grows w w := ⟨rfl, rfl, List.prefix_refl _, fun h => h⟩

theorem Grows.trans (h : Grows u v) (h' : Grows v w) : Grows u w :=
  ⟨h'.level.trans h.level, h'.outer.trans h.outer, h.located.trans h'.located,
    fun hw => h.quiet (h'.quiet hw)⟩

theorem grows_complain (fault : ScopeFault) (token : Token) (w : Walk) :
    Grows w (complain fault token w) :=
  ⟨rfl, rfl, List.prefix_refl _, fun h => absurd h (by simp [complain])⟩

theorem grows_declare (name : Token) (w : Walk) : Grows w (declare name w) := by
  obtain ⟨_ | ⟨scope, outer⟩, located, errors⟩ := w
  · exact .refl _
  · simp only [declare]
    split
    · exact ⟨rfl, rfl, List.prefix_refl _, fun h => absurd h (by simp [complain])⟩
    · exact ⟨rfl, rfl, List.prefix_refl _, fun h => h⟩

theorem grows_define (name : Token) (w : Walk) : Grows w (define name w) := by
  obtain ⟨_ | ⟨scope, outer⟩, located, errors⟩ := w
  · exact .refl _
  · simp only [define]
    split
    · exact .refl _
    · exact ⟨rfl, rfl, List.prefix_refl _, fun h => h⟩

theorem grows_use (id : NodeId) (access : Access) (name : Token) (w : Walk) :
    Grows w (use id access name w) := by
  unfold use
  split
  · exact .refl _
  · exact ⟨rfl, rfl, by simp, fun h => h⟩

theorem grows_checkReady (name : Token) (w : Walk) : Grows w (checkReady name w) := by
  unfold checkReady
  split
  · exact .refl _
  · split
    · exact grows_complain _ _ _
    · exact .refl _

theorem grows_inScope (h : ∀ w, Grows w (f w)) (w : Walk) :
    Grows w (inScope f w) ∧ (inScope f w).scopes = w.scopes := by
  have hf := h { w with scopes := .empty :: w.scopes }
  have houter : (inScope f w).scopes = w.scopes := hf.outer
  exact ⟨⟨by rw [houter], by rw [houter], hf.located, hf.quiet⟩, houter⟩

theorem grows_parameters (names : List Token) (w : Walk) : Grows w (parameters names w) := by
  unfold parameters
  induction names generalizing w with
  | nil => exact .refl _
  | cons name names ih =>
    exact ((grows_declare name w).trans (grows_define name _)).trans (ih _)

mutual

theorem grows_expr : ∀ (e : Expr) (w : Walk), Grows w (expr e w)
  | .literal .., w => .refl w
  | .group _ e, w | .unary _ _ _ e, w => grows_expr e w
  | .binary _ l _ _ r, w | .logical _ l _ _ r, w => (grows_expr l w).trans (grows_expr r _)
  | .reference id name, w => (grows_checkReady name w).trans (grows_use id .read name _)
  | .assign id name e, w => (grows_expr e w).trans (grows_use id .write name _)
  | .call _ e _ es, w => (grows_expr e w).trans (grows_exprs es _)
  | .lambda fn, w => (grows_lambda fn w).1

theorem grows_exprs : ∀ (es : List Expr) (w : Walk), Grows w (exprs es w)
  | [], w => .refl w
  | e :: es, w => (grows_expr e w).trans (grows_exprs es _)

theorem grows_expr? : ∀ (e : Option Expr) (w : Walk), Grows w (expr? e w)
  | none, w => .refl w
  | some e, w => grows_expr e w

theorem grows_lambda : ∀ (fn : Lambda) (w : Walk),
    Grows w (lambda fn w) ∧ (lambda fn w).scopes = w.scopes
  | .mk _ names body, w =>
    grows_inScope (fun w => (grows_parameters names w).trans (grows_stmts .function body _)) w

/-- A walk adds to what is found; it takes nothing back. -/
theorem grows_stmt (context : Context) : ∀ (s : Stmt) (w : Walk), Grows w (stmt context s w)
  | .expression e, w | .print e, w => grows_expr e w
  | .var name e, w =>
    ((grows_declare name w).trans (grows_expr? e _)).trans (grows_define name _)
  | .block body, w => (grows_inScope (fun w => grows_stmts context body w) w).1
  | .branch _ e yes no, w =>
    ((grows_expr e w).trans (grows_stmt context yes _)).trans (grows_stmt? context no _)
  | .loop _ e body, w => (grows_expr e w).trans (grows_stmt { context with inLoop := true } body _)
  | .breakLoop keyword, w => by
    simp only [stmt]
    split
    · exact .refl w
    · exact grows_complain _ _ w
  | .function name fn, w =>
    ((grows_declare name w).trans (grows_define name _)).trans (grows_lambda fn _).1
  | .giveBack keyword e, w => by
    simp only [stmt]
    split
    · exact grows_expr? e w
    · exact (grows_complain _ _ w).trans (grows_expr? e _)

theorem grows_stmts (context : Context) : ∀ (ss : List Stmt) (w : Walk),
    Grows w (stmts context ss w)
  | [], w => .refl w
  | s :: ss, w => (grows_stmt context s w).trans (grows_stmts context ss _)

theorem grows_stmt? (context : Context) : ∀ (s : Option Stmt) (w : Walk),
    Grows w (stmt? context s w)
  | none, w => .refl w
  | some s, w => grows_stmt context s w

end

theorem Grows.nested (h : Grows u v) (hu : u.scopes ≠ []) : v.scopes ≠ [] :=
  List.ne_nil_of_length_pos (h.level ▸ List.length_pos_of_ne_nil hu)

end Growth

variable {old new : String}

/-- A scope, and the same with its declaration of the old name, if any, renamed or not. -/
structure Alias (old new : String) (renamed : Bool) (scope scope' : LocalScope) : Prop where
  size : scope'.size = scope.size
  other : ∀ name, name ≠ old → name ≠ new → scope'.get? name = scope.get? name
  former : scope'.get? old = if renamed then none else scope.get? old
  latter : scope'.get? new = if renamed then scope.get? old else none

section Scopes

variable {b c r : Bool} {scope scope' : LocalScope} {name : String}

theorem aliased_congr (h : name = old → b = c) :
    aliased old new b name = aliased old new c name := by
  by_cases hold : name = old
  · rw [h hold]
  · rw [aliased, aliased, if_neg fun hb => hold hb.2, if_neg fun hc => hold hc.2]

theorem alias_empty : Alias old new r .empty .empty := by
  constructor <;> simp

/-- Where the old name is not declared, nothing is renamed yet. -/
theorem Alias.choose (h : Alias old new r scope scope') (hnone : scope.get? old = none) (c : Bool) :
    Alias old new c scope scope' := by
  refine ⟨h.size, h.other, ?_, ?_⟩
  · rw [h.former, hnone]
    simp
  · rw [h.latter, hnone]
    simp

/-- A name is found as it is written where the flag is that of its innermost declaration. -/
theorem Alias.get?_aliased (h : Alias old new r scope scope') (hname : name ≠ new)
    (hb : c = if (scope.get? old).isSome then r else b) :
    scope'.get? (aliased old new c name) = scope.get? name := by
  by_cases hold : name = old
  · subst hold
    cases hs : scope.get? name <;> cases c <;>
      simp_all [aliased, h.former, h.latter]
  · rw [aliased, if_neg fun hc => hold hc.2, h.other name hold hname]

/-- Entering a name in two scopes keeps one an alias of the other. -/
theorem Alias.put (h : Alias old new r scope scope') (hname : name ≠ new)
    (hb : c = if (scope.get? old).isSome then r else b) (hc : name = old → c = r)
    (binding : Binding) :
    Alias old new r (scope.put name binding) (scope'.put (aliased old new c name) binding) := by
  have hsize : (scope'.put (aliased old new c name) binding).size =
      (scope.put name binding).size := by
    rw [NameTable.size_put, NameTable.size_put, NameTable.contains, NameTable.contains,
      h.get?_aliased hname hb, h.size]
  by_cases hold : name = old
  · subst hold
    obtain rfl := hc rfl
    have hother : ∀ other, other ≠ name → other ≠ new → other ≠ aliased name new c name := by
      intro other ho hn
      unfold aliased
      split <;> assumption
    refine ⟨hsize, fun other ho hn => ?_, ?_, ?_⟩
    · rw [NameTable.get?_put, NameTable.get?_put, if_neg (hother other ho hn), if_neg ho,
        h.other other ho hn]
    · cases c <;> simp [NameTable.get?_put, aliased, hname, h.former]
    · cases c <;> simp [NameTable.get?_put, aliased, hname.symm, h.latter]
  · have haliased : aliased old new c name = name := if_neg fun hc => hold hc.2
    rw [haliased] at hsize ⊢
    refine ⟨hsize, fun other ho hn => ?_, ?_, ?_⟩
    · rw [NameTable.get?_put, NameTable.get?_put, h.other other ho hn]
    · rw [NameTable.get?_put, NameTable.get?_put, if_neg (Ne.symm hold), if_neg (Ne.symm hold),
        h.former]
    · rw [NameTable.get?_put, NameTable.get?_put, if_neg (Ne.symm hname), if_neg (Ne.symm hold),
        h.latter]

end Scopes

/-- Open scopes, and the same with some declarations of the old name renamed. The flag tells whether
the innermost is. -/
inductive Beside (old new : String) : Bool → List LocalScope → List LocalScope → Prop
  | nil : Beside old new false [] []
  | cons {b c r scope scope' outer outer'} (flag : c = if (scope.get? old).isSome then r else b)
      (inner : Alias old new r scope scope') (rest : Beside old new b outer outer') :
      Beside old new c (scope :: outer) (scope' :: outer')

section Open

variable {b : Bool} {Γ Γ' : List LocalScope} {name : String}

/-- A name under the alias is found in the same place as the name it stands for. -/
theorem Beside.address? (h : Beside old new b Γ Γ') (hname : name ≠ new) :
    address? (aliased old new b name) Γ' = Resolve.address? name Γ := by
  induction h with
  | nil => rfl
  | @cons b c r scope scope' outer outer' flag inner rest ih =>
    simp only [Resolve.address?, inner.get?_aliased hname flag]
    cases hs : scope.get? name with
    | some binding => rfl
    | none =>
      have hflag : name = old → c = b := by
        rintro rfl
        simpa [hs] using flag
      rw [aliased_congr hflag, ih]

/-- A renamed declaration is a declaration. -/
theorem Beside.isSome_address? (h : Beside old new b Γ Γ') (hb : b = true) :
    (Resolve.address? old Γ).isSome := by
  induction h with
  | nil => cases hb
  | @cons b c r scope scope' outer outer' flag inner rest ih =>
    simp only [Resolve.address?]
    cases hs : scope.get? old with
    | some binding => rfl
    | none =>
      rw [Option.isSome_map]
      exact ih (by simpa [hs, hb] using flag.symm)

end Open

end Resolve

/-- Two uses of the same variable at the same address, whose names differ as renaming has it. -/
def Located.Renamed (old new : String) (u u' : Located) : Prop :=
  ∃ renamed, u' = { u with name := u.name.inside old new renamed }

namespace Resolve

/-- Two walks, of which the first found no error, over programs that differ in renamed variables. -/
structure Twin (old new : String) (b : Bool) (w w' : Walk) : Prop where
  scopes : Beside old new b w.scopes w'.scopes
  located : List.Forall₂ (Located.Renamed old new) w.located.toList w'.located.toList
  errors : w'.errors = #[]

section Steps

variable {b c : Bool} {w w' : Walk} {name : Token}

/-- Declaring a renamed variable takes the same slot. -/
theorem twin_declare (h : Twin old new b w w') (hname : name.lexeme ≠ new)
    (hc : c = true → w.scopes ≠ []) (hq : (declare name w).errors = #[]) :
    Twin old new (name.turn old b c) (declare name w)
      (declare (name.inside old new c) w') := by
  obtain ⟨Γ, us, es⟩ := w
  obtain ⟨Γ', us', es'⟩ := w'
  obtain ⟨hscopes, hlocated, rfl⟩ := h
  cases hscopes with
  | nil =>
    have hfalse : c = false := by simpa using hc
    subst hfalse
    exact ⟨by simpa [Token.turn, declare] using Beside.nil, hlocated, rfl⟩
  | @cons b₀ _ r scope scope' outer outer' flag inner rest =>
    have hnone : scope.get? name.lexeme = none := by
      by_contra hsome
      have hcontains : scope.contains name.lexeme = true := Option.isSome_iff_ne_none.mpr hsome
      simp [declare, hcontains, complain] at hq
    have hnone' : scope'.get? (aliased old new c name.lexeme) = none := by
      by_cases hold : name.lexeme = old
      · have h := (inner.choose (hold ▸ hnone) c).get?_aliased (b := c) (c := c) hname (by simp)
        exact h.trans hnone
      · rw [aliased_congr (c := b) fun h => absurd h hold]
        exact (inner.get?_aliased hname flag).trans hnone
    have hscopes : Beside old new (name.turn old b c)
        (scope.put name.lexeme ⟨scope.size, false⟩ :: outer)
        (scope'.put (aliased old new c name.lexeme) ⟨scope.size, false⟩ :: outer') := by
      by_cases hold : name.lexeme = old
      · have halias := (inner.choose (hold ▸ hnone) c).put (b := c) (c := c) hname (by simp)
          (fun _ => rfl) ⟨scope.size, false⟩
        exact .cons (by simp [Token.turn, hold, NameTable.get?_put]) halias rest
      · have halias := inner.put hname flag (fun h => absurd h hold) ⟨scope.size, false⟩
        rw [aliased_congr (c := c) fun h => absurd h hold] at halias
        exact .cons (by simp [Token.turn, hold, NameTable.get?_put, Ne.symm hold, flag]) halias rest
    simpa [declare, NameTable.contains, hnone, hnone', inner.size] using
      (⟨hscopes, hlocated, rfl⟩ : Twin old new _ ⟨_, us, es⟩ ⟨_, us', #[]⟩)

theorem twin_define (h : Twin old new b w w') (hname : name.lexeme ≠ new)
    (hc : name.lexeme = old → c = b) :
    Twin old new b (define name w) (define (name.inside old new c) w') := by
  obtain ⟨Γ, us, es⟩ := w
  obtain ⟨Γ', us', es'⟩ := w'
  obtain ⟨hscopes, hlocated, rfl⟩ := h
  cases hscopes with
  | nil => exact ⟨.nil, hlocated, rfl⟩
  | @cons b₀ _ r scope scope' outer outer' flag inner rest =>
    have hget : scope'.get? (aliased old new c name.lexeme) = scope.get? name.lexeme := by
      rw [aliased_congr hc]
      exact inner.get?_aliased hname flag
    cases hs : scope.get? name.lexeme with
    | none =>
      simpa [define, hs, hget] using
        (⟨.cons flag inner rest, hlocated, rfl⟩ : Twin old new b ⟨_, us, es⟩ ⟨_, us', #[]⟩)
    | some binding =>
      have hflag : name.lexeme = old → b = r := fun hold => by simpa [← hold, hs] using flag
      have halias := inner.put hname flag hflag { binding with ready := true }
      rw [← aliased_congr hc] at halias
      have hscopes : Beside old new b
          (scope.put name.lexeme { binding with ready := true } :: outer)
          (scope'.put (aliased old new c name.lexeme) { binding with ready := true } ::
            outer') := by
        refine .cons ?_ halias rest
        by_cases hold : old = name.lexeme
        · simp [NameTable.get?_put, hold, hflag hold.symm]
        · rw [NameTable.get?_put, if_neg hold]
          exact flag
      simpa [define, hs, hget] using
        (⟨hscopes, hlocated, rfl⟩ : Twin old new b ⟨_, us, es⟩ ⟨_, us', #[]⟩)

/-- A renamed use is located as the use it was. -/
theorem twin_use (h : Twin old new b w w') (hname : name.lexeme ≠ new) (id : NodeId)
    (access : Access) :
    Twin old new b (use id access name w) (use id access (name.inside old new b) w') := by
  have haddress := h.scopes.address? hname
  simp only [use, Token.lexeme_inside, haddress]
  cases address? name.lexeme w.scopes with
  | none => exact h
  | some address =>
    refine ⟨h.scopes, ?_, h.errors⟩
    simp only [Array.toList_push]
    exact List.rel_append h.located (.cons ⟨b, rfl⟩ .nil)

theorem twin_checkReady (h : Twin old new b w w') (hname : name.lexeme ≠ new)
    (hq : (checkReady name w).errors = #[]) :
    Twin old new b (checkReady name w) (checkReady (name.inside old new b) w') := by
  obtain ⟨Γ, us, es⟩ := w
  obtain ⟨Γ', us', es'⟩ := w'
  obtain ⟨hscopes, hlocated, rfl⟩ := h
  cases hscopes with
  | nil => exact ⟨.nil, hlocated, rfl⟩
  | @cons b₀ _ r scope scope' outer outer' flag inner rest =>
    have htwin : Twin old new b ⟨scope :: outer, us, es⟩ ⟨scope' :: outer', us', #[]⟩ :=
      ⟨.cons flag inner rest, hlocated, rfl⟩
    simp only [checkReady, Token.lexeme_inside, inner.get?_aliased hname flag] at hq ⊢
    split at hq
    · simp [complain] at hq
    · exact htwin

theorem twin_parameters {names names' : List Token}
    (hr : Token.RenamedAll old new b names names' c) (hnames : ∀ name ∈ names, name.lexeme ≠ new)
    (h : Twin old new b w w') (hw : w.scopes ≠ []) (hq : (parameters names w).errors = #[]) :
    Twin old new c (parameters names w) (parameters names' w') := by
  induction hr generalizing w w' with
  | nil => exact h
  | @cons b _ name names _ chosen rest ih =>
    have hname := hnames name (List.mem_cons_self ..)
    have hq' := ((grows_define name _).trans (grows_parameters names _)).quiet hq
    have hdeclared := twin_declare (c := chosen) h hname (fun _ => hw) hq'
    have hdefined := twin_define (c := chosen) hdeclared hname fun hold => (if_pos hold).symm
    exact ih (fun other hother => hnames other (List.mem_cons_of_mem _ hother)) hdefined
      (((grows_declare name w).trans (grows_define name _)).nested hw) hq

theorem Twin.enter (h : Twin old new b w w') :
    Twin old new b { w with scopes := .empty :: w.scopes }
      { w' with scopes := .empty :: w'.scopes } :=
  ⟨.cons (r := false) (by simp) alias_empty h.scopes, h.located, h.errors⟩

/-- A scope that was opened on both sides is gone on both when it is left. -/
theorem Twin.leave {f f' : Walk → Walk} (h : Twin old new b w w')
    (hf : ∀ w, Grows w (f w)) (hf' : ∀ w, Grows w (f' w))
    (hbody : Twin old new c (f { w with scopes := .empty :: w.scopes })
      (f' { w' with scopes := .empty :: w'.scopes })) :
    Twin old new b (inScope f w) (inScope f' w') := by
  refine ⟨?_, hbody.located, hbody.errors⟩
  rw [(grows_inScope hf w).2, (grows_inScope hf' w').2]
  exact h.scopes

end Steps

/-- Two walks that are at one place of a program and of the renamed program. Whoever knows the uses
found can restore what was walked over. -/
structure Follows (old new : String) (b : Bool) (v v' : Walk)
    (restored : (NodeId → Bool) → Prop) : Prop where
  twin : Twin old new b v v'
  former : ∀ known, (∀ u ∈ v.located.toList, known u.id = true) → restored known

section Trees

variable {b c : Bool} {u v w w' : Walk} {restored : (NodeId → Bool) → Prop}

theorem Follows.restore (h : Follows old new b v w' restored) (hg : Grows v w)
    {known : NodeId → Bool} (hk : ∀ u ∈ w.located.toList, known u.id = true) : restored known :=
  h.former known fun u hu => hk u (hg.located.subset hu)

/-- A use that is renamed is known, for it has an address. -/
theorem former_use {name : Token} (h : Twin old new b w w') (hname : name.lexeme ≠ new)
    (id : NodeId) (access : Access) {known : NodeId → Bool}
    (hk : ∀ u ∈ (use id access name w).located.toList, known u.id = true) :
    (if known id then (name.inside old new b).former old new else name.inside old new b) =
      name := by
  cases hid : known id with
  | true => exact Token.former_inside hname b
  | false =>
    have hnone : address? name.lexeme w.scopes = none := by
      cases ha : address? name.lexeme w.scopes with
      | none => rfl
      | some address =>
        have := hk ⟨id, access, name, address⟩ (by simp [use, ha])
        rw [hid] at this
        cases this
    have halias : aliased old new b name.lexeme = name.lexeme := by
      refine if_neg ?_
      rintro ⟨hb, hold⟩
      have := h.scopes.isSome_address? hb
      rw [← hold, hnone] at this
      cases this
    simp [Token.inside, halias]

mutual

/-- The walk over a renamed expression follows that over the expression. -/
theorem follows_expr : ∀ (e : Expr) {e' : Expr} {b : Bool} {w w' : Walk},
    Expr.Renamed old new b e e' → new ∉ e.names → Twin old new b w w' →
    (expr e w).errors = #[] →
    Follows old new b (expr e w) (expr e' w') fun known => e'.formerly old new known = e
  | .literal .., _, _, _, _, hr, _, ht, _ => by
    cases hr with
    | literal => exact ⟨ht, fun _ _ => rfl⟩
  | .group _ e, _, _, _, _, hr, hn, ht, hq => by
    cases hr with
    | group inner =>
      have h := follows_expr e inner hn ht hq
      exact ⟨h.twin, fun known hk => by simp only [Expr.formerly, h.former known hk]⟩
  | .unary _ _ _ e, _, _, _, _, hr, hn, ht, hq => by
    cases hr with
    | unary operand =>
      have h := follows_expr e operand hn ht hq
      exact ⟨h.twin, fun known hk => by simp only [Expr.formerly, h.former known hk]⟩
  | .binary _ l _ _ r, _, _, w, _, hr, hn, ht, hq => by
    simp only [Expr.names, List.mem_append, not_or] at hn
    cases hr with
    | binary left right =>
      have hg := grows_expr r (expr l w)
      have hl := follows_expr l left hn.1 ht (hg.quiet hq)
      have hr := follows_expr r right hn.2 hl.twin hq
      exact ⟨hr.twin, fun known hk => by
        simp only [Expr.formerly, hl.restore hg hk, hr.former known hk]⟩
  | .logical _ l _ _ r, _, _, w, _, hr, hn, ht, hq => by
    simp only [Expr.names, List.mem_append, not_or] at hn
    cases hr with
    | logical left right =>
      have hg := grows_expr r (expr l w)
      have hl := follows_expr l left hn.1 ht (hg.quiet hq)
      have hr := follows_expr r right hn.2 hl.twin hq
      exact ⟨hr.twin, fun known hk => by
        simp only [Expr.formerly, hl.restore hg hk, hr.former known hk]⟩
  | .reference id name, _, _, w, _, hr, hn, ht, hq => by
    simp only [Expr.names, List.mem_singleton] at hn
    cases hr with
    | reference =>
      have hready := twin_checkReady ht (Ne.symm hn) ((grows_use id .read name _).quiet hq)
      exact ⟨twin_use hready (Ne.symm hn) id .read, fun known hk => by
        simp only [Expr.formerly, former_use hready (Ne.symm hn) id .read hk]⟩
  | .assign id name e, _, _, w, _, hr, hn, ht, hq => by
    simp only [Expr.names, List.mem_cons, not_or] at hn
    cases hr with
    | assign value =>
      have hg := grows_use id .write name (expr e w)
      have h := follows_expr e value hn.2 ht (hg.quiet hq)
      exact ⟨twin_use h.twin (Ne.symm hn.1) id .write, fun known hk => by
        simp only [Expr.formerly, h.restore hg hk,
          former_use h.twin (Ne.symm hn.1) id .write hk]⟩
  | .call _ e _ es, _, _, w, _, hr, hn, ht, hq => by
    simp only [Expr.names, List.mem_append, not_or] at hn
    cases hr with
    | call callee arguments =>
      have hg := grows_exprs es (expr e w)
      have he := follows_expr e callee hn.1 ht (hg.quiet hq)
      have hes := follows_exprs es arguments hn.2 he.twin hq
      exact ⟨hes.twin, fun known hk => by
        simp only [Expr.formerly, he.restore hg hk, hes.former known hk]⟩
  | .lambda fn, _, _, _, _, hr, hn, ht, hq => by
    cases hr with
    | lambda function =>
      have h := follows_lambda fn function hn ht hq
      exact ⟨h.twin, fun known hk => by simp only [Expr.formerly, h.former known hk]⟩

theorem follows_exprs : ∀ (es : List Expr) {es' : List Expr} {b : Bool} {w w' : Walk},
    Expr.RenamedAll old new b es es' → new ∉ Expr.namesAll es → Twin old new b w w' →
    (exprs es w).errors = #[] →
    Follows old new b (exprs es w) (exprs es' w') fun known =>
      Expr.formerlyAll old new known es' = es
  | [], _, _, _, _, hr, _, ht, _ => by
    cases hr with
    | nil => exact ⟨ht, fun _ _ => rfl⟩
  | e :: es, _, _, w, _, hr, hn, ht, hq => by
    simp only [Expr.namesAll, List.mem_append, not_or] at hn
    cases hr with
    | cons first rest =>
      have hg := grows_exprs es (expr e w)
      have he := follows_expr e first hn.1 ht (hg.quiet hq)
      have hes := follows_exprs es rest hn.2 he.twin hq
      exact ⟨hes.twin, fun known hk => by
        simp only [Expr.formerlyAll, he.restore hg hk, hes.former known hk]⟩

theorem follows_expr? : ∀ (e : Option Expr) {e' : Option Expr} {b : Bool} {w w' : Walk},
    Expr.Renamed? old new b e e' → new ∉ Expr.names? e → Twin old new b w w' →
    (expr? e w).errors = #[] →
    Follows old new b (expr? e w) (expr? e' w') fun known => Expr.formerly? old new known e' = e
  | none, _, _, _, _, hr, _, ht, _ => by
    cases hr with
    | none => exact ⟨ht, fun _ _ => rfl⟩
  | some e, _, _, _, _, hr, hn, ht, hq => by
    cases hr with
    | some h =>
      have h := follows_expr e h hn ht hq
      exact ⟨h.twin, fun known hk => by simp only [Expr.formerly?, h.former known hk]⟩

theorem follows_lambda : ∀ (fn : Lambda) {fn' : Lambda} {b : Bool} {w w' : Walk},
    Lambda.Renamed old new b fn fn' → new ∉ fn.names → Twin old new b w w' →
    (lambda fn w).errors = #[] →
    Follows old new b (lambda fn w) (lambda fn' w') fun known => fn'.formerly old new known = fn
  | .mk _ names body, _, _, w, _, hr, hn, ht, hq => by
    simp only [Lambda.names, List.mem_append, List.mem_map, not_or, not_exists, not_and] at hn
    cases hr with
    | @mk _ _ _ _ _ names' _ body' params statements =>
      have hg :=
        grows_stmts .function body (parameters names { w with scopes := .empty :: w.scopes })
      have hparams := twin_parameters params hn.1 ht.enter (List.cons_ne_nil _ _) (hg.quiet hq)
      have hw := (grows_parameters names { w with scopes := .empty :: w.scopes }).nested
        (List.cons_ne_nil _ _)
      have h := follows_stmts body statements hn.2 .function hparams (fun _ => hw) hq
      refine ⟨ht.leave (fun w => (grows_parameters names w).trans (grows_stmts .function body _))
        (fun w => (grows_parameters names' w).trans (grows_stmts .function body' _)) h.twin,
        fun known hk => ?_⟩
      simp only [Lambda.formerly, h.former known hk, params.former hn.1]

/-- The walk over a renamed statement follows too; a declaration may put the renaming into force. -/
theorem follows_stmt : ∀ (s : Stmt) {s' : Stmt} {nested b b' : Bool} {w w' : Walk},
    Stmt.Renamed old new nested b s s' b' → new ∉ s.names → ∀ context : Context,
    Twin old new b w w' → (nested = true → w.scopes ≠ []) → (stmt context s w).errors = #[] →
    Follows old new b' (stmt context s w) (stmt context s' w') fun known =>
      s'.formerly old new known nested = s
  | .expression e, _, _, _, _, _, _, hr, hn, _, ht, _, hq => by
    cases hr with
    | expression value =>
      have h := follows_expr e value hn ht hq
      exact ⟨h.twin, fun known hk => by simp only [Stmt.formerly, h.former known hk]⟩
  | .print e, _, _, _, _, _, _, hr, hn, _, ht, _, hq => by
    cases hr with
    | print value =>
      have h := follows_expr e value hn ht hq
      exact ⟨h.twin, fun known hk => by simp only [Stmt.formerly, h.former known hk]⟩
  | .var name e, _, nested, _, _, w, _, hr, hn, _, ht, hw, hq => by
    simp only [Stmt.names, List.mem_cons, not_or] at hn
    cases hr with
    | var chosen choice initial =>
      have hg := grows_define name (expr? e (declare name w))
      have hdeclared := twin_declare (c := chosen) ht (Ne.symm hn.1) (fun h => hw (choice h))
        ((grows_expr? e _).quiet (hg.quiet hq))
      have h := follows_expr? e initial hn.2 hdeclared (hg.quiet hq)
      refine ⟨twin_define h.twin (Ne.symm hn.1) fun hold => (if_pos hold).symm, fun known hk => ?_⟩
      have hname : (if nested = true then (name.inside old new chosen).former old new
          else name.inside old new chosen) = name := by
        cases nested with
        | true => exact Token.former_inside (Ne.symm hn.1) chosen
        | false => cases chosen <;> simp_all [Token.inside, aliased]
      simp only [Stmt.formerly, hname, h.restore hg hk]
  | .block body, _, _, _, _, w, _, hr, hn, context, ht, _, hq => by
    cases hr with
    | @block _ _ _ _ body' body =>
      have h := follows_stmts _ body hn context ht.enter (fun _ => List.cons_ne_nil _ _) hq
      refine ⟨ht.leave (fun w => grows_stmts context _ w)
        (fun w => grows_stmts context body' w) h.twin, fun known hk => ?_⟩
      simp only [Stmt.formerly, h.former known hk]
  | .branch _ e yes no, _, _, _, _, w, _, hr, hn, context, ht, hw, hq => by
    simp only [Stmt.names, List.mem_append, not_or] at hn
    cases hr with
    | branch condition first otherwise =>
      have hyes := grows_stmt context yes (expr e w)
      have hno := grows_stmt? context no (stmt context yes (expr e w))
      have h := follows_expr e condition hn.1.1 ht (hyes.quiet (hno.quiet hq))
      have hw' := fun hn => (grows_expr e w).nested (hw hn)
      have h' := follows_stmt yes first hn.1.2 context h.twin hw' (hno.quiet hq)
      have hw'' := fun hn => hyes.nested (hw' hn)
      have h'' := follows_stmt? no otherwise hn.2 context h'.twin hw'' hq
      exact ⟨h''.twin, fun known hk => by simp only [Stmt.formerly, h.restore (hyes.trans hno) hk,
        h'.restore hno hk, h''.former known hk]⟩
  | .loop _ e body, _, _, _, _, w, _, hr, hn, context, ht, hw, hq => by
    simp only [Stmt.names, List.mem_append, not_or] at hn
    cases hr with
    | loop condition turn =>
      have hg := grows_stmt { context with inLoop := true } body (expr e w)
      have h := follows_expr e condition hn.1 ht (hg.quiet hq)
      have hw' := fun hn => (grows_expr e w).nested (hw hn)
      have h' := follows_stmt body turn hn.2 { context with inLoop := true } h.twin hw' hq
      exact ⟨h'.twin, fun known hk => by
        simp only [Stmt.formerly, h.restore hg hk, h'.former known hk]⟩
  | .breakLoop keyword, _, _, _, _, w, w', hr, _, context, ht, _, hq => by
    cases hr with
    | breakLoop =>
      cases hloop : context.inLoop with
      | true =>
        simp only [stmt, hloop, if_true]
        exact ⟨ht, fun _ _ => rfl⟩
      | false => simp [stmt, hloop, complain] at hq
  | .function name fn, _, _, _, _, w, _, hr, hn, context, ht, hw, hq => by
    simp only [Stmt.names, List.mem_cons, not_or] at hn
    cases hr with
    | function function =>
      have hg := grows_define name (declare name w)
      have hg' := (grows_lambda fn (define name (declare name w))).1
      have hdeclared := twin_declare (c := false) ht (Ne.symm hn.1) (fun h => by cases h)
        (hg.quiet (hg'.quiet hq))
      have hdefined := twin_define hdeclared (Ne.symm hn.1) fun hold => (if_pos hold).symm
      have hname : name.inside old new false = name := by simp [Token.inside, aliased]
      rw [hname] at hdefined
      have h := follows_lambda fn function hn.2 hdefined hq
      exact ⟨h.twin, fun known hk => by simp only [Stmt.formerly, h.former known hk]⟩
  | .giveBack keyword e, _, _, _, _, w, _, hr, hn, context, ht, _, hq => by
    cases hr with
    | giveBack value =>
      simp only [stmt] at hq ⊢
      split at hq
      · have h := follows_expr? e value hn ht hq
        simp only [*, if_true]
        exact ⟨h.twin, fun known hk => by simp only [Stmt.formerly, h.former known hk]⟩
      · exact absurd ((grows_expr? e _).quiet hq) (by simp [complain])

theorem follows_stmts : ∀ (ss : List Stmt) {ss' : List Stmt} {nested b b' : Bool} {w w' : Walk},
    Stmt.RenamedAll old new nested b ss ss' b' → new ∉ Stmt.namesAll ss → ∀ context : Context,
    Twin old new b w w' → (nested = true → w.scopes ≠ []) → (stmts context ss w).errors = #[] →
    Follows old new b' (stmts context ss w) (stmts context ss' w') fun known =>
      Stmt.formerlyAll old new known nested ss' = ss
  | [], _, _, _, _, _, _, hr, _, _, ht, _, _ => by
    cases hr with
    | nil => exact ⟨ht, fun _ _ => rfl⟩
  | s :: ss, _, _, _, _, w, _, hr, hn, context, ht, hw, hq => by
    simp only [Stmt.namesAll, List.mem_append, not_or] at hn
    cases hr with
    | cons first rest =>
      have hg := grows_stmts context ss (stmt context s w)
      have h := follows_stmt s first hn.1 context ht hw (hg.quiet hq)
      have hw' := fun hn => (grows_stmt context s w).nested (hw hn)
      have h' := follows_stmts ss rest hn.2 context h.twin hw' hq
      exact ⟨h'.twin, fun known hk => by
        simp only [Stmt.formerlyAll, h.restore hg hk, h'.former known hk]⟩

theorem follows_stmt? : ∀ (s : Option Stmt) {s' : Option Stmt} {nested b : Bool} {w w' : Walk},
    Stmt.Renamed? old new nested b s s' → new ∉ Stmt.names? s → ∀ context : Context,
    Twin old new b w w' → (nested = true → w.scopes ≠ []) → (stmt? context s w).errors = #[] →
    Follows old new b (stmt? context s w) (stmt? context s' w') fun known =>
      Stmt.formerly? old new known nested s' = s
  | none, _, _, _, _, _, hr, _, _, ht, _, _ => by
    cases hr with
    | none => exact ⟨ht, fun _ _ => rfl⟩
  | some s, _, _, _, _, _, hr, hn, context, ht, hw, hq => by
    cases hr with
    | some h =>
      have h := follows_stmt s h hn context ht hw hq
      exact ⟨h.twin, fun known hk => by simp only [Stmt.formerly?, h.former known hk]⟩

end

end Trees

end Resolve

end Lox
