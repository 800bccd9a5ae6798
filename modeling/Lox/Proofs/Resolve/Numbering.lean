import Mathlib.Data.Finset.Card
import Lox.Proofs.Resolve.Violations

/-! The slots that a walk gives the declarations of a scope. A slot counts the different names that
are declared before it, so it falls behind once a name is declared again. -/
namespace Lox

/-- The names that a scope declares, those of its parameters first. -/
def declaredNames (params : List Token) (ss : List Stmt) : List String :=
  (params ++ ss.filterMap Stmt.declaredName?).map (·.lexeme)

/-- The declarations of a scope, each with the parameters and the statements before it. -/
inductive DeclaredIn (params : List Token) (body : List Stmt) :
    List Token → List Stmt → Token → Prop
  | param {before name after} (h : params = before ++ name :: after) :
    DeclaredIn params body before [] name
  | statement {before s after name} (h : body = before ++ s :: after)
    (hs : s.declaredName? = some name) : DeclaredIn params body params before name

namespace Resolve

/-- Walks within a new scope, as far as some parameters and some statements go. -/
def upTo (context : Context) (params : List Token) (ss : List Stmt) (w : Walk) : Walk :=
  stmts context ss (parameters params { w with scopes := .empty :: w.scopes })

/-- The slot of a name in the innermost scope. -/
def Walk.slot? (w : Walk) (name : String) : Option Nat :=
  w.scopes.head?.bind fun scope => (scope.get? name).map (·.slot)

/-- The slot that a walk gives a name which a scope declares after some parameters and some
statements. -/
def slotAt? (context : Context) (params : List Token) (ss : List Stmt) (name : Token) (w : Walk) :
    Option Nat :=
  (declare name (upTo context params ss w)).slot? name.lexeme

/-- A table has the names that are declared in a scope, each with the slot of its last
declaration. -/
structure Numbers (scope : LocalScope) (names : List String) : Prop where
  contains : ∀ name, scope.contains name = true ↔ name ∈ names
  size : scope.size = names.toFinset.card
  slot : ∀ before name after, names = before ++ name :: after → name ∉ after →
    ∃ ready, scope.get? name = some ⟨before.toFinset.card, ready⟩

theorem numbers_empty : Numbers .empty [] :=
  ⟨by simp [NameTable.contains], rfl, fun _ _ _ h => absurd h (by simp)⟩

/-- A name takes the number of names that its scope has, also when it is entered again. -/
theorem Numbers.put {scope : LocalScope} {names : List String} (h : Numbers scope names)
    (name : String) (ready : Bool) :
    Numbers (scope.put name ⟨scope.size, ready⟩) (names ++ [name]) := by
  refine ⟨fun other => ?_, ?_, fun before other after hsplit hlast => ?_⟩
  · rw [NameTable.contains_iff, NameTable.mem_names_put, ← NameTable.contains_iff, h.contains]
    simp
  · have hinsert : (names ++ [name]).toFinset = insert name names.toFinset := by
      ext other
      simp
    rw [NameTable.size_put, hinsert]
    by_cases hname : name ∈ names
    · rw [if_pos ((h.contains name).mpr hname), Finset.insert_eq_of_mem (by simpa using hname),
        h.size]
    · rw [if_neg fun hc => hname ((h.contains name).mp hc),
        Finset.card_insert_of_notMem (by simpa using hname), h.size]
  · rw [NameTable.get?_put]
    -- Either the name that is put is the one in question, or that one was last declared before.
    obtain rfl | ⟨rest, last, rfl⟩ := List.eq_nil_or_concat after
    · obtain ⟨rfl, hother⟩ := List.append_inj' hsplit rfl
      obtain rfl := List.singleton_inj.mp hother
      exact ⟨ready, by rw [if_pos rfl, h.size]⟩
    · obtain ⟨rfl, hother⟩ : names = before ++ other :: rest ∧ [name] = [last] :=
        List.append_inj' (by simpa using hsplit) rfl
      have hne : other ≠ name := fun he => hlast (by simp [he, List.singleton_inj.mp hother])
      rw [if_neg hne]
      exact h.slot before other rest rfl fun hmem => hlast (by simp [hmem])

theorem numbers_tracks : Tracks Numbers := ⟨numbers_empty, Numbers.put⟩

variable {context : Context} {params : List Token} {ss : List Stmt} {w : Walk} {name : Token}

/-- The walk has numbered the names declared so far. -/
theorem upTo_scopes (ht : Stmt.TidyAll ss) (hd : (Stmt.idsAll ss).Nodup) :
    ∃ scope, (upTo context params ss w).scopes = scope :: w.scopes ∧
      Numbers scope (declaredNames params ss) := by
  obtain ⟨inner, hinner, hnumbers⟩ := numbers_tracks.enteredAll params w.scopes numbers_empty
  obtain ⟨scope, hscope, hnumbers⟩ := numbers_tracks.afterAll ss w.scopes hnumbers
  obtain ⟨us, es, hparams, -⟩ := finds_parameters params (Γ := .empty :: w.scopes)
  obtain ⟨vs, fs, hbody, -⟩ := finds_stmts ss context (enteredAll params (.empty :: w.scopes)) ht hd
  refine ⟨scope, ?_, by simpa [declaredNames] using hnumbers⟩
  rw [upTo, hparams, hbody, hinner, hscope]

theorem slot?_declare {scope : LocalScope} {outer : List LocalScope}
    (h : w.scopes = scope :: outer) : (declare name w).slot? name.lexeme = some scope.size := by
  simp [declare, h, Walk.slot?, NameTable.get?_put]

/-- A declaration gets the number of different names before it as its slot. -/
theorem slotAt?_eq (ht : Stmt.TidyAll ss) (hd : (Stmt.idsAll ss).Nodup) :
    slotAt? context params ss name w = some (declaredNames params ss).toFinset.card := by
  obtain ⟨scope, hscope, hnumbers⟩ := upTo_scopes ht hd
  rw [slotAt?, slot?_declare hscope, hnumbers.size]

/-- The slot is the number of declarations before exactly if none of those repeats a name. -/
theorem slotAt?_eq_length_iff (ht : Stmt.TidyAll ss) (hd : (Stmt.idsAll ss).Nodup) :
    slotAt? context params ss name w = some (declaredNames params ss).length ↔
      (declaredNames params ss).Nodup := by
  rw [slotAt?_eq ht hd, Option.some_inj, ← Multiset.coe_nodup,
    ← Multiset.toFinset_card_eq_card_iff_nodup]
  rfl

/-- Two declarations share a slot exactly if all that is declared from the one up to the other
repeats a name from before them. -/
theorem slotAt?_eq_slotAt?_iff {context' : Context} {params' : List Token} {ss' : List Stmt}
    {name' : Token} {w' : Walk} {more : List String}
    (ht : Stmt.TidyAll ss) (hd : (Stmt.idsAll ss).Nodup) (ht' : Stmt.TidyAll ss')
    (hd' : (Stmt.idsAll ss').Nodup)
    (hmore : declaredNames params' ss' = declaredNames params ss ++ name.lexeme :: more) :
    slotAt? context' params' ss' name' w' = slotAt? context params ss name w ↔
      name.lexeme :: more ⊆ declaredNames params ss := by
  rw [slotAt?_eq ht hd, slotAt?_eq ht' hd', Option.some_inj, hmore, List.toFinset_append]
  constructor
  · intro hcard x hx
    have heq := Finset.eq_of_subset_of_card_le Finset.subset_union_left (Nat.le_of_eq hcard)
    have hmem : x ∈ (declaredNames params ss).toFinset := by
      rw [heq]
      exact Finset.mem_union_right _ (List.mem_toFinset.mpr hx)
    exact List.mem_toFinset.mp hmem
  · intro hsub
    rw [Finset.union_eq_left.mpr fun x hx => ?_]
    exact List.mem_toFinset.mpr (hsub (List.mem_toFinset.mp hx))

end Resolve

open Resolve

/-- The variable that a use is resolved to: that of the innermost scope which declares the name, and
of its last declaration there. The slot is the number of different names before that. -/
inductive Binds : List (List String) → String → Address → Prop
  | here {before name after outer} (h : name ∉ after) :
    Binds ((before ++ name :: after) :: outer) name ⟨0, before.toFinset.card⟩
  | outward {names outer name address} (h : name ∉ names) (ho : Binds outer name address) :
    Binds (names :: outer) name ⟨address.distance + 1, address.slot⟩

section Binds

variable {scopes : List (List String)} {names : List String} {name : String} {address : Address}
  {Γ : List LocalScope}

/-- A name that occurs has a last occurrence. -/
theorem exists_last (h : name ∈ names) :
    ∃ before after, names = before ++ name :: after ∧ name ∉ after := by
  obtain ⟨after, before, hsplit, hlast⟩ := List.eq_append_cons_of_mem (List.mem_reverse.mpr h)
  refine ⟨before.reverse, after.reverse, ?_, by simpa using hlast⟩
  rw [← List.reverse_reverse names, hsplit]
  simp

/-- A lookup finds the number of the last declaration in the nearest scope that has the name. -/
theorem address?_eq_some_iff_binds (h : List.Forall₂ Numbers Γ scopes) :
    address? name Γ = some address ↔ Binds scopes name address := by
  induction h generalizing address with
  | nil => exact iff_of_false (by simp [address?]) nofun
  | @cons scope names Γ outer hhead htail ih =>
    by_cases hmem : name ∈ names
    · obtain ⟨before, after, hsplit, hlast⟩ := exists_last hmem
      obtain ⟨ready, hget⟩ := hhead.slot before name after hsplit hlast
      simp only [address?, hget, Option.some.injEq]
      constructor
      · rintro rfl
        subst hsplit
        exact .here hlast
      · intro hb
        cases hb with
        | @here before' _ after' _ hlast' =>
          obtain ⟨ready', hget'⟩ := hhead.slot before' name after' rfl hlast'
          have hbinding := Option.some.inj (hget.symm.trans hget')
          simp [(Binding.mk.inj hbinding).1]
        | outward hn _ => exact absurd hmem hn
    · have hget : scope.get? name = none := by
        simpa [NameTable.contains] using fun hc => hmem ((hhead.contains name).mp hc)
      simp only [address?, hget, Option.map_eq_some_iff]
      constructor
      · rintro ⟨a, ha, rfl⟩
        exact .outward hmem (ih.mp ha)
      · intro hb
        cases hb with
        | here => exact absurd (by simp) hmem
        | outward _ ho => exact ⟨_, ih.mpr ho, rfl⟩

end Binds

/-- The addresses that resolving a program records, whatever it finds at fault. -/
theorem mem_resolve_located_iff_binds {program : List Stmt} (ht : Stmt.TidyAll program)
    (u : Located) : u ∈ (resolve program).located ↔ ∃ p ∈ places program,
      p.node = .use u.id u.access u.name ∧ Binds p.around.scopes u.name.lexeme u.address := by
  rw [resolve_eq_places ht, List.mem_filterMap]
  refine exists_congr fun p => and_congr_right fun _ => ?_
  rw [Place.located?_eq_some_iff, address?_eq_some_iff_binds (numbers_tracks.opened p.around)]

end Lox
