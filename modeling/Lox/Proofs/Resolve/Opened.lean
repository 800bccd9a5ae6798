import Mathlib.Data.List.Forall2
import Mathlib.Data.List.Nodup
import Lox.Proofs.Resolve.Places
import Lox.Proofs.Resolve.Walk

/-! The tables of a walk at a place, against the names that are declared around it. -/
namespace Lox

namespace Resolve

variable {scope : LocalScope} {Γ : List LocalScope} {names : List String} {name : Token}
  {scopes : List (List String)} {around : Surroundings}

/-- A table has the names that are declared in a scope. While none is declared twice there, each has
the slot that its declaration counts. -/
structure Records (scope : LocalScope) (names : List String) : Prop where
  contains : ∀ name, scope.contains name = true ↔ name ∈ names
  size : names.Nodup → scope.size = names.length
  slot : names.Nodup → ∀ name binding, scope.get? name = some binding →
    binding.slot = names.idxOf name

theorem Records.empty : Records .empty [] := by
  refine ⟨?_, fun _ => rfl, ?_⟩ <;> simp [NameTable.contains]

theorem nodup_concat {name : String} :
    (names ++ [name]).Nodup ↔ names.Nodup ∧ name ∉ names := by
  rw [← List.concat_eq_append, List.nodup_concat, and_comm]

/-- A scope records one more name. -/
theorem Records.put (h : Records scope names) (name : String) (ready : Bool) :
    Records (scope.put name ⟨scope.size, ready⟩) (names ++ [name]) := by
  refine ⟨?_, ?_, ?_⟩
  · intro other
    rw [NameTable.contains_iff, NameTable.mem_names_put, ← NameTable.contains_iff, h.contains]
    simp
  · intro hd
    obtain ⟨hnames, hnew⟩ := nodup_concat.mp hd
    rw [NameTable.size_put, if_neg fun hc => hnew ((h.contains name).mp hc)]
    simp [h.size hnames]
  · intro hd other binding hb
    obtain ⟨hnames, hnew⟩ := nodup_concat.mp hd
    rw [NameTable.get?_put] at hb
    split at hb
    · next he =>
      subst he
      obtain rfl := Option.some.inj hb
      simp [List.idxOf_append_of_notMem hnew, h.size hnames]
    · have hmem : other ∈ names := by
        rw [← h.contains, NameTable.contains, hb]
        rfl
      rw [List.idxOf_append_of_mem hmem]
      exact h.slot hnames other binding hb

/-- The open scopes have the names that are declared around a place. -/
abbrev RecordsAll : List LocalScope → List (List String) → Prop := List.Forall₂ Records

/-- The names of the scopes after another is declared in the innermost. -/
def noted (name : Token) : List (List String) → List (List String)
  | [] => []
  | names :: outer => (names ++ [name.lexeme]) :: outer

/-- A relation between tables and names that is kept when a name is entered. -/
structure Tracks (R : LocalScope → List String → Prop) : Prop where
  empty : R .empty []
  put : ∀ {scope names}, R scope names → ∀ name ready,
    R (scope.put name ⟨scope.size, ready⟩) (names ++ [name])

theorem records_tracks : Tracks Records := ⟨Records.empty, Records.put⟩

section Tracks

variable {R : LocalScope → List String → Prop} (hR : Tracks R)

include hR

theorem Tracks.declared (name : Token) (h : List.Forall₂ R Γ scopes) :
    List.Forall₂ R (declared name Γ) (noted name scopes) := by
  cases h with
  | nil => exact .nil
  | cons hhead htail => exact .cons (hR.put hhead _ _) htail

theorem Tracks.entered (name : Token) (h : List.Forall₂ R Γ scopes) :
    List.Forall₂ R (entered name Γ) (noted name scopes) := by
  cases h with
  | nil => exact .nil
  | cons hhead htail => exact .cons (hR.put hhead _ _) htail

theorem Tracks.enteredAll (params : List Token) (outer : List LocalScope) :
    ∀ {scope : LocalScope} {names : List String}, R scope names →
      ∃ scope', enteredAll params (scope :: outer) = scope' :: outer ∧
        R scope' (names ++ params.map (·.lexeme)) := by
  induction params with
  | nil => exact fun {scope names} h => ⟨scope, rfl, by simpa using h⟩
  | cons param params ih =>
    intro scope names h
    simpa [Resolve.enteredAll, Resolve.entered] using ih (hR.put h param.lexeme true)

theorem Tracks.afterAll (ss : List Stmt) (outer : List LocalScope) :
    ∀ {scope : LocalScope} {names : List String}, R scope names →
      ∃ scope', afterAll (scope :: outer) ss = scope' :: outer ∧
        R scope' (names ++ (ss.filterMap Stmt.declaredName?).map (·.lexeme)) := by
  induction ss with
  | nil => exact fun {scope names} h => ⟨scope, rfl, by simpa using h⟩
  | cons s ss ih =>
    intro scope names h
    cases hs : s.declaredName? with
    | none =>
      have hafter : after (scope :: outer) s = scope :: outer := by
        cases s <;> simp_all [after, Stmt.declaredName?]
      simpa [Resolve.afterAll, hs, hafter] using ih h
    | some name =>
      have hafter : after (scope :: outer) s = Resolve.entered name (scope :: outer) := by
        cases s <;> simp_all [after, Stmt.declaredName?]
      simpa [Resolve.afterAll, hs, hafter, Resolve.entered] using
        ih (hR.put h name.lexeme true)

end Tracks

/-- The tables of the scopes that are open at a place. -/
def opened : Surroundings → List LocalScope
  | [] => []
  | .block before :: outer => afterAll (.empty :: opened outer) before
  | .body params before :: outer => afterAll (enteredAll params (.empty :: opened outer)) before
  | .loop :: outer => opened outer
  | .initial name :: outer => declared name (opened outer)
  | .function name :: outer => entered name (opened outer)

theorem scopes_own (name : Token) (outer : Surroundings) :
    Surroundings.scopes (.initial name :: outer) = noted name outer.scopes ∧
      Surroundings.scopes (.function name :: outer) = noted name outer.scopes := by
  cases h : outer.scopes <;> simp [Surroundings.scopes, noted, h]

/-- The scopes around a place hold the names around it, in order. -/
theorem Tracks.opened {R : LocalScope → List String → Prop} (hR : Tracks R) :
    ∀ around : Surroundings, List.Forall₂ R (opened around) around.scopes
  | [] => .nil
  | .block before :: outer => by
    obtain ⟨scope, hopened, hscope⟩ := hR.afterAll before (Resolve.opened outer) hR.empty
    rw [Resolve.opened, hopened]
    exact .cons hscope (hR.opened outer)
  | .body params before :: outer => by
    obtain ⟨inner, hparams, hinner⟩ := hR.enteredAll params (Resolve.opened outer) hR.empty
    obtain ⟨scope, hopened, hscope⟩ := hR.afterAll before (Resolve.opened outer) hinner
    rw [Resolve.opened, hparams, hopened]
    exact .cons (by simpa using hscope) (hR.opened outer)
  | .loop :: outer => hR.opened outer
  | .initial name :: outer => by
    rw [(scopes_own name outer).1]
    exact hR.declared name (hR.opened outer)
  | .function name :: outer => by
    rw [(scopes_own name outer).2]
    exact hR.entered name (hR.opened outer)

theorem opened_records : ∀ around : Surroundings, RecordsAll (opened around) around.scopes :=
  records_tracks.opened

/-- The innermost table has a name exactly if the innermost scope declares it. -/
theorem contains_head (h : RecordsAll (scope :: Γ) scopes) (name : String) :
    scope.contains name = (scopes.headD []).contains name := by
  cases h with
  | cons hhead _ =>
    rw [Bool.eq_iff_iff, hhead.contains]
    simp

section Ready

theorem ready_entered {other : Token} (h : Ready Γ name) : Ready (entered other Γ) name := by
  cases Γ with
  | nil => exact h
  | cons scope outer =>
    simp only [Ready, entered, List.head?_cons, Option.mem_some_iff, forall_eq'] at h ⊢
    intro binding hb
    rw [NameTable.get?_put] at hb
    split at hb
    · obtain rfl := Option.some.inj hb
      rfl
    · exact h binding hb

theorem ready_enteredAll (params : List Token) (h : Ready Γ name) :
    Ready (enteredAll params Γ) name := by
  induction params generalizing Γ with
  | nil => exact h
  | cons param params ih => exact ih (ready_entered h)

theorem ready_afterAll (ss : List Stmt) (h : Ready Γ name) : Ready (afterAll Γ ss) name := by
  induction ss generalizing Γ with
  | nil => exact h
  | cons s ss ih =>
    apply ih
    cases s with
    | var | function => exact ready_entered h
    | _ => exact h

theorem ready_empty : Ready (.empty :: Γ) name := by simp [Ready]

end Ready

/-- No initial value is around a place, or there is a function within it. -/
def Settled : Surroundings → Prop
  | [] | .body .. :: _ => True
  | .initial _ :: _ => False
  | _ :: outer => Settled outer

theorem Settled.initializes {name : String} :
    ∀ {around : Surroundings}, Settled around → around.initializes name = false
  | [], _ | .body .. :: _, _ => rfl
  | .block _ :: outer, h | .loop :: outer, h | .function _ :: outer, h =>
    @Settled.initializes name outer h

/-- Every name is ready where no initializer is being read. -/
theorem Settled.ready : ∀ {around : Surroundings}, Settled around → Ready (opened around) name
  | [], _ => by simp [Ready, opened]
  | .block before :: _, _ => ready_afterAll before ready_empty
  | .body params before :: _, _ => ready_afterAll before (ready_enteredAll params ready_empty)
  | .loop :: outer, h => @Settled.ready outer h
  | .function _ :: outer, h => ready_entered (@Settled.ready outer h)

/-- At a place exactly the names that are being initialized are not ready. -/
def Faithful (around : Surroundings) : Prop :=
  ∀ name : Token, Ready (opened around) name ↔ around.initializes name.lexeme = false

theorem Settled.faithful (h : Settled around) : Faithful around :=
  fun _ => iff_of_true h.ready h.initializes

/-- Within its own initializer, a variable alone is not ready. -/
theorem Settled.initial (h : Settled around) (own : Token) :
    Faithful (.initial own :: around) := by
  intro name
  have hready : Ready (opened around) name := h.ready
  have hrecords := opened_records around
  simp only [opened, Surroundings.initializes, h.initializes, Bool.or_false]
  generalize opened around = Γ at *
  generalize around.scopes = scopes at *
  cases hrecords with
  | nil => simp [Ready, declared]
  | @cons scope _ names _ _ _ =>
    simp only [Ready, declared, List.head?_cons, Option.mem_some_iff, forall_eq',
      NameTable.get?_put] at hready ⊢
    by_cases he : name.lexeme = own.lexeme
    · simp [he]
    · simpa [he, Ne.symm he] using hready

end Resolve

end Lox
