import Lox.Proofs.Parse.Junk
import Lox.Proofs.Template

/-! Programs with numbered slots among their tokens, and what may be put in the slots. -/
namespace Lox

/-- A token of a program, or a place for other tokens. Slots of one number take the same. -/
inductive Part where
  | token (t : Token)
  | slot (i : Nat)

namespace Part

/-- The tokens of a program with others in its slots. -/
def tokens (F : Nat → List Token) : List Part → List Token
  | [] => []
  | token t :: ps => t :: tokens F ps
  | slot i :: ps => F i ++ tokens F ps

/-- The slots of a program in the order of reading. -/
def slots : List Part → List Nat
  | [] => []
  | token _ :: ps => slots ps
  | slot i :: ps => i :: slots ps

variable {F : Nat → List Token} {t : Token} {i : Nat} {ps qs : List Part} {is : List Nat}

@[simp] theorem tokens_nil : tokens F [] = [] := rfl
@[simp] theorem tokens_token : tokens F (token t :: ps) = t :: tokens F ps := rfl
@[simp] theorem tokens_slot : tokens F (slot i :: ps) = F i ++ tokens F ps := rfl
@[simp] theorem slots_nil : slots [] = [] := rfl
@[simp] theorem slots_token : slots (token t :: ps) = slots ps := rfl
@[simp] theorem slots_slot : slots (slot i :: ps) = i :: slots ps := rfl

@[simp] theorem tokens_append : tokens F (ps ++ qs) = tokens F ps ++ tokens F qs := by
  induction ps with
  | nil => rfl
  | cons p ps ih => cases p <;> simp [ih]

@[simp] theorem slots_append : slots (ps ++ qs) = slots ps ++ slots qs := by
  induction ps with
  | nil => rfl
  | cons p ps ih => cases p <;> simp [ih]

@[simp] theorem tokens_slots : tokens F (is.map slot) = is.flatMap F := by
  induction is with
  | nil => rfl
  | cons i is ih => simp [ih]

@[simp] theorem slots_slots : slots (is.map slot) = is := by
  induction is with
  | nil => rfl
  | cons i is ih => simp [ih]

@[simp] theorem tokens_map (ts : List Token) : tokens F (ts.map token) = ts := by
  induction ts with
  | nil => rfl
  | cons t ts ih => simp [ih]

@[simp] theorem slots_map (ts : List Token) : slots (ts.map token) = [] := by
  induction ts with
  | nil => rfl
  | cons t ts ih => simp [ih]

end Part

/-- Tokens that may be put between declarations: those of a program, or junk. -/
structure Filling where
  tokens : List Token
  fits : (∃ program, Grammar.Program true tokens program) ∨ ∃ j : Junk, tokens = j.all

namespace Filling

open Parse

variable (f : Filling) {us : List Token} {ds : List Complaint} {qs : List Stmt}

/-- What the tokens come to by themselves. -/
def statements : List Stmt := (alone f.tokens).1

/-- What is wrong with the tokens by themselves. -/
def complaints : List Complaint := (alone f.tokens).2

/-- Before declarations, tokens that may stand there add what they come to by themselves. -/
theorem complete (hus : us = [] ∨ BeginsDeclaration us) (h : Complete .declarations us ds qs) :
    (f.tokens ++ us = [] ∨ BeginsDeclaration (f.tokens ++ us)) ∧
      Complete .declarations (f.tokens ++ us) (f.complaints ++ ds) (f.statements ++ qs) := by
  obtain ⟨ts, ⟨program, hp⟩ | ⟨j, rfl⟩⟩ := f
  · obtain ⟨hb, hc⟩ := complete_program hus h hp
    obtain ⟨heq, hnone⟩ := (Parse.complete hp).alone
    refine ⟨hb, ?_⟩
    simp only [complaints, statements, hnone]
    exact hc.of_bareAll (by simp [stmt_bareAll_append, heq])
  · exact ⟨Or.inr ((begins_junk j).append us), complete_junk h⟩

/-- The same before any number of them. -/
theorem complete_slots (F : Nat → Filling) (is : List Nat) (hus : us = [] ∨ BeginsDeclaration us)
    (h : Complete .declarations us ds qs) :
    let ts := is.flatMap fun i => (F i).tokens
    (ts ++ us = [] ∨ BeginsDeclaration (ts ++ us)) ∧
      Complete .declarations (ts ++ us) ((is.flatMap fun i => (F i).complaints) ++ ds)
        ((is.flatMap fun i => (F i).statements) ++ qs) := by
  induction is with
  | nil => exact ⟨hus, h⟩
  | cons i is ih =>
    simp only [List.flatMap_cons, List.append_assoc]
    exact (F i).complete ih.1 ih.2

end Filling

end Lox
