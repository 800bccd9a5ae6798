import Lox.Proofs.Grammar.Recast
import Lox.Proofs.Parse.Completeness

/-! Programs that are parsed one behind the other. Tokens that are parsed as programs by themselves,
and before others. -/
namespace Lox

open Grammar (Program)

variable {tokens more : List Token} {finish finish' : Token} {firstId : NodeId}

/-- Behind a program, another one is parsed as it is by itself, wherever its tokens stand. -/
theorem parse_join (g : Int → Int) {m n : NodeId} (h : (parse tokens finish m).errors = [])
    (h' : (parse more finish' n).errors = []) (last : Token) (firstId : NodeId) :
    let joint := parse (tokens ++ more.map (·.reline g)) last firstId
    joint.errors = [] ∧ Stmt.bareAll joint.program =
      Stmt.bareAll (parse tokens finish m).program ++
        Stmt.bareAll (Stmt.recastAll g (parse more finish' n).program) := by
  have hmore : Program true (more.map (·.reline g))
      (Stmt.recastAll g (parse more finish' n).program) := (program_of_parse h').recast
  rw [← stmt_bareAll_append]
  exact parse_of_program (Grammar.program_append hmore (program_of_parse h))

namespace Parse

variable {ts us : List Token} {cs ds : List Complaint} {ps qs : List Stmt}

/-- What tokens come to where there are no others. -/
def alone (ts : List Token) : List Stmt × List Complaint :=
  match declarations (16 * (ts.length + 1)) false #[] ⟨ts, #[], 0⟩ with
  | .ok program s => (program, s.complaints.toList)
  | .error _ s => ([], s.complaints.toList)

/-- The end of the input is only what complaints without a token are put on. -/
theorem parse_eq_alone (ts : List Token) (finish : Token) :
    (Lox.parse ts finish 0).program = (alone ts).1 ∧
      (Lox.parse ts finish 0).errors =
        (alone ts).2.map fun c => ⟨c.fault, c.token.getD finish⟩ := by
  unfold Lox.parse alone
  split <;> simp [*]

/-- The identities in a tree are no matter for what is owed to the grammar. -/
theorem Complete.of_bareAll (h : Complete .declarations ts cs ps)
    (heq : Stmt.bareAll ps = Stmt.bareAll qs) : Complete .declarations ts cs qs := by
  intro fuel rest inBlock done hr hf
  refine (h fuel rest inBlock done hr hf).mono ?_
  rintro _ ⟨more, rfl, hmore⟩
  exact ⟨more, rfl, hmore.trans heq⟩

/-- Declarations that are complete are read in full by themselves. -/
theorem Complete.alone (h : Complete .declarations ts cs ps) :
    Stmt.bareAll (alone ts).1 = Stmt.bareAll ps ∧ (alone ts).2 = cs := by
  obtain ⟨a, t, hrun, -, hc, new, rfl, hnew⟩ :=
    h (16 * (ts.length + 1)) [] false #[] (Or.inl rfl) (by simp; omega) ⟨ts, #[], 0⟩ (by simp)
  simpa [Parse.alone, hrun, hnew] using hc

/-- A program before declarations adds its own. -/
theorem complete_program (hus : us = [] ∨ BeginsDeclaration us)
    (h : Complete .declarations us ds qs) :
    ∀ {ts : List Token} {ps : List Stmt}, Program true ts ps →
      (ts ++ us = [] ∨ BeginsDeclaration (ts ++ us)) ∧
        Complete .declarations (ts ++ us) ds (ps ++ qs)
  | _, _, .nothing => ⟨hus, h⟩
  | _, _, .next hs hss => by
    obtain ⟨hb, hrest⟩ := complete_program hus h hss
    have hfirst := begins hs
    rw [List.append_assoc]
    exact ⟨Or.inr (BeginsDeclaration.append _ hfirst),
      complete_next (complete hs) hfirst hrest hb⟩

end Parse

end Lox
