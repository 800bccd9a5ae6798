import Lox.Proofs.Parse.Abreast
import Lox.Proofs.Parse.Soundness

/-! The identities that a program is parsed with do not matter: the same is wrong with it, and it is
the same program apart from them. -/
namespace Lox.Parse

/-- Two runs on the same tokens. -/
def Setting.same : Setting where
  before := Eq
  behind := Eq
  minor _ := True
  final _ := True
  whole := True
  head h := h ▸ rfl
  tail h _ := (List.cons.inj h).2
  semicolon h _ := (List.cons.inj h).2
  skip h := h ▸ rfl
  minor_here _ _ := trivial
  minor_at _ := trivial
  final_here _ := trivial
  whole_of_nesting _ _ := trivial
  before_of_behind _ h := h
  behind_of_before _ h := h
  minor_of_final _ _ := trivial

end Lox.Parse

namespace Lox

open Parse (SameStmts)

/-- Where the identities begin makes no difference to errors and trees but in the identities. -/
theorem parse_renumbered (tokens : List Token) (finish : Token) (m n : NodeId) :
    (parse tokens finish m).errors = (parse tokens finish n).errors ∧
      SameStmts (parse tokens finish m).program (parse tokens finish n).program := by
  let fuel := 16 * (tokens.length + 1)
  have hread (id : NodeId) := (Parse.sound fuel).declarations false #[] ⟨tokens, #[], id⟩
    (by simp only [fuel]; omega)
  have halike := (Parse.abreast .same fuel fuel).declarations trivial false #[] #[] rfl
    ⟨tokens, #[], m⟩ ⟨tokens, #[], n⟩ rfl
  have hm := hread m
  have hn := hread n
  simp only [Parse.Reads, Ends] at hm hn
  unfold parse
  simp only
  generalize Parse.declarations fuel false #[] ⟨tokens, #[], m⟩ = r,
    Parse.declarations fuel false #[] ⟨tokens, #[], n⟩ = r' at halike hm hn ⊢
  cases halike with
  | ok new hs ht _ _ hsame => exact ⟨by simp [hs, ht], hsame⟩
  | unwind new last hs ht => exact ⟨by simp [hs, ht], rfl⟩
  | left => exact absurd hm.1 (by simp)
  | right => exact absurd hn.1 (by simp)

end Lox
