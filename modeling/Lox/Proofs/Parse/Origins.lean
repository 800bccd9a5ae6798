import Lox.Proofs.Parse.Abreast
import Lox.Proofs.Parse.Soundness

/-! Errors of the parser are blamed on tokens that it was given. -/
namespace Lox.Parse

variable {P : Token → Prop}

theorem skipStatement_suffix : ∀ ts : List Token, skipStatement ts <:+ ts
  | [] => List.suffix_refl []
  | [_] => List.nil_suffix
  | t :: next :: rest => by
    rw [skipStatement]
    split
    · exact List.suffix_cons ..
    · exact (skipStatement_suffix (next :: rest)).trans (List.suffix_cons ..)

/-- Two runs on the same tokens, all of which satisfy `P`. -/
def Setting.given (P : Token → Prop) : Setting where
  before as bs := as = bs ∧ ∀ t ∈ as, P t
  behind as bs := as = bs ∧ ∀ t ∈ as, P t
  minor c := ∀ t ∈ c.token, P t
  final c := ∀ t ∈ c.token, P t
  whole := True
  head h := h.1 ▸ rfl
  tail := by
    rintro t as bs ⟨heq, hP⟩ -
    exact ⟨(List.cons.inj heq).2, fun u hu => hP u (List.mem_cons_of_mem t hu)⟩
  semicolon := by
    rintro t as bs ⟨heq, hP⟩ -
    exact ⟨(List.cons.inj heq).2, fun u hu => hP u (List.mem_cons_of_mem t hu)⟩
  skip := by
    rintro as bs ⟨rfl, hP⟩
    exact ⟨rfl, fun t ht => hP t ((skipStatement_suffix as).subset ht)⟩
  minor_here h _ t ht := h.2 t (List.mem_of_mem_head? ht)
  minor_at := by
    rintro t as bs ⟨-, hP⟩ _ ⟨⟩
    exact hP t (List.mem_cons_self ..)
  final_here h t ht := h.2 t (List.mem_of_mem_head? ht)
  whole_of_nesting _ _ := trivial
  before_of_behind _ h := h
  behind_of_before _ h := h
  minor_of_final _ h := h

end Lox.Parse

namespace Lox

/-- Errors are blamed on tokens, or on the one that ends them. -/
theorem parse_blames {P : Token → Prop} {tokens : List Token} {finish : Token}
    (htokens : ∀ t ∈ tokens, P t) (hfinish : P finish) (firstId : NodeId) :
    ∀ e ∈ (parse tokens finish firstId).errors, P e.token := by
  let fuel := 16 * (tokens.length + 1)
  have hread := (Parse.sound fuel).declarations false #[] ⟨tokens, #[], firstId⟩
    (by simp only [fuel]; omega)
  have halike := (Parse.abreast (.given P) fuel fuel).declarations trivial false #[] #[] rfl
    ⟨tokens, #[], firstId⟩ ⟨tokens, #[], firstId⟩ ⟨rfl, htokens⟩
  simp only [Parse.Reads, Ends] at hread
  have hlocated : ∀ cs : List Parse.Complaint, (∀ c ∈ cs, ∀ t ∈ c.token, P t) →
      ∀ e ∈ cs.map fun c => (⟨c.fault, c.token.getD finish⟩ : SyntaxError), P e.token := by
    intro cs hcs e he
    obtain ⟨c, hc, rfl⟩ := List.mem_map.mp he
    cases htoken : c.token with
    | none => simpa [htoken] using hfinish
    | some t => simpa [htoken] using hcs c hc t htoken
  cases hrun : Parse.declarations fuel false #[] ⟨tokens, #[], firstId⟩ with
  | ok program s =>
    rw [hrun] at halike
    cases halike with
    | ok new hs ht hnew =>
      simp only [parse, fuel, hrun]
      exact hlocated _ fun c hc => hnew c (by simpa [hs] using hc)
  | error i s =>
    rw [hrun] at halike hread
    simp only [hread.1] at halike hrun
    cases halike with
    | unwind new last hs ht hnew hlast =>
      simp only [parse, fuel, hrun]
      refine hlocated _ fun c hc => ?_
      have hmem : c ∈ new ∨ c = last := by simpa [hs] using hc
      rcases hmem with hmem | rfl
      · exact hnew c hmem
      · exact hlast

end Lox
