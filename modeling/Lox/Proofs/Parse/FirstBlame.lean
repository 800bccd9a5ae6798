import Lox.Proofs.Parse.Prefixes

/-! The first error that unwinds: there is one exactly if the tokens are no program of the relaxed
grammar, and then it is blamed on the first token that no program can have there. -/
namespace Lox

open Relaxed (programs)

namespace Parse

/-- Nothing unwinds past where it is caught. -/
theorem recovering_not_unwind {α : Type} {p : Parser α} {s : State} :
    Ends (recovering p) s (fun _ _ => True) fun i _ => i ≠ .unwind := by
  simp only [Ends, recovering]
  cases p s with
  | ok a t => trivial
  | error i t =>
    cases i with
    | unwind => trivial
    | outOfFuel => exact Interrupt.noConfusion

/-- Outside of blocks, declarations end with the tokens, as each of them catches what unwinds. -/
theorem declarations_end (fuel : Nat) : ∀ (done : Array Stmt) (s : State),
    Ends (declarations fuel false done) s (fun _ t => t.rest = []) fun i _ => i ≠ .unwind := by
  induction fuel with
  | zero => exact fun _ _ => nofun
  | succ fuel ih =>
    intro done s
    unfold declarations
    have hget : Ends (get : Parser State) s (fun r t => r = s ∧ t = s) fun i _ => i ≠ .unwind :=
      ⟨rfl, rfl⟩
    have hcheck : Ends (check .rightBrace) s (fun _ t => t = s) fun i _ => i ≠ .unwind := rfl
    have hany : Ends (declaration fuel) s (fun _ _ => True) fun i _ => i ≠ .unwind := by
      cases fuel with
      | zero => exact nofun
      | succ fuel => exact recovering_not_unwind
    refine Ends.bind hget ?_
    rintro _ _ ⟨rfl, rfl⟩
    refine Ends.bind hcheck ?_
    rintro b _ rfl
    split
    · next hstop =>
      exact Ends.pure (by simpa using hstop)
    · refine Ends.bind hany fun a t _ => ?_
      cases a with
      | some stmt => exact ih _ t
      | none => exact ih _ t

/-- The errors that complaints come to. -/
def located (finish : Token) (cs : List Complaint) : List SyntaxError :=
  cs.map fun c => ⟨c.fault, c.token.getD finish⟩

/-- The run by which a program is parsed. It has a result, and reads all tokens. -/
theorem parse_run (tokens : List Token) (finish : Token) (firstId : NodeId) : ∃ t,
    declarations (16 * (tokens.length + 1)) false #[] ⟨tokens, #[], firstId⟩ =
        .ok (Lox.parse tokens finish firstId).program t ∧
      (Lox.parse tokens finish firstId).errors = located finish t.complaints.toList ∧
      (Lox.parse tokens finish firstId).nextId = t.nextId ∧ t.rest = [] := by
  have hfuel := (sound (16 * (tokens.length + 1))).declarations false #[]
    ⟨tokens, #[], firstId⟩ (by simp only; omega)
  have hend := declarations_end (16 * (tokens.length + 1)) #[] ⟨tokens, #[], firstId⟩
  simp only [Reads, Ends] at hfuel hend
  cases hrun : declarations (16 * (tokens.length + 1)) false #[] ⟨tokens, #[], firstId⟩ with
  | ok a t =>
    simp only [hrun] at hend
    exact ⟨t, by simp [Lox.parse, hrun], by simp [Lox.parse, hrun, located],
      by simp [Lox.parse, hrun], hend⟩
  | error i t =>
    simp only [hrun] at hfuel hend
    exact absurd hfuel.1 hend

theorem find?_located_calm {calm : List Complaint} (h : Calm calm) (finish : Token) :
    (located finish calm).find? (·.fault.unwinds) = none := by
  simpa [located, Calm] using h

theorem find?_located {calm more : List Complaint} {c : Complaint} (h : Calm calm)
    (hc : c.fault.unwinds = true) (finish : Token) :
    (located finish (calm ++ c :: more)).find? (·.fault.unwinds) =
      some ⟨c.fault, c.token.getD finish⟩ := by
  have hcalm : (located finish calm).find? (·.fault.unwinds) = none := find?_located_calm h finish
  simp only [located] at hcalm
  simp [located, hcalm, hc]

/-- The first error that unwinds, as the body of a program decides it. -/
def Verdict (tokens : List Token) (finish : Token) (errors : List SyntaxError) : Prop :=
  errors.find? (·.fault.unwinds) = none ∧ tokens ∈ Relaxed.bodies ∨
  ∃ e ts rest, errors.find? (·.fault.unwinds) = some e ∧ tokens = ts ++ rest ∧
    e.token = rest.head?.getD finish ∧ (∃ w, ts ++ w ∈ Relaxed.bodies) ∧
    ∀ w, ts ++ w ∈ Relaxed.bodies → w.head? ≠ rest.head?

/-- The first complaint that unwinds says how far the tokens could be those of a program. -/
theorem Pinpoints.verdict {tokens : List Token} {new : List Complaint}
    (h : Pinpoints Relaxed.bodies tokens new) (finish : Token) :
    Verdict tokens finish (located finish new) := by
  obtain ⟨calm, c, more, ts, rest, rfl, hcalm, hc, hs, ht, hsome, hnone⟩ := h
  exact .inr ⟨_, ts, rest, find?_located hcalm hc finish, hs, by rw [ht], hsome, hnone⟩

/-- What is reported of any tokens is a verdict on them. -/
theorem verdict (tokens : List Token) (finish : Token) (firstId : NodeId) :
    Verdict tokens finish (Lox.parse tokens finish firstId).errors := by
  obtain ⟨t, hrun, herrors, -, hend⟩ := parse_run tokens finish firstId
  have htracks := (tracking (16 * (tokens.length + 1))).declarations false #[]
    ⟨tokens, #[], firstId⟩ 1 ⟨⟨[], Language.nil_mem_one⟩, fun w hw => by
      rw [Language.mem_one] at hw
      simp [hw, Stopped]⟩
  rw [mul_one] at htracks
  simp only [Tracks, Ends, hrun] at htracks
  rw [herrors]
  obtain ⟨new, hnew, hcase⟩ := htracks
  obtain rfl : new = t.complaints.toList := by simpa using hnew.symm
  rcases hcase with ⟨hcalm, ts, hs, hle, -⟩ | hb
  · refine .inl ⟨find?_located_calm hcalm finish, ?_⟩
    have hmem : ts ++ [] ∈ Relaxed.bodies := hle Language.nil_mem_one
    simp only [hend] at hs
    rwa [hs]
  · exact hb.verdict finish

end Parse

/-- Parsing reports an error that unwinds exactly if the tokens with their end are no program of the
relaxed grammar. The first such error is blamed on the first token that no program has there: the
tokens before it begin some program, and with it they begin none. -/
theorem parse_blames_first (tokens : List Token) (finish : Token) (firstId : NodeId)
    (htokens : ∀ t ∈ tokens, t.kind ≠ .eof) (hfinish : finish.kind = .eof) :
    let all := tokens ++ [finish]
    let errors := (parse tokens finish firstId).errors
    ((∃ e ∈ errors, e.fault.unwinds = true) ↔ all ∉ programs) ∧
      ∀ e, errors.find? (·.fault.unwinds) = some e → ∃ i, all[i]? = some e.token ∧
        (∃ more, all.take i ++ more ∈ programs) ∧ ∀ more, all.take (i + 1) ++ more ∉ programs := by
  intro all errors
  have hall : all ∈ programs ↔ tokens ∈ Relaxed.bodies := Relaxed.mem_programs_concat hfinish
  rcases Parse.verdict tokens finish firstId with ⟨hnone, hmem⟩ |
    ⟨e, ts, rest, hsome, hs, htoken, ⟨w, hw⟩, hno⟩
  · refine ⟨iff_of_false ?_ (not_not_intro (hall.mpr hmem)), fun e he => ?_⟩
    · rintro ⟨e, he, hu⟩
      exact absurd hu (by simpa using List.find?_eq_none.mp hnone e he)
    · exact absurd (hnone.symm.trans he) (by simp)
  · have hunwinds : e.fault.unwinds = true := by simpa using List.find?_some hsome
    refine ⟨iff_of_true ⟨e, List.mem_of_find?_eq_some hsome, hunwinds⟩ ?_, ?_⟩
    · rw [hall, hs]
      exact fun hmem => hno rest hmem rfl
    · intro e' he'
      obtain rfl := Option.some.inj (hsome.symm.trans he')
      have hsplit : all = ts ++ e.token :: (rest ++ [finish]).tail := by
        simp only [all, hs, htoken]
        cases rest <;> simp
      refine ⟨ts.length, ?_, ⟨w ++ [finish], ?_⟩, fun more hmore => ?_⟩
      · simp [hsplit]
      · rw [hsplit, List.take_left, ← List.append_assoc]
        exact (Relaxed.mem_programs_concat hfinish).mpr hw
      · have htake : all.take (ts.length + 1) = ts ++ [e.token] := by
          simp [hsplit, List.take_append]
        rw [htake, List.append_assoc] at hmore
        cases hrest : rest with
        | nil =>
          rw [htoken, hrest] at hmore
          exact hno [] (by simpa using Relaxed.mem_bodies_of_end hfinish hmore) (by simp [hrest])
        | cons t rest' =>
          rw [htoken, hrest] at hmore
          have ht : t.kind ≠ .eof := htokens t (by simp [hs, hrest])
          obtain ⟨us, hus⟩ := Relaxed.exists_body ht hmore
          exact hno (t :: us) hus (by simp [hrest])

theorem parse_blames_first_openGrouping :
    let tokens : List Token := [⟨.leftParen, "(", .nil, 1⟩, ⟨.kwNil, "nil", .nil, 1⟩,
      ⟨.semicolon, ";", .nil, 1⟩]
    let all := tokens ++ [.endOfInput 1]
    all ∉ programs ∧ (∃ more, all.take 2 ++ more ∈ programs) ∧
      ∀ more, all.take 3 ++ more ∉ programs := by
  intro tokens all
  have herrors : (parse tokens (.endOfInput 1) 0).errors =
      [⟨.expected .groupClose, ⟨.semicolon, ";", .nil, 1⟩⟩] := by
    rfl
  obtain ⟨hiff, hfirst⟩ := parse_blames_first tokens (.endOfInput 1) 0 (by simp [tokens]) rfl
  refine ⟨hiff.mp ⟨_, herrors ▸ List.mem_singleton_self _, rfl⟩, ?_⟩
  obtain ⟨i, hi, hsome, hnone⟩ := hfirst _ (by rw [herrors]; rfl)
  obtain rfl : i = 2 := by
    match i, hi with
    | 2, _ => rfl
    | 0, hi | 1, hi | 3, hi => simp [tokens, Token.endOfInput] at hi
    | i + 4, hi => simp [tokens] at hi
  exact ⟨hsome, hnone⟩

end Lox
