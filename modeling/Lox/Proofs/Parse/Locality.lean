import Lox.Proofs.Parse.Filled

/-! Syntax errors stay local. Junk between declarations adds at most one statement there and
complaints about itself, and the rest of the program is read as if it were not there. -/
namespace Lox

open Grammar (Derives Program)

/-- A place between two runs of tokens that is one between declarations: of the program, or of what
stands in a pair of braces. -/
inductive Boundary : List Token → List Token → Prop
  | outer {us vs p q} (hu : Program true us p) (hv : Program true vs q) : Boundary us vs
  | inner {pre l us vs r post p q} (hl : l.kind = .leftBrace) (hu : Program true us p)
      (hv : Program true vs q) (hr : r.kind = .rightBrace) :
      Boundary (pre ++ l :: us) (vs ++ r :: post)

namespace Parse

variable {α : Type} {x : Parser α} {ts us xs ys : List Token} {cs ds : List Complaint}
  {r r' : α → Prop} {s t : Stmt} {p q : List Stmt}

/-- A parser takes as many tokens as it takes. -/
theorem Takes.unique (hx : Takes x ts xs cs r) (hy : Takes x us ys ds r')
    (h : ts ++ xs = us ++ ys) : ts = us := by
  obtain ⟨a, s, hs, hrest, -⟩ := hx ⟨ts ++ xs, #[], 0⟩ rfl
  obtain ⟨b, t, ht, hrest', -⟩ := hy ⟨ts ++ xs, #[], 0⟩ h
  obtain ⟨-, rfl⟩ : a = b ∧ s = t := by simpa [hs] using ht
  rw [← hrest, ← hrest'] at h
  exact List.append_cancel_right h

/-- Of the same tokens only one run is a declaration, unless an `else` follows. -/
theorem declaration_unique (hs : Derives true .declaration ts s)
    (ht : Derives true .declaration us t) (h : ts ++ xs = us ++ ys)
    (hx : ∀ token ∈ xs.head?, token.kind ≠ .kwElse)
    (hy : ∀ token ∈ ys.head?, token.kind ≠ .kwElse) : ts = us := by
  have hlen := congrArg List.length h
  exact (complete hs (16 * (ts ++ xs).length + 11) xs hx (by omega)).unique
    (complete ht (16 * (ts ++ xs).length + 11) ys hy (by omega)) h

/-- Of the same tokens only one run is a program up to a closing brace. -/
theorem program_unique {brace brace' : Token} (hp : Program true ts p) (hq : Program true us q)
    (h : ts ++ brace :: xs = us ++ brace' :: ys) (hb : brace.kind = .rightBrace)
    (hb' : brace'.kind = .rightBrace) : ts = us := by
  have hlen := congrArg List.length h
  exact (complete hp (16 * (ts ++ brace :: xs).length + 12) _ true #[]
    (Or.inr ⟨rfl, brace, rfl, hb⟩) (by omega)).unique
    (complete hq (16 * (ts ++ brace :: xs).length + 12) _ true #[]
      (Or.inr ⟨rfl, brace', rfl, hb'⟩) (by omega)) h

theorem program_not_else (h : Program true ts p) : ∀ token ∈ ts.head?, token.kind ≠ .kwElse := by
  rcases begins h with rfl | ⟨t, us, rfl, hk, -⟩
  · simp
  · rintro _ ⟨⟩
    exact hk

end Parse

/-- A token of two runs, one behind the other, is in the first or in the second. -/
theorem split_of_append_eq {as bs pre post : List Token} {l : Token}
    (h : as ++ bs = pre ++ l :: post) :
    (∃ cs, as = pre ++ l :: cs) ∨ ∃ cs, pre = as ++ cs ∧ bs = cs ++ l :: post := by
  rcases List.append_eq_append_iff.mp h with ⟨cs, rfl, rfl⟩ | ⟨cs, rfl, hcs⟩
  · exact Or.inr ⟨cs, rfl, rfl⟩
  · cases cs with
    | nil => exact Or.inr ⟨[], by simp, by simpa using hcs.symm⟩
    | cons c cs =>
      obtain ⟨rfl, -⟩ := List.cons.inj hcs
      exact Or.inl ⟨cs, rfl⟩

namespace Spacing

variable {between : Bool} {ps : List (Option Token)} {us vs pre post : List Token}
  {p q : List Stmt} {l : Token}

/-- The declarations between junk make a program if the junk is taken away. -/
theorem program (h : Spacing between ps) :
    between = true → ∃ q, Program true ps.reduceOption q := by
  induction h with
  | last => exact fun _ => ⟨[], .nothing⟩
  | next hd _ _ _ ih =>
    intro
    obtain ⟨q, hq⟩ := ih rfl
    exact ⟨_, by simpa [List.reduceOption_append] using Derives.next hd hq⟩
  | _ => nofun

/-- Wherever spaced declarations fall into two programs, there is a place between them. -/
theorem seat (h : Spacing between ps) : between = true → ps.reduceOption = us ++ vs →
    Program true us p → Program true vs q →
    ∃ front back, ps = front ++ none :: back ∧ front.reduceOption = us := by
  induction h generalizing us p with
  | last =>
    rintro - hps - -
    obtain ⟨rfl, -⟩ := List.append_eq_nil_iff.mp hps.symm
    exact ⟨[], [], rfl, rfl⟩
  | @next ds cs s hd hl hc _ ih =>
    rintro - hps hu hv
    cases hu with
    | nothing => exact ⟨[], ds ++ cs, rfl, rfl⟩
    | @next xs us _ _ hx hu =>
      obtain ⟨q, hq⟩ := hc.program rfl
      simp only [List.reduceOption_cons_of_none, List.reduceOption_append, List.append_assoc] at hps
      obtain rfl := Parse.declaration_unique hd hx hps (Parse.program_not_else hq)
        (Parse.program_not_else (Grammar.program_append hv hu))
      obtain ⟨front, back, rfl, rfl⟩ := ih rfl (List.append_cancel_left hps) hu hv
      exact ⟨none :: (ds ++ front), back, by simp, by simp [List.reduceOption_append]⟩
  | _ => nofun

/-- Every opening brace has declarations behind it, up to a closing one. -/
theorem group (h : Spacing between ps) (hl : l.kind = .leftBrace) :
    ps.reduceOption = pre ++ l :: post → ∃ front ds r back,
      ps = front ++ some l :: (ds ++ some r :: back) ∧ front.reduceOption = pre ∧
        Spacing true ds ∧ r.kind = .rightBrace := by
  induction h generalizing pre post with
  | last | nil => simp
  | @next ds cs s hd _ _ ih ih' =>
    intro hps
    simp only [List.reduceOption_cons_of_none, List.reduceOption_append] at hps
    rcases split_of_append_eq hps with ⟨xs, hds⟩ | ⟨xs, rfl, hcs⟩
    · obtain ⟨front, es, r, back, rfl, hpre, h⟩ := ih hds
      exact ⟨none :: front, es, r, back ++ cs, by simp, by simpa using hpre, h⟩
    · obtain ⟨front, es, r, back, rfl, rfl, h⟩ := ih' hcs
      exact ⟨none :: (ds ++ front), es, r, back, by simp, by simp [List.reduceOption_append], h⟩
  | @token t ps ht _ ih =>
    intro hps
    simp only [List.reduceOption_cons_of_some] at hps
    cases pre with
    | nil =>
      obtain ⟨rfl, -⟩ := List.cons.inj hps
      exact absurd hl ht
    | cons u pre =>
      obtain ⟨rfl, htail⟩ := List.cons.inj hps
      obtain ⟨front, es, r, back, rfl, rfl, h⟩ := ih htail
      exact ⟨some t :: front, es, r, back, rfl, rfl, h⟩
  | @braces l' ds r' ps hl' hd hr' _ ih ih' =>
    intro hps
    simp only [List.reduceOption_cons_of_some, List.reduceOption_append] at hps
    cases pre with
    | nil =>
      obtain ⟨rfl, -⟩ := List.cons.inj hps
      exact ⟨[], ds, r', ps, rfl, rfl, hd, hr'⟩
    | cons u pre =>
      obtain ⟨rfl, htail⟩ := List.cons.inj hps
      rcases split_of_append_eq htail with ⟨xs, hds⟩ | ⟨xs, rfl, hxs⟩
      · obtain ⟨front, es, r, back, rfl, rfl, h⟩ := ih hds
        exact ⟨some l' :: front, es, r, back ++ some r' :: ps, by simp, rfl, h⟩
      · cases xs with
        | nil =>
          obtain ⟨rfl, -⟩ := List.cons.inj hxs
          simp [hl] at hr'
        | cons v xs =>
          obtain ⟨rfl, hback⟩ := List.cons.inj hxs
          obtain ⟨front, es, r, back, rfl, rfl, h⟩ := ih' hback
          exact ⟨some l' :: (ds ++ some r' :: front), es, r, back, by simp,
            by simp [List.reduceOption_append], h⟩

/-- There is a place at every boundary between declarations. -/
theorem seat_of_boundary (h : Spacing true ps) (hps : ps.reduceOption = us ++ vs)
    (hb : Boundary us vs) : ∃ front back, ps = front ++ none :: back ∧ front.reduceOption = us := by
  cases hb with
  | outer hu hv => exact h.seat rfl hps hu hv
  | @inner pre l us vs r post _ _ hl hu hv hr =>
    have hall : ps.reduceOption = pre ++ l :: (us ++ vs ++ r :: post) := by simpa using hps
    obtain ⟨front, ds, r', back, rfl, rfl, hd, hr'⟩ := h.group hl hall
    obtain ⟨q, hq⟩ := hd.program rfl
    simp only [List.reduceOption_append, List.reduceOption_cons_of_some, List.append_assoc,
      List.cons_append, List.append_cancel_left_eq, List.cons.injEq, true_and] at hps
    have hds : ds.reduceOption = us ++ vs := Parse.program_unique hq
      (Grammar.program_append hv hu) (by simpa using hps) hr' hr
    obtain ⟨front', back', rfl, rfl⟩ := hd.seat rfl hds hu hv
    exact ⟨front ++ some l :: front', back' ++ some r' :: back, by simp,
      by simp [List.reduceOption_append]⟩

end Spacing

/-- The slots that a list of parts begins with. -/
theorem exists_slots (parts : List Part) : ∃ (is : List Nat) (rest : List Part),
    parts = is.map .slot ++ rest ∧ ∀ i more, rest ≠ .slot i :: more := by
  induction parts with
  | nil => exact ⟨[], [], rfl, nofun⟩
  | cons part parts ih =>
    cases part with
    | token t => exact ⟨[], .token t :: parts, rfl, nofun⟩
    | slot i =>
      obtain ⟨is, rest, rfl, hrest⟩ := ih
      exact ⟨i :: is, rest, rfl, hrest⟩

/-- Parts with the tokens of a spacing fill it if there is a place wherever they have a slot. -/
theorem fills_of_seats {ps : List (Option Token)} {parts : List Part}
    (htokens : Part.tokens (fun _ => []) parts = ps.reduceOption)
    (hslots : ∀ front i back, parts = front ++ .slot i :: back → ∃ front' back',
      ps = front' ++ none :: back' ∧
        front'.reduceOption = Part.tokens (fun _ => []) front) : Fills ps parts := by
  induction ps generalizing parts with
  | nil =>
    cases parts with
    | nil => rfl
    | cons part parts =>
      cases part with
      | token t => simp at htokens
      | slot i =>
        obtain ⟨_, _, hnil, -⟩ := hslots [] i parts rfl
        simp at hnil
  | cons p ps ih =>
    cases p with
    | some t =>
      cases parts with
      | nil => simp at htokens
      | cons part parts =>
        cases part with
        | token u =>
          obtain ⟨rfl, htail⟩ : u = t ∧ _ := by simpa using htokens
          refine ⟨parts, rfl, ih htail ?_⟩
          rintro front i back rfl
          obtain ⟨front', back', hps, hfront⟩ := hslots (.token u :: front) i back rfl
          cases front' with
          | nil => simp at hps
          | cons p' front' =>
            obtain ⟨rfl, rfl⟩ := List.cons.inj hps
            exact ⟨front', back', rfl, by simpa using hfront⟩
        | slot i =>
          obtain ⟨front', back', hps, hfront⟩ := hslots [] i parts rfl
          cases front' with
          | nil => simp at hps
          | cons p' front' =>
            obtain ⟨rfl, -⟩ := List.cons.inj hps
            simp at hfront
    | none =>
      obtain ⟨is, rest, rfl, hrest⟩ := exists_slots parts
      have hnone : is.flatMap (fun _ => ([] : List Token)) = [] := by simp
      refine ⟨is, rest, rfl, ih (by simpa [hnone] using htokens) ?_⟩
      rintro front i back rfl
      obtain ⟨front', back', hps, hfront⟩ := hslots (is.map .slot ++ front) i back (by simp)
      cases front with
      | nil => exact absurd rfl (hrest i back)
      | cons part front =>
        cases part with
        | slot i' => exact absurd rfl (hrest i' (front ++ .slot i :: back))
        | token u =>
          cases front' with
          | nil => simp at hfront
          | cons p' front' =>
            obtain ⟨rfl, rfl⟩ := List.cons.inj hps
            exact ⟨front', back', rfl, by simpa [hnone] using hfront⟩

/-- Junk by itself: at most one statement and at most one error that makes the parser unwind, and
every error is blamed on a token of the junk. -/
theorem parse_junk (j : Junk) (finish : Token) :
    let alone := parse j.all finish 0
    alone.program.length ≤ 1 ∧ alone.errors.countP (·.fault.unwinds) ≤ 1 ∧
      ∀ e ∈ alone.errors, e.token ∈ j.all := by
  obtain ⟨hprogram, herrors⟩ := Parse.parse_eq_alone j.all finish
  obtain ⟨hlength, htoken, hunwinding⟩ := Parse.alone_blames j
  refine ⟨hprogram ▸ hlength, ?_, ?_⟩
  · simpa [herrors, List.countP_map, Function.comp_def] using hunwinding
  · simp only [herrors, List.mem_map]
    rintro _ ⟨c, hc, rfl⟩
    obtain ⟨t, ht, heq⟩ := htoken c hc
    simpa [heq] using ht

/-- What is put between the declarations of a program that is parsed without an error, be it junk or
declarations, adds to it what it comes to by itself: its statements stand where it stands, its
errors are those of the whole, and all else is as it was. The template is one for all fillings, and
declarations show where its marks are. Junk comes to at most one statement, and at most one error
that makes the parser unwind; every error is blamed on a token of the junk. -/
theorem parse_between {parts : List Part} {finish : Token} {firstId : NodeId}
    (h : (parse (Part.tokens (fun _ => []) parts) finish firstId).errors = [])
    (hslots : ∀ front i back, parts = front ++ .slot i :: back →
      Boundary (Part.tokens (fun _ => []) front) (Part.tokens (fun _ => []) back)) :
    ∃ template : List Stmt,
      Stmt.fillAll (fun _ => []) template =
        (parse (Part.tokens (fun _ => []) parts) finish firstId).program ∧
      ∀ F : Nat → Filling,
        let whole := parse (Part.tokens (fun i => (F i).tokens) parts) finish firstId
        let alone := fun i => parse (F i).tokens finish 0
        Stmt.bareAll whole.program =
            Stmt.bareAll (Stmt.fillAll (fun i => (alone i).program) template) ∧
          whole.errors = (Part.slots parts).flatMap (fun i => (alone i).errors) ∧
          ∀ i (j : Junk), (F i).tokens = j.all →
            (alone i).program.length ≤ 1 ∧
              (alone i).errors.countP (·.fault.unwinds) ≤ 1 ∧
              ∀ e ∈ (alone i).errors, e.token ∈ j.all := by
  obtain ⟨ps, hps, hl, hgrown⟩ := Parse.fillable (program_of_parse h)
  have hfills : Fills ps parts := by
    refine fills_of_seats hps.symm ?_
    rintro front i back rfl
    exact hl.seat_of_boundary (by simpa using hps) (hslots front i back rfl)
  obtain ⟨⟨template, hnothing, hread⟩, -⟩ := hgrown parts hfills
  refine ⟨template, hnothing, fun F => ?_⟩
  obtain ⟨hprogram, herrors⟩ := (hread F).parse finish firstId
  have halone (i : Nat) := Parse.parse_eq_alone (F i).tokens finish
  refine ⟨?_, ?_, fun i j hj => ?_⟩
  · simpa [halone, Filling.statements] using hprogram
  · simp only [herrors, List.map_flatMap, Filling.complaints, halone]
  · simpa only [hj] using parse_junk j finish

/-- A stray parenthesis in an empty block. -/
theorem parse_between_strayParenthesis :
    let l : Token := ⟨.leftBrace, "\x7b", .nil, 1⟩
    let r : Token := ⟨.rightBrace, "\x7d", .nil, 3⟩
    let paren : Token := ⟨.rightParen, ")", .nil, 2⟩
    let semicolon : Token := ⟨.semicolon, ";", .nil, 2⟩
    let finish : Token := ⟨.eof, "", .nil, 4⟩
    (parse [l, r] finish 0).errors = [] ∧ Boundary [l] [r] ∧
      Stmt.bareAll (parse [l, paren, semicolon, r] finish 0).program =
        Stmt.bareAll (parse [l, r] finish 0).program ∧
      (parse [l, paren, semicolon, r] finish 0).errors = [⟨.expected .expression, paren⟩] := by
  intro l r paren semicolon finish
  have hbetween : Boundary ([] ++ [l]) ([] ++ [r]) := .inner rfl .nothing .nothing rfl
  let parts : List Part := [.token l, .slot 0, .token r]
  have herrors : (parse (Part.tokens (fun _ => []) parts) finish 0).errors = [] := rfl
  have hslots : ∀ front i back, parts = front ++ .slot i :: back →
      Boundary (Part.tokens (fun _ => []) front) (Part.tokens (fun _ => []) back) := by
    intro front i back h
    obtain ⟨rfl, -, rfl⟩ : front = [.token l] ∧ i = 0 ∧ back = [.token r] := by
      simpa [parts, List.cons_eq_append_iff] using h
    exact hbetween
  let stray : Junk := ⟨[paren], semicolon, rfl, by simp [paren, Loose, Parse.isBoundary], by simp⟩
  obtain ⟨template, hnothing, h⟩ := parse_between herrors hslots
  obtain ⟨hprogram, hstray, -⟩ := h fun _ => ⟨stray.all, .inr ⟨stray, rfl⟩⟩
  exact ⟨herrors, hbetween, hprogram.trans (congrArg Stmt.bareAll hnothing), hstray⟩

end Lox
