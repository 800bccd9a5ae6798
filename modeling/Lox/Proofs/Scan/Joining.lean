import Lox.Proofs.Recast
import Lox.Proofs.Scan.Partition

/-! Two texts on lines of their own are scanned apart: nothing of the language goes on past the end
of a line but a string. -/
namespace Lox.Lexical

open Scan (munch run numeralRun piece pieces isNamePart)

variable {p : Char → Bool} {c : Char} {cs ds : List Char}

theorem run_le_length (p : Char → Bool) (cs : List Char) : run p cs ≤ cs.length :=
  (List.takeWhile_sublist p).length_le

/-- A run stops where the text before does, or earlier. -/
theorem run_stop (hc : p c = false) : run p (cs ++ c :: ds) = run p cs := by
  rw [run, run, List.takeWhile_append]
  split
  · next h => simp [h, hc]
  · rfl

theorem run_stop_of_lt (h : run p cs < cs.length) : run p (cs ++ ds) = run p cs := by
  unfold run at h ⊢
  rw [List.takeWhile_append, if_neg (Nat.ne_of_lt h)]

theorem numeralRun_stop : numeralRun (cs ++ '\n' :: ds) = numeralRun cs := by
  have hle := run_le_length Char.isDigit cs
  have hstop {cs : List Char} : run Char.isDigit (cs ++ '\n' :: ds) = run Char.isDigit cs :=
    run_stop rfl
  simp only [numeralRun, hstop, List.drop_append_of_le_length hle]
  cases h : cs.drop (run Char.isDigit cs) with
  | nil => rfl
  | cons d rest =>
    by_cases hd : d = '.'
    · subst hd
      cases rest with
      | nil => rfl
      | cons e rest =>
        simp only [List.cons_append]
        rw [← List.cons_append, hstop]
    · split <;> split <;> simp_all

theorem numeralRun_le_length (cs : List Char) : numeralRun cs ≤ cs.length := by
  rcases numeralRun_cases cs with ⟨ds, rest, rfl, hn, -⟩ | ⟨ds, es, rest, rfl, hn, -, -⟩ <;>
    · simp only [hn, List.length_append, List.length_cons]
      omega

theorem head?_stop {d : Char} (hd : d ≠ '\n') :
    (cs ++ '\n' :: ds).head? = some d ↔ cs.head? = some d := by
  cases cs with
  | nil => simpa using Ne.symm hd
  | cons c cs => simp

theorem munch_le_length (c : Char) (cs : List Char) : (munch c cs).2 ≤ cs.length := by
  have hnumeral := numeralRun_le_length cs
  have hrun (p : Char → Bool) := run_le_length p cs
  by_cases hc : c = '"'
  · subst hc
    rw [munch_quote]
    split
    · next h => exact h
    · exact hrun _
  · unfold munch
    split
    · exact Nat.zero_le _
    · split
      · next h => cases cs <;> simp_all
      · exact Nat.zero_le _
    · rw [if_neg hc]
      grind

/-- What stands at a character is settled by the end of the line, a string that is still open
apart. -/
theorem munch_stop (h : (munch c cs).1 ≠ .fault .unterminatedString) :
    munch c (cs ++ '\n' :: ds) = munch c cs := by
  by_cases hc : c = '"'
  · subst hc
    rw [munch_quote] at h ⊢
    split at h
    · next hlt =>
      rw [munch_quote, run_stop_of_lt hlt, if_pos hlt, if_pos,
        List.take_append_of_le_length (Nat.le_of_lt hlt)]
      rw [List.length_append]
      omega
    · exact absurd rfl h
  · have hnumeral : (cs ++ '\n' :: ds).take (numeralRun cs) = cs.take (numeralRun cs) :=
      List.take_append_of_le_length (numeralRun_le_length cs)
    have hword : (cs ++ '\n' :: ds).take (run isNamePart cs) = cs.take (run isNamePart cs) :=
      List.take_append_of_le_length (run_le_length isNamePart cs)
    have hstop : run isNamePart (cs ++ '\n' :: ds) = run isNamePart cs := run_stop rfl
    have hline : run (· ≠ '\n') (cs ++ '\n' :: ds) = run (· ≠ '\n') cs := run_stop rfl
    have hequal : (cs ++ '\n' :: ds).head? = some '=' ↔ cs.head? = some '=' :=
      head?_stop (by decide)
    have hslash : (cs ++ '\n' :: ds).head? = some '/' ↔ cs.head? = some '/' :=
      head?_stop (by decide)
    simp only [munch, hequal, hslash, numeralRun_stop, hstop, hline, hnumeral, hword, hc, if_false]

variable {line : Nat}

/-- Lines are counted by the line feeds in a piece. -/
theorem count_piece (line : Nat) (c : Char) (cs : List Char) :
    (piece line c cs).line + (cs.drop (munch c cs).2).count '\n' =
      line + (c :: cs).count '\n' := by
  rw [← Scan.lexeme_piece line c cs, List.count_append, ← Nat.add_assoc]
  rfl

/-- A piece that is not an open string ends at the line feed at the latest. -/
theorem piece_stop (h : (munch c cs).1 ≠ .fault .unterminatedString) :
    piece line c (cs ++ '\n' :: ds) = piece line c cs := by
  have htake : (cs ++ '\n' :: ds).take (munch c cs).2 = cs.take (munch c cs).2 :=
    List.take_append_of_le_length (munch_le_length c cs)
  simp only [piece, munch_stop h, htake]

/-- The pieces of two texts with the end of a line between them. -/
theorem pieces_join (line : Nat) (cs ds : List Char)
    (h : ∀ p ∈ pieces line cs, p.sort ≠ .fault .unterminatedString) :
    pieces line (cs ++ '\n' :: ds) = pieces line cs ++
      ⟨.gap, ['\n'], line + cs.count '\n' + 1⟩ :: pieces (line + cs.count '\n' + 1) ds := by
  match cs with
  | [] =>
    have hpiece : piece line '\n' ds = ⟨.gap, ['\n'], line + 1⟩ := rfl
    have hmunch : munch '\n' ds = (.gap, 0) := rfl
    rw [List.nil_append, Scan.pieces_cons, hpiece, hmunch, Scan.pieces_nil]
    rfl
  | c :: cs =>
    rw [Scan.pieces_cons] at h ⊢
    have hc : (munch c cs).1 ≠ .fault .unterminatedString :=
      h (piece line c cs) List.mem_cons_self
    have hrest := pieces_join (piece line c cs).line (cs.drop (munch c cs).2) ds
      fun p hp => h p (List.mem_cons_of_mem _ hp)
    rw [List.cons_append, Scan.pieces_cons, piece_stop hc, munch_stop hc,
      List.drop_append_of_le_length (munch_le_length c cs), hrest, count_piece]
    rfl
termination_by cs.length
decreasing_by simp only [List.length_drop, List.length_cons]; omega

/-- A piece on another line. -/
def moved (k : Nat) (p : Scan.Piece) : Scan.Piece := { p with line := p.line + k }

/-- Pieces do not depend on the line but in their own. -/
theorem pieces_moved (line k : Nat) (cs : List Char) :
    pieces (line + k) cs = (pieces line cs).map (moved k) := by
  match cs with
  | [] => simp
  | c :: cs =>
    have hline : (piece (line + k) c cs).line = (piece line c cs).line + k := by
      simp only [piece]
      omega
    have hpiece : piece (line + k) c cs = moved k (piece line c cs) := by
      rw [moved, ← hline]
      rfl
    rw [Scan.pieces_cons, Scan.pieces_cons, List.map_cons, hline,
      pieces_moved _ k (cs.drop (munch c cs).2), hpiece]
termination_by cs.length
decreasing_by simp only [List.length_drop, List.length_cons]; omega

theorem token?_moved (k : Nat) (p : Scan.Piece) :
    (moved k p).token? = p.token?.map (·.reline (· + k)) := by
  obtain ⟨sort, lexeme, line⟩ := p
  cases sort <;> simp [moved, Scan.Piece.token?, Token.reline]

theorem error?_moved (k : Nat) (p : Scan.Piece) :
    (moved k p).error? = p.error?.map fun e => ⟨e.fault, e.line + k⟩ := by
  obtain ⟨sort, lexeme, line⟩ := p
  cases sort <;> simp [moved, Scan.Piece.error?]

theorem tokens_moved (k : Nat) (ps : List Scan.Piece) :
    (ps.map (moved k)).filterMap (·.token?) =
      (ps.filterMap (·.token?)).map (·.reline (· + k)) := by
  rw [List.filterMap_map, List.map_filterMap]
  exact congrArg (List.filterMap · ps) (funext (token?_moved k))

theorem errors_moved (k : Nat) (ps : List Scan.Piece) :
    (ps.map (moved k)).filterMap (·.error?) =
      (ps.filterMap (·.error?)).map fun e => ⟨e.fault, e.line + k⟩ := by
  rw [List.filterMap_map, List.map_filterMap]
  exact congrArg (List.filterMap · ps) (funext (error?_moved k))

/-- Behind a text without scan errors, a text on lines of its own is scanned as ever. -/
theorem scan_join {s t : String} (h : (scan s).errors = []) :
    (scan (s ++ "\n" ++ t)).tokens =
        (scan s).tokens ++ (scan t).tokens.map (·.reline (· + lineAfter s.toList)) ∧
      ((scan (s ++ "\n" ++ t)).errors = [] ↔ (scan t).errors = []) := by
  have hclean : ∀ p ∈ pieces 1 s.toList, p.sort ≠ .fault .unterminatedString := by
    intro p hp hsort
    have herror := List.filterMap_eq_nil_iff.mp h p hp
    simp [Scan.Piece.error?, hsort] at herror
  have hchars : (s ++ "\n" ++ t).toList = s.toList ++ '\n' :: t.toList := by simp
  have hpieces : pieces 1 (s ++ "\n" ++ t).toList = pieces 1 s.toList ++
      ⟨.gap, ['\n'], lineAfter s.toList + 1⟩ ::
        (pieces 1 t.toList).map (moved (lineAfter s.toList)) := by
    rw [hchars, pieces_join 1 _ _ hclean, ← pieces_moved, Nat.add_comm 1 (lineAfter _)]
    rfl
  simp only [scan] at h ⊢
  rw [hpieces, List.filterMap_append, List.filterMap_append, h,
    List.filterMap_cons_none rfl, List.filterMap_cons_none rfl, tokens_moved, errors_moved,
    List.nil_append, List.map_eq_nil_iff]
  exact ⟨rfl, Iff.rfl⟩

end Lox.Lexical
