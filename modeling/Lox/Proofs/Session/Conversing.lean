import Mathlib.Data.List.Induction
import Lox.Shell
import Lox.Proofs.Session.Entries

/-! How the shell splits the lines of a conversation into entries. The one text that it keeps is
both what is pending and the sign that something is; the prompt is kept in step with it. -/
namespace Lox.Shell

def joined (lines : List String) : String := "\n".intercalate lines

/-- More braces are opened in the lines than are closed. -/
def Opens (lines : List String) : Prop :=
  (joined lines).toList.count '}' < (joined lines).toList.count '{'

/-- A line that is nothing to run, between entries: a blank one, or a bare word that is a command to
the shell. -/
def IsIdle (line : String) : Prop :=
  Text.isAllBlank line ∨ line = "EOF" ∨ String.ofList (Text.strip line.toList) ∈ ["exit", "help"]

/-- The lines of an entry that is not complete: more is open after each of them than is closed. -/
structure Unfinished (lines : List String) : Prop where
  begins : ∀ line ∈ lines.head?, ¬ IsIdle line
  opens : ∀ before, before <+: lines → before ≠ [] → Opens before

/-- The lines of an entry that the last of them completes, and none before. -/
structure Complete (lines : List String) : Prop where
  begins : ∀ line ∈ lines.head?, ¬ IsIdle line
  opens : ∀ before, before <+: lines → before ≠ [] → before ≠ lines → Opens before
  nonempty : lines ≠ []
  closes : ¬ Opens lines

/-- A part of a conversation: a line between entries, or the lines of an entry. -/
inductive Part where
  | idle (line : String)
  | entry (lines : List String)

namespace Part

def lines : Part → List String
  | .idle line => [line]
  | .entry lines => lines

/-- What is to be run of a part. -/
def text? : Part → Option String
  | .idle _ => none
  | .entry lines => some (joined lines)

/-- A part is what its constructor says. -/
def Proper : Part → Prop
  | .idle line => IsIdle line
  | .entry lines => Complete lines

end Part

/-- The entry that a line completes, which is run. -/
def entryOn? (shell : Shell) (line : String) : Option String :=
  let (entry, more) := joinLine shell.pending line
  if (shell.command? line).isSome || shell.pending.isEmpty && Text.isAllBlank line || more then none
  else some entry

def feedAll (shell : Shell) (lines : List String) : Shell :=
  lines.foldl (fun shell line => (shell.feed line).2) shell

/-- The entries that are run while a shell takes some lines. -/
def entered (shell : Shell) : List String → List String
  | [] => []
  | line :: lines => (shell.entryOn? line).toList ++ entered (shell.feed line).2 lines

/-- No line stops the shell. -/
def GoesOn (shell : Shell) : List String → Prop
  | [] => True
  | line :: lines => (shell.feed line).1.stop = false ∧ GoesOn (shell.feed line).2 lines

variable {shell : Shell} {line : String} {lines rest before : List String}

theorem feedAll_concat : shell.feedAll (lines ++ [line]) = ((shell.feedAll lines).feed line).2 := by
  simp [feedAll]

/-- One more line completes one more entry at most. -/
theorem entered_concat : shell.entered (lines ++ [line]) =
    shell.entered lines ++ ((shell.feedAll lines).entryOn? line).toList := by
  induction lines generalizing shell with
  | nil => simp [entered, feedAll]
  | cons first lines ih => simp [entered, ih, feedAll]

theorem goesOn_concat : shell.GoesOn (lines ++ [line]) ↔
    shell.GoesOn lines ∧ ((shell.feedAll lines).feed line).1.stop = false := by
  induction lines generalizing shell with
  | nil => simp [GoesOn, feedAll]
  | cons first lines ih => simp [GoesOn, ih, feedAll, and_assoc]

/-- A line without a command, unless it is blank and nothing is pending, goes to the entry. -/
theorem feed_of_none (hcommand : shell.command? line = none)
    (hblank : (shell.pending.isEmpty && Text.isAllBlank line) = false) :
    shell.feed line = shell.enter line := by
  simp [feed, hcommand, hblank]

/-- A line is taken as text, ends the conversation or asks for help. -/
theorem command?_cases (shell : Shell) (line : String) :
    (shell.command? line = none ∧ line ≠ "EOF" ∧ (shell.pending = "" →
      String.ofList (Text.strip line.toList) ∉ ["exit", "help"])) ∨
    (∃ command, shell.command? line = some command ∧ (obey command).stop = true) ∨
    (shell.command? line = some .help ∧ shell.pending = "" ∧ IsIdle line) := by
  unfold command?
  split
  · exact .inr (.inl ⟨_, rfl, rfl⟩)
  · next heof =>
    split
    · next hpending =>
      have hempty : shell.pending = "" := by simpa using hpending
      split
      · exact .inr (.inl ⟨_, rfl, rfl⟩)
      · next hhelp => exact .inr (.inr ⟨rfl, hempty, .inr (.inr (by simp [hhelp]))⟩)
      · next hexit hhelp => exact .inl ⟨rfl, heof, fun _ => by simpa using ⟨hexit, hhelp⟩⟩
    · next hpending => exact .inl ⟨rfl, heof, fun hempty => absurd (by simp [hempty]) hpending⟩

/-- What a line comes to that does not stop the shell: nothing, more of an entry, or an entry that
is run. What comes of the run makes no difference to the shell. -/
theorem feed_cases (h : (shell.feed line).1.stop = false) :
    (shell.pending = "" ∧ IsIdle line ∧ shell.entryOn? line = none ∧ (shell.feed line).2 = shell) ∨
    ((shell.pending = "" → ¬ IsIdle line) ∧ (joinLine shell.pending line).2 = true ∧
      shell.entryOn? line = none ∧
      (shell.feed line).2 =
        { shell with pending := (joinLine shell.pending line).1, prompt := secondaryPrompt }) ∨
    ((shell.pending = "" → ¬ IsIdle line) ∧ (joinLine shell.pending line).2 = false ∧
      shell.entryOn? line = some (joinLine shell.pending line).1 ∧
      (shell.feed line).2 =
        ⟨(shell.session.enter (joinLine shell.pending line).1).2, "", mainPrompt⟩) := by
  rcases shell.command?_cases line with ⟨hnone, heof, hword⟩ | ⟨command, hsome, hstop⟩ |
    ⟨hhelp, hempty, hidle⟩
  · cases hblank : shell.pending.isEmpty && Text.isAllBlank line with
    | true =>
      obtain ⟨hempty, hidle⟩ := Bool.and_eq_true_iff.mp hblank
      exact .inl ⟨by simpa using hempty, .inl hidle, by simp [entryOn?, hblank],
        by simp [feed, hnone, hblank]⟩
    | false =>
      have hactive : shell.pending = "" → ¬ IsIdle line := by
        rintro hempty (hidle | hidle | hidle)
        · simp [hempty, hidle] at hblank
        · exact heof hidle
        · exact hword hempty hidle
      rw [feed_of_none hnone hblank]
      cases hmore : (joinLine shell.pending line).2 with
      | true => exact .inr (.inl ⟨hactive, rfl, by simp [entryOn?, hmore], by simp [enter, hmore]⟩)
      | false =>
        refine .inr (.inr ⟨hactive, rfl, by simp [entryOn?, hnone, hblank, hmore], ?_⟩)
        simp only [enter, hmore]
        rfl
  · simp [feed, hsome, hstop] at h
  · exact .inl ⟨hempty, hidle, by simp [entryOn?, hhelp], by simp [feed, hhelp]⟩

/-! The prompt. -/

/-- The prompt tells whether an entry is pending. -/
def InStep (shell : Shell) : Prop :=
  shell.prompt = if shell.pending = "" then mainPrompt else secondaryPrompt

/-- An entry that needs more lines is not empty. -/
theorem joinLine_ne_empty {pending : String} (h : (joinLine pending line).2 = true) :
    (joinLine pending line).1 ≠ "" := by
  intro hempty
  have hopens : (joinLine pending line).1.toList.count '}' <
    (joinLine pending line).1.toList.count '{' := of_decide_eq_true h
  simp [hempty] at hopens

theorem InStep.enter (shell : Shell) (line : String) : (shell.enter line).2.InStep := by
  cases hmore : (joinLine shell.pending line).2 with
  | true => simp [InStep, Shell.enter, hmore, joinLine_ne_empty hmore]
  | false => simp [InStep, Shell.enter, hmore]

/-- Lines that do not go to the entry leave the shell as it is. -/
theorem InStep.feed (h : shell.InStep) (line : String) : (shell.feed line).2.InStep := by
  unfold Shell.feed
  split
  · exact h
  · split
    · exact h
    · exact .enter shell line

/-- However many lines are fed, the prompt tells whether an entry is pending. -/
theorem InStep.feedAll (h : shell.InStep) (lines : List String) :
    (shell.feedAll lines).InStep := by
  induction lines generalizing shell with
  | nil => exact h
  | cons line lines ih => exact ih (h.feed line)

theorem inStep_new (session : Session) : (new session).InStep := if_pos rfl |>.symm

/-! One more line in a text of lines. -/

theorem joined_concat (h : rest ≠ []) : joined (rest ++ [line]) = joined rest ++ "\n" ++ line := by
  rw [joined, String.intercalate_append_of_ne_nil h (by simp), String.intercalate_singleton]
  rfl

/-- The text that is kept is empty only where no lines are. -/
theorem Unfinished.joined_eq_empty (h : Unfinished rest) : joined rest = "" ↔ rest = [] := by
  constructor
  · intro hempty
    by_contra hne
    have hopens := h.opens rest List.prefix_rfl hne
    simp [Opens, hempty] at hopens
  · rintro rfl
    exact String.intercalate_nil

/-- Lines are joined in order, and the entry goes on while braces are open. -/
theorem Unfinished.joinLine_eq (h : Unfinished rest) (line : String) :
    (joinLine (joined rest) line).1 = joined (rest ++ [line]) ∧
      ((joinLine (joined rest) line).2 = true ↔ Opens (rest ++ [line])) := by
  have hentry : (joinLine (joined rest) line).1 = joined (rest ++ [line]) := by
    by_cases hrest : rest = []
    · subst hrest
      simp [joinLine, joined]
    · have hne : joined rest ≠ "" := fun he => hrest (h.joined_eq_empty.mp he)
      simp [joinLine, hne, joined_concat hrest]
  refine ⟨hentry, ?_⟩
  rw [Opens, ← hentry]
  simp [joinLine]

/-- The first line of an entry is not idle, also with another line behind it. -/
theorem Unfinished.begins_concat (h : Unfinished rest) (hline : rest = [] → ¬ IsIdle line) :
    ∀ first ∈ (rest ++ [line]).head?, ¬ IsIdle first := by
  cases rest with
  | nil => simpa using hline rfl
  | cons first rest => simpa using h.begins

theorem Unfinished.concat (h : Unfinished rest) (hline : rest = [] → ¬ IsIdle line)
    (hopens : Opens (rest ++ [line])) : Unfinished (rest ++ [line]) := by
  refine ⟨h.begins_concat hline, fun before hbefore hne => ?_⟩
  rcases List.prefix_concat_iff.mp hbefore with rfl | hbefore
  · exact hopens
  · exact h.opens before hbefore hne

/-- The line that closes the braces completes the entry. -/
theorem Unfinished.complete (h : Unfinished rest) (hline : rest = [] → ¬ IsIdle line)
    (hcloses : ¬ Opens (rest ++ [line])) : Complete (rest ++ [line]) := by
  refine ⟨h.begins_concat hline, fun before hbefore hne hproper => ?_, by simp, hcloses⟩
  rcases List.prefix_concat_iff.mp hbefore with rfl | hbefore
  · exact absurd rfl hproper
  · exact h.opens before hbefore hne

theorem unfinished_nil : Unfinished [] := ⟨by simp, by simp⟩

/-- One more line goes to the part that is open, and the split of the lines before it stands. -/
theorem exists_parts (session : Session) (lines : List String) (h : (new session).GoesOn lines) :
    ∃ (parts : List Part) (rest : List String),
      lines = parts.flatMap (·.lines) ++ rest ∧ (∀ part ∈ parts, part.Proper) ∧ Unfinished rest ∧
      (new session).entered lines = parts.filterMap (·.text?) ∧
      ((new session).feedAll lines).session =
        ((new session).entered lines).foldl (fun s entry => (s.enter entry).2) session ∧
      ((new session).feedAll lines).pending = joined rest := by
  induction lines using List.reverseRecOn with
  | nil => exact ⟨[], [], rfl, by simp, unfinished_nil, rfl, rfl, String.intercalate_nil.symm⟩
  | append_singleton lines line ih =>
    obtain ⟨hlines, hstop⟩ := goesOn_concat.mp h
    obtain ⟨parts, rest, hsplit, hproper, hrest, hentered, hsession, hpending⟩ := ih hlines
    have hempty : ((new session).feedAll lines).pending = "" ↔ rest = [] := by
      rw [hpending, hrest.joined_eq_empty]
    obtain ⟨hjoined, hmore⟩ := hrest.joinLine_eq line
    rw [← hpending] at hjoined hmore
    rw [feedAll_concat, entered_concat]
    rcases feed_cases hstop with ⟨hnone, hidle, hentry, hfeed⟩ | ⟨hline, hopens, hentry, hfeed⟩ |
      ⟨hline, hcloses, hentry, hfeed⟩
    · obtain rfl := hempty.mp hnone
      refine ⟨parts ++ [.idle line], [], ?_, ?_, hrest, ?_, ?_, ?_⟩
      · simp [hsplit, Part.lines]
      · simpa [or_imp, forall_and, Part.Proper] using ⟨hproper, hidle⟩
      · simp [hentry, hentered, Part.text?]
      · simpa [hfeed, hentry] using hsession
      · rw [hfeed, hpending]
    · have hunfinished := hrest.concat (fun he => hline (hempty.mpr he)) (hmore.mp hopens)
      refine ⟨parts, rest ++ [line], ?_, hproper, hunfinished, ?_, ?_, ?_⟩
      · simp [hsplit]
      · simp [hentry, hentered]
      · simpa [hfeed, hentry] using hsession
      · rw [hfeed, hjoined]
    · have hcomplete := hrest.complete (fun he => hline (hempty.mpr he))
        fun hopens => by simpa [hcloses] using hmore.mpr hopens
      refine ⟨parts ++ [.entry (rest ++ [line])], [], ?_, ?_, unfinished_nil, ?_, ?_, ?_⟩
      · simp [hsplit, Part.lines]
      · simpa [or_imp, forall_and, Part.Proper] using ⟨hproper, hcomplete⟩
      · simp [hentry, hentered, hjoined, Part.text?]
      · simp [hfeed, hentry, hsession]
      · simp [hfeed, joined]

/-- The lines that a shell takes before one stops it are lines between entries, the entries that are
run, and the rest that is pending, in order. Every entry is run, whatever came of the one before,
and the shell asks for more with another prompt exactly while something is pending. -/
theorem feedAll_splits (session : Session) (lines : List String)
    (h : (new session).GoesOn lines) :
    ∃ (parts : List Part) (rest : List String),
      lines = parts.flatMap (·.lines) ++ rest ∧ (∀ part ∈ parts, part.Proper) ∧ Unfinished rest ∧
      (new session).entered lines = parts.filterMap (·.text?) ∧
      ((new session).feedAll lines).session =
        ((new session).entered lines).foldl (fun s entry => (s.enter entry).2) session ∧
      ((new session).feedAll lines).pending = joined rest ∧
      ((new session).feedAll lines).prompt = if rest = [] then "> " else ". " := by
  obtain ⟨parts, rest, hsplit, hproper, hrest, hentered, hsession, hpending⟩ :=
    exists_parts session lines h
  have hprompt : InStep _ := (inStep_new session).feedAll lines
  rw [InStep, hpending] at hprompt
  simp only [hrest.joined_eq_empty] at hprompt
  exact ⟨parts, rest, hsplit, hproper, hrest, hentered, hsession, hpending, hprompt⟩

/-- The command `exit` between the lines of an entry is a line of it. -/
theorem feedAll_splits_exitWithin :
    let session := Session.new (.new true false) none ⟨false, false⟩ fun _ => 0
    let lines := ["help", "fun f() \x7b", "exit", "\x7d", "\x7b"]
    (new session).GoesOn lines ∧ ∃ (parts : List Part) (rest : List String),
      lines = parts.flatMap (·.lines) ++ rest ∧ (∀ part ∈ parts, part.Proper) ∧ Unfinished rest ∧
      (new session).entered lines = parts.filterMap (·.text?) ∧
      ((new session).feedAll lines).session =
        ((new session).entered lines).foldl (fun s entry => (s.enter entry).2) session ∧
      ((new session).feedAll lines).pending = joined rest ∧
      ((new session).feedAll lines).prompt = if rest = [] then "> " else ". " := by
  intro session lines
  have hgo : (new session).GoesOn lines := by
    refine ⟨?_, ?_, ?_, ?_, ?_, trivial⟩ <;> decide +kernel
  exact ⟨hgo, feedAll_splits session lines hgo⟩

end Lox.Shell
