import Lox.Proofs.Execute.Naming
import Lox.Proofs.Reporting
import Lox.Proofs.Text.Colors

/-! Reports in colors are the plain ones, but for the color sequences in them. -/
namespace Lox

open Text (Colorless Fades)

/-- A text as it is shown, in colors or not, fades to the plain one; without colors it is the plain
one. -/
structure Renders (color : Bool) (shown plain : String) : Prop where
  fades : Fades shown plain
  same : color = false → shown = plain

theorem renders_colorless {color : Bool} {text : String} (h : Colorless text) :
    Renders color text text :=
  ⟨Text.fades_colorless h, fun _ => rfl⟩

theorem renders_empty {color : Bool} : Renders color "" "" :=
  renders_colorless (.ofList (by decide))

theorem renders_feed {color : Bool} : Renders color "\n" "\n" :=
  renders_colorless (.ofList (by decide))

theorem Renders.append {color : Bool} {shown plain shown' plain' : String}
    (h : Renders color shown plain) (h' : Renders color shown' plain') :
    Renders color (shown ++ shown') (plain ++ plain') :=
  ⟨h.fades.append h'.fades, fun hc => by rw [h.same hc, h'.same hc]⟩

/-- Taking the colors out of what is shown leaves the plain text. -/
theorem Renders.uncolored {color : Bool} {shown plain : String} (h : Renders color shown plain) :
    (if color then Text.uncolored shown else shown) = plain := by
  cases color with
  | true => exact h.fades.uncolored
  | false => exact h.same rfl

/-- The wording of an error and the text it points at are without escape characters. -/
structure Diagnostic.Plain (d : Diagnostic) : Prop where
  message : Colorless d.message
  lexeme : ∀ text ∈ d.lexeme?, Colorless text

theorem Diagnostic.Plain.place {d : Diagnostic} (h : d.Plain) :
    Colorless d.place := by
  unfold Diagnostic.place
  split
  · exact .ofList (by decide)
  · next t ht =>
    have hlexeme : Colorless t.lexeme := h.lexeme _ (by simp [Diagnostic.lexeme?, ht])
    split
    · exact .ofList (by decide)
    · exact .append (.append (.ofList (by decide)) hlexeme) (.ofList (by decide))

theorem Diagnostic.Plain.text {d : Diagnostic} (h : d.Plain) : Colorless d.text :=
  .append (.append (.append (.append (.append (.ofList (by decide)) (Text.colorless_int d.line))
    (.ofList (by decide))) h.place) (.ofList (by decide))) h.message

/-- What leaves a section carries no escape characters. -/
def Leaving.Plain : Leaving → Prop
  | .error d => d.Plain
  | .foreign name text => Colorless name ∧ Colorless text
  | _ => True

namespace Reporter

variable (r : Reporter) {d : Diagnostic} {text : String} (printed : String)

/-- The reporter without colors, with something else printed. -/
def faded : Reporter := { r with color := false, printed }

/-- Emphasis colors a text and changes nothing else of it. -/
theorem renders_emphasis (color : Option Color) (h : Colorless text) :
    Renders r.color (r.emphasis color text) text := by
  unfold emphasis
  cases r.color with
  | true => exact ⟨Text.fades_bold color h, nofun⟩
  | false => exact renders_colorless h

@[simp] theorem emphasis_faded (color : Option Color) (text : String) :
    (r.faded printed).emphasis color text = text := rfl

/-- A line with a part of it marked, and its underlining, are rendered piece by piece. -/
theorem renders_quote {line : String} {part : List Char} (hline : Colorless line)
    (hpart : '\x1b' ∉ part) (start : Nat) (color : Color) :
    let before := String.ofList (line.toList.take start)
    let after := String.ofList (line.toList.drop (start + part.length))
    let space := String.ofList (List.replicate start ' ')
    let underline := String.ofList ('^' :: List.replicate (part.length - 1) '~')
    Renders r.color
      ("  " ++ before ++ r.emphasis color (String.ofList part) ++ after ++ "\n" ++
        "  " ++ space ++ r.emphasis color underline)
      ("  " ++ before ++ String.ofList part ++ after ++ "\n" ++ "  " ++ space ++ underline) := by
  intro before after space underline
  have hbefore : Colorless before := .ofList fun hmem => hline (List.mem_of_mem_take hmem)
  have hafter : Colorless after := .ofList fun hmem => hline (List.mem_of_mem_drop hmem)
  have hspace : Colorless space := .ofList (by simp)
  have hunderline : Colorless underline := .ofList (by simp)
  have hindent : Renders r.color "  " "  " := renders_colorless (.ofList (by decide))
  have hmarked := ((hindent.append (renders_colorless hbefore)).append
    (r.renders_emphasis (some color) (.ofList hpart))).append (renders_colorless hafter)
  exact (((hmarked.append renders_feed).append hindent).append (renders_colorless hspace)).append
    (r.renders_emphasis (some color) hunderline)

/-- A diagnosis is rendered from the plain one. -/
theorem renders_diagnose (hlines : ∀ line ∈ r.lines, Colorless line) (hd : d.Plain)
    (color : Color) :
    r.diagnose d color = none ∧ (r.faded printed).diagnose d color = none ∨
      ∃ shown plain, r.diagnose d color = some shown ∧
        (r.faded printed).diagnose d color = some plain ∧ Renders r.color shown plain := by
  have hsource : (r.faded printed).sourceLine? d.line = r.sourceLine? d.line := rfl
  simp only [diagnose, hsource, Option.bind_eq_bind, emphasis_faded]
  cases hline : r.sourceLine? d.line with
  | none => exact .inl ⟨rfl, rfl⟩
  | some line =>
    have hcolorless : Colorless line := by
      unfold sourceLine? at hline
      split at hline
      · exact hlines line (List.mem_of_getElem? hline)
      · cases hline
    generalize hpart : (d.lexeme?.getD "").toList = part
    have hlexeme : '\x1b' ∉ part := by
      cases h : d.lexeme? with
      | none => simp [← hpart, h]
      | some text =>
        rw [← hpart, h]
        exact hd.lexeme text h
    simp only [Option.bind_some]
    -- whether there is a diagnosis, and where it points, is decided without a look at the colors
    by_cases hempty : part.isEmpty
    · exact .inl (by simp [hempty])
    cases hstart : Text.indexOf? part line.toList with
    | none => exact .inl (by simp)
    | some start =>
      simp only [if_neg hempty]
      exact .inr ⟨_, _, rfl, rfl, r.renders_quote hcolorless hlexeme start color⟩

/-- Where an error is, in front of it. -/
def location (d : Diagnostic) : String :=
  ((r.path.filter (!·.isEmpty)).map (· ++ ":" ++ toString d.line)).getD
    ("[line " ++ toString d.line ++ "]")

/-- The first line of an error. -/
def headline (d : Diagnostic) (runtime : Bool) : String :=
  r.emphasis none (r.location d ++ " ") ++
    r.emphasis (some (if runtime then Color.magenta else .red))
      ((if runtime then "runtime error" else "error") ++ d.place ++ ": ") ++ d.message

/-- An error is shown in a line, with its diagnosis below. -/
theorem format_eq (d : Diagnostic) (runtime : Bool) : r.format d runtime =
    r.headline d runtime ++
      (r.diagnose d (if runtime then Color.magenta else .red)).elim "" ("\n" ++ ·) := by
  simp only [format, headline, location]
  cases r.path with
  | none =>
    cases r.diagnose d (if runtime then Color.magenta else .red) <;> simp [String.append_assoc]
  | some path =>
    cases hempty : path.isEmpty <;>
      cases r.diagnose d (if runtime then Color.magenta else .red) <;>
        simp [Option.filter, hempty, String.append_assoc]

theorem colorless_location (hpath : ∀ path ∈ r.path, Colorless path) (d : Diagnostic) :
    Colorless (r.location d) := by
  unfold location
  cases hlocated : (r.path.filter (!·.isEmpty)).map (· ++ ":" ++ toString d.line) with
  | none =>
    exact .append (.append (.ofList (by decide)) (Text.colorless_int d.line)) (.ofList (by decide))
  | some location =>
    obtain ⟨path, hfilter, rfl⟩ := Option.map_eq_some_iff.mp hlocated
    have hmem : path ∈ r.path := (Option.filter_eq_some_iff.mp hfilter).1
    exact .append (.append (hpath path hmem) (.ofList (by decide))) (Text.colorless_int d.line)

/-- An error is rendered from what is shown of it without colors. -/
theorem renders_format (hpath : ∀ path ∈ r.path, Colorless path)
    (hlines : ∀ line ∈ r.lines, Colorless line) (hd : d.Plain) (runtime : Bool) :
    Renders r.color (r.format d runtime) ((r.faded printed).format d runtime) := by
  have hlabel : Colorless ((if runtime then "runtime error" else "error") ++ d.place ++ ": ") := by
    refine .append (.append ?_ hd.place) (.ofList (by decide))
    cases runtime <;> exact .ofList (by decide)
  have hspace : Colorless " " := .ofList (by decide)
  have hheadline : Renders r.color (r.headline d runtime) ((r.faded printed).headline d runtime) :=
    ((r.renders_emphasis none ((r.colorless_location hpath d).append hspace)).append
      (r.renders_emphasis (some (if runtime then Color.magenta else .red)) hlabel)).append
        (renders_colorless hd.message)
  rw [format_eq, format_eq]
  refine hheadline.append ?_
  rcases r.renders_diagnose printed hlines hd
      (if runtime then Color.magenta else .red) with ⟨hnone, hnone'⟩ | ⟨_, _, hsome, hsome', hf⟩
  · rw [hnone, hnone']
    exact renders_empty
  · rw [hsome, hsome']
    exact renders_feed.append hf

/-- A reporter has reported what another has, which shows no colors, and all it points into and all
it names is without escape characters. -/
inductive Shades (r : Reporter) : Reporter → Prop
  | intro {printed : String} (hprinted : Renders r.color r.printed printed)
      (hpath : ∀ path ∈ r.path, Colorless path) (hlines : ∀ line ∈ r.lines, Colorless line) :
      Shades r (r.faded printed)

variable {r} {t : Reporter}

/-- What two such reporters printed differs by colors only. -/
theorem Shades.uncolored (h : Shades r t) :
    (if r.color then Text.uncolored r.printed else r.printed) = t.printed := by
  cases h with
  | intro hprinted => exact hprinted.uncolored

theorem Shades.errors (h : Shades r t) : r.errors = t.errors := by
  cases h
  rfl

theorem Shades.exitCode (h : Shades r t) : r.exitCode = t.exitCode := by
  cases h
  rfl

theorem Shades.print {shown plain : String} (h : Shades r t) (hf : Renders r.color shown plain) :
    Shades (r.print shown) (t.print plain) := by
  cases h with
  | intro hprinted hpath hlines =>
    exact .intro ((hprinted.append hf).append renders_feed) hpath hlines

theorem Shades.error (h : Shades r t) (hd : d.Plain) : Shades (r.error d) (t.error d) := by
  cases h with
  | intro hprinted hpath hlines =>
    exact Shades.print (.intro hprinted hpath hlines) (renders_format _ _ hpath hlines hd false)

theorem Shades.runtimeError (h : Shades r t) (hd : d.Plain) :
    Shades (r.runtimeError d) (t.runtimeError d) := by
  cases h with
  | intro hprinted hpath hlines =>
    exact Shades.print (.intro hprinted hpath hlines) (renders_format _ _ hpath hlines hd true)

/-- Reporting the same errors keeps two reporters alike up to colors. -/
theorem Shades.reportAll {ds : List Diagnostic} (h : Shades r t)
    (hds : ∀ d ∈ ds, d.Plain) : Shades (r.reportAll ds) (t.reportAll ds) := by
  induction ds generalizing r t with
  | nil => exact h
  | cons d ds ih =>
    rw [List.forall_mem_cons] at hds
    exact ih (h.error hds.1) hds.2

theorem Shades.complain (h : Shades r t) (hm : Colorless text) (internal : Bool) :
    Shades (r.complain text internal) (t.complain text internal) := by
  have hred {text : String} (ht : Colorless text) :
      Renders r.color (r.emphasis (some .red) text) (t.emphasis (some .red) text) := by
    cases h
    exact r.renders_emphasis (some .red) ht
  have hmark : Renders r.color (if internal then r.emphasis (some .red) "[internal] " else "")
      (if internal then t.emphasis (some .red) "[internal] " else "") := by
    cases internal with
    | true => exact hred (.ofList (by decide))
    | false => exact renders_empty
  exact h.print ((hmark.append (hred (.ofList (by decide)))).append (renders_colorless hm))

theorem Shades.hadRuntimeError (h : Shades r t) :
    Shades { r with hadRuntimeError := true } { t with hadRuntimeError := true } := by
  cases h with
  | intro hprinted hpath hlines => exact .intro hprinted hpath hlines

/-- Whatever leaves a section is reported alike. -/
theorem Shades.leave {leaving : Leaving} (h : Shades r t) (hl : leaving.Plain) :
    Shades (r.leave leaving).1 (t.leave leaving).1 := by
  have hunknown {name text : String} (hname : Colorless name) (htext : Colorless text) :
      Shades (leave.unknown r name text).1 (leave.unknown t name text).1 :=
    h.complain (.append (.append (.append (.append (.ofList (by decide)) hname)
      (.ofList (by decide))) htext) (.ofList (by decide))) true
  cases leaving with
  | normally => exact h
  | interrupted => exact h.complain (.ofList (by decide)) false
  | exit code => exact h
  | tooDeep => exact h.hadRuntimeError.complain (.ofList (by decide)) false
  | foreign name text => exact hunknown hl.1 hl.2
  | error d =>
    simp only [Reporter.leave]
    cases d.kind with
    | runtime => exact h.runtimeError hl
    | plain => exact hunknown (.ofList (by decide)) hl.text
    | _ => exact h.error hl

theorem color_leave (r : Reporter) (leaving : Leaving) : (r.leave leaving).1.color = r.color := by
  cases leaving with
  | error d =>
    simp only [Reporter.leave]
    cases d.kind <;> rfl
  | _ => rfl

/-- A source text to point into, without escape characters. -/
theorem Shades.register {path : Option String} {source : String} (h : Shades r t)
    (hpath : ∀ p ∈ path, Colorless p) (hsource : Colorless source) :
    Shades (r.reset.register path source) (t.reset.register path source) := by
  cases h with
  | intro hprinted => exact .intro hprinted hpath (Text.colorless_lines hsource)

theorem Shades.drained (h : Shades r t) :
    Shades { r with printed := "" } { t with printed := "" } := by
  cases h with
  | intro _ hpath hlines => exact .intro renders_empty hpath hlines

end Reporter

section Errors

/-- No message of the scanner has an escape in it that the offending text does not have. -/
theorem ScanFault.colorless {fault : ScanFault} (h : Colorless fault.excerpt) :
    Colorless fault.message := by
  cases fault with
  | unterminatedString => exact .ofList (by decide)
  | _ => exact .append (.append (.ofList (by decide)) h) (.ofList (by decide))

theorem SyntaxFault.colorless (fault : SyntaxFault) : Colorless fault.message := by
  cases fault with
  | expected what =>
    refine .append (.append (.ofList (by decide)) ?_) (.ofList (by decide))
    cases what <;> exact .ofList (by decide)
  | invalidAssignmentTarget => exact .ofList (by decide)
  | _ =>
    exact .append (.append (.ofList (by decide)) (Text.colorless_nat _)) (.ofList (by decide))

theorem ScopeFault.colorless (fault : ScopeFault) : Colorless fault.message := by
  cases fault <;> exact .ofList (by decide)

/-- The one runtime error that quotes the program quotes a name. -/
theorem RuntimeFault.colorless {fault : RuntimeFault}
    (h : ∀ name, fault = .undefinedVariable name → Colorless name) : Colorless fault.message := by
  cases fault with
  | undefinedVariable name =>
    exact .append (.append (.ofList (by decide)) (h name rfl)) (.ofList (by decide))
  | wrongArity expected actual =>
    exact .append (.append (.append (.append (.ofList (by decide)) (Text.colorless_nat expected))
      (.ofList (by decide))) (Text.colorless_nat actual)) (.ofList (by decide))
  | _ => exact .ofList (by decide)

theorem Diagnostic.plain_atToken {kind : Diagnostic.Kind} {message : String} {token : Token}
    (hm : Colorless message) (ht : Colorless token.lexeme) :
    (Diagnostic.atToken kind message token).Plain :=
  ⟨hm, by simpa [atToken, lexeme?] using ht⟩

theorem ScanError.plain {e : ScanError} (h : Colorless e.fault.excerpt) :
    e.diagnostic.Plain :=
  ⟨ScanFault.colorless h, by simpa [diagnostic, Diagnostic.lexeme?] using h⟩

theorem SyntaxError.plain {e : SyntaxError} (h : Colorless e.token.lexeme) :
    e.diagnostic.Plain := Diagnostic.plain_atToken e.fault.colorless h

theorem ScopeError.plain {e : ScopeError} (h : Colorless e.token.lexeme) :
    e.diagnostic.Plain := Diagnostic.plain_atToken e.fault.colorless h

/-- An error of a running program names no other variable than the token it is blamed on. -/
theorem RuntimeError.plain {e : RuntimeError} (he : e.Honest) (h : Colorless e.token.lexeme) :
    e.diagnostic.Plain :=
  Diagnostic.plain_atToken (RuntimeFault.colorless fun name hname => he name hname ▸ h) h

end Errors

end Lox
