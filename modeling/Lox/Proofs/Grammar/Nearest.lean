import Lox.Proofs.Grammar

/-! Where an `else` belongs. Every program of the grammar can also be read so that each `else`
belongs to the nearest branch that can take it. -/
namespace Lox.Grammar

variable {p : Phrase} {ts : List Token}

/-- The innermost branch that a dangling statement ends with can take the `else` that follows. -/
theorem attach {t : p.Tree} (h : Derives true p ts t) :
    p = .statement true → ∀ {other us d s}, other.kind = .kwElse →
      Derives true (.statement d) us s →
        ∃ d' s', Derives true (.statement d') (ts ++ other :: us) s' := by
  induction h with
  | loop hk hl hc hr hs _ ih =>
    rintro ⟨⟩ other us d s ho hu
    obtain ⟨d', s', h⟩ := ih rfl ho hu
    exact ⟨d', _, by simpa using Derives.loop hk hl hc hr h⟩
  | @counting _ _ _ _ _ _ _ _ _ _ _ _ _ n hk hl hi hc hm ht hr hs _ _ _ ih =>
    rintro ⟨⟩ other us d s ho hu
    obtain ⟨d', s', h⟩ := ih rfl ho hu
    exact ⟨d', _, by simpa using Derives.counting (n := n) hk hl hi hc hm ht hr h⟩
  | @branch _ _ _ _ _ _ d _ hk hl hc hr hs _ ih =>
    rintro - other us d' s' ho hu
    cases d with
    | false => exact ⟨d', _, by simpa using Derives.branchElse hk hl hc hr hs (by simp) ho hu⟩
    | true =>
      obtain ⟨_, s', h⟩ := ih rfl ho hu
      exact ⟨true, _, by simpa using Derives.branch hk hl hc hr h⟩
  | branchElse hk hl hc hr hs hd ho' hs' _ _ ih =>
    rintro ⟨⟩ other us d s ho hu
    obtain ⟨d', s', h⟩ := ih rfl ho hu
    exact ⟨d', _, by simpa using Derives.branchElse hk hl hc hr hs hd ho' h⟩
  | _ => intro h; cases h

/-- A phrase can be read with every `else` at its nearest branch, with as many arguments and the
same parameters. -/
def Nearest : (p : Phrase) → List Token → p.Tree → Prop
  | .statement _, ts, _ => ∃ d s, Derives true (.statement d) ts s
  | .parameters, ts, ps => Derives true .parameters ts ps
  | .names, ts, ps => Derives true .names ts ps
  | .values, ts, es => ∃ fs : List Expr, fs.length = es.length ∧ Derives true .values ts fs
  | p, ts, _ => ∃ t, Derives true p ts t

theorem Derives.nearest {t : p.Tree} (h : Derives false p ts t) : Nearest p ts t := by
  induction h with
  | nothing => exact ⟨_, .nothing⟩
  | next _ _ hs hss => exact ⟨_, .next hs.choose_spec hss.choose_spec⟩
  | named hk hn _ hf => exact ⟨_, .named hk hn hf.choose_spec⟩
  | declared hk _ hs => exact ⟨_, .declared hk hs.choose_spec⟩
  | plain _ hs => exact ⟨_, .plain hs.choose_spec.choose_spec⟩
  | unset hn hs => exact ⟨_, .unset hn hs⟩
  | set hn he _ hs hv => exact ⟨_, .set hn he hv.choose_spec hs⟩
  | evaluate _ hs he => exact ⟨_, _, .evaluate he.choose_spec hs⟩
  | print hk _ hs he => exact ⟨_, _, .print hk he.choose_spec hs⟩
  | giveBack hk _ hs he => exact ⟨_, _, .giveBack hk he.choose_spec hs⟩
  | breakLoop hk hs => exact ⟨_, _, .breakLoop hk hs⟩
  | block hk _ hb => exact ⟨_, _, .block hk hb.choose_spec⟩
  | loop hk hl _ hr _ hc hs =>
    exact ⟨_, _, .loop hk hl hc.choose_spec hr hs.choose_spec.choose_spec⟩
  | @counting _ _ _ _ _ _ _ _ _ _ _ _ _ n hk hl _ _ hm _ hr _ hi hc ht hs =>
    exact ⟨_, _, .counting (n := n) hk hl hi.choose_spec hc.choose_spec hm ht.choose_spec hr
      hs.choose_spec.choose_spec⟩
  | branch hk hl _ hr _ hc hs =>
    exact ⟨_, _, .branch hk hl hc.choose_spec hr hs.choose_spec.choose_spec⟩
  | branchElse hk hl _ hr _ _ ho _ hc hs hs' =>
    obtain ⟨c, hc⟩ := hc
    obtain ⟨d, s, hs⟩ := hs
    obtain ⟨d', s', hs'⟩ := hs'
    cases d with
    | false => exact ⟨_, _, .branchElse hk hl hc hr hs (by simp) ho hs'⟩
    | true =>
      obtain ⟨_, _, h⟩ := attach hs rfl ho hs'
      exact ⟨_, _, .branch hk hl hc hr h⟩
  | startNothing hs => exact ⟨_, .startNothing hs⟩
  | startVariable hk _ hs => exact ⟨_, .startVariable hk hs.choose_spec⟩
  | startExpression _ hs he => exact ⟨_, .startExpression he.choose_spec hs⟩
  | braced _ hb hs => exact ⟨_, .braced hs.choose_spec hb⟩
  | @function _ _ _ _ _ _ _ n hl _ hr hk _ hp hb =>
    exact ⟨_, .function (n := n) hl hp hr hk hb.choose_spec⟩
  | noParameters => exact .noParameters
  | someParameters _ hl hp => exact .someParameters hp hl
  | oneName hn => exact .oneName hn
  | moreNames hn hc _ hp => exact .moreNames hn hc hp
  | absent => exact ⟨_, .absent⟩
  | present _ he => exact ⟨_, .present he.choose_spec⟩
  | @assign _ _ _ _ n hn hq _ he => exact ⟨_, .assign (n := n) hn hq he.choose_spec⟩
  | loosest _ he => exact ⟨_, .loosest he.choose_spec⟩
  | single _ he => exact ⟨_, .single he.choose_spec⟩
  | @logical _ _ _ _ _ _ _ n _ ho _ hl hr =>
    exact ⟨_, .logical (n := n) hl.choose_spec ho hr.choose_spec⟩
  | @binary _ _ _ _ _ _ _ n _ ho _ hl hr =>
    exact ⟨_, .binary (n := n) hl.choose_spec ho hr.choose_spec⟩
  | tighter ht _ he => exact ⟨_, .tighter ht he.choose_spec⟩
  | tightest _ he => exact ⟨_, .tightest he.choose_spec⟩
  | @not _ _ _ n hk _ he => exact ⟨_, .not (n := n) hk he.choose_spec⟩
  | @negate _ _ _ n hk _ he => exact ⟨_, .negate (n := n) hk he.choose_spec⟩
  | called _ he => exact ⟨_, .called he.choose_spec⟩
  | uncalled _ he => exact ⟨_, .uncalled he.choose_spec⟩
  | @call _ _ _ _ _ _ n _ hl _ hr he ha =>
    exact ⟨_, .call (n := n) he.choose_spec hl ha.choose_spec hr⟩
  | noArguments => exact ⟨_, .noArguments⟩
  | someArguments _ hl ha =>
    obtain ⟨fs, hf, ha⟩ := ha
    exact ⟨_, .someArguments ha (hf ▸ hl)⟩
  | oneValue _ he => exact ⟨[he.choose], rfl, .oneValue he.choose_spec⟩
  | moreValues _ hc _ he ha =>
    obtain ⟨fs, hf, ha⟩ := ha
    exact ⟨_, by simp [hf], .moreValues he.choose_spec hc ha⟩
  | @no _ n hk => exact ⟨_, .no (n := n) hk⟩
  | @yes _ n hk => exact ⟨_, .yes (n := n) hk⟩
  | @nil _ n hk => exact ⟨_, .nil (n := n) hk⟩
  | @number _ n hk => exact ⟨_, .number (n := n) hk⟩
  | @string _ n hk => exact ⟨_, .string (n := n) hk⟩
  | @name _ n hk => exact ⟨_, .name (n := n) hk⟩
  | lambda hk _ hf => exact ⟨_, .lambda hk hf.choose_spec⟩
  | @group _ _ _ _ n hl _ hr he => exact ⟨_, .group (n := n) hl he.choose_spec hr⟩

/-- A derivation with every `else` at its nearest branch is a derivation. -/
theorem Derives.ambiguous {t : p.Tree} (h : Derives true p ts t) : Derives false p ts t := by
  induction h with
  | branchElse hk hl _ hr _ _ ho _ hc hs hs' => exact .branchElse hk hl hc hr hs (by simp) ho hs'
  | logical _ ho _ hl hr => exact .logical hl ho hr
  | binary _ ho _ hl hr => exact .binary hl ho hr
  | tightest _ he => exact .tightest he
  | call _ hl _ hr he ha => exact .call he hl ha hr
  | string hk => exact .string hk
  | _ => constructor <;> assumption

end Lox.Grammar
