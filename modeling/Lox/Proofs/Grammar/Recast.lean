import Lox.Proofs.Grammar
import Lox.Proofs.Recast

/-! Derivations of programs on other lines, and of programs one behind the other. -/
namespace Lox

variable {g : Int → Int}

/-- The tree of a `for` is that of its recast parts. -/
theorem Stmt.recast_counting (keyword : Token) (i : Option Stmt) (c : Expr) (step : Option Expr)
    (s : Stmt) : (Stmt.counting keyword i c step s).recast g =
      .counting (keyword.reline g) (Stmt.recast? g i) (c.recast g) (Expr.recast? g step)
        (s.recast g) := by
  cases i <;> cases step <;> rfl

theorem Expr.length_recastAll (es : List Expr) : (Expr.recastAll g es).length = es.length := by
  induction es with
  | nil => rfl
  | cons e es ih => simp [Expr.recastAll, ih]

namespace Grammar

/-- The tree of a phrase with its tokens on other lines and every identity struck out. -/
def Phrase.recast (g : Int → Int) : (p : Phrase) → p.Tree → p.Tree
  | .declarations, ss | .block, ss => Stmt.recastAll g ss
  | .declaration, s | .binding, s | .statement _, s => s.recast g
  | .start, s => Stmt.recast? g s
  | .function, fn => fn.recast g
  | .parameters, ps | .names, ps => ps.map (·.reline g)
  | .optional, e => Expr.recast? g e
  | .expression, e | .chain _, e | .operand _, e | .unary, e | .call, e | .primary, e => e.recast g
  | .arguments, es | .values, es => Expr.recastAll g es

variable {nearest : Bool} {p : Phrase} {ts us : List Token}

/-- A phrase can be derived on other lines as well. -/
theorem Derives.recast {t : p.Tree} (h : Derives nearest p ts t) :
    Derives nearest p (ts.map (·.reline g)) (p.recast g t) := by
  induction h with try simp only [List.map_append, List.map_cons, List.map_nil]
  | nothing => exact .nothing
  | next _ _ hs hss => exact .next hs hss
  | named hk hn _ hf => exact .named hk hn hf
  | declared hk _ hs => exact .declared hk hs
  | plain _ hs => exact .plain hs
  | unset hn hs => exact .unset hn hs
  | set hn he _ hs hv => exact .set hn he hv hs
  | evaluate _ hs he => exact .evaluate he hs
  | print hk _ hs he => exact .print hk he hs
  | giveBack hk _ hs he => exact .giveBack hk he hs
  | breakLoop hk hs => exact .breakLoop hk hs
  | block hk _ hb => exact .block hk hb
  | loop hk hl _ hr _ hc hs => exact .loop hk hl hc hr hs
  | @counting _ _ _ i _ c _ _ step _ _ d s n hk hl _ _ hm _ hr _ hi hc ht hs =>
    have hdefault : (c.getD (.literal n (.bool true))).recast g =
        (Expr.recast? g c).getD (.literal 0 (.bool true)) := by cases c <;> rfl
    rw [Phrase.recast, desugared_eq, Stmt.recast_counting, hdefault, ← desugared_eq]
    exact .counting hk hl hi hc hm ht hr hs
  | branch hk hl _ hr _ hc hs => exact .branch hk hl hc hr hs
  | branchElse hk hl _ hr _ hd ho _ hc hs hs' =>
    exact .branchElse hk hl hc hr hs hd ho hs'
  | startNothing hs => exact .startNothing hs
  | startVariable hk _ hs => exact .startVariable hk hs
  | startExpression _ hs he => exact .startExpression he hs
  | braced _ hb hs => exact .braced hs hb
  | function hl _ hr hk _ hp hb => exact .function hl hp hr hk hb
  | noParameters => exact .noParameters
  | someParameters _ hl hp => exact .someParameters hp (by simpa [Phrase.recast] using hl)
  | oneName hn => exact .oneName hn
  | moreNames hn hc _ hp => exact .moreNames hn hc hp
  | absent => exact .absent
  | present _ he => exact .present he
  | assign hn hq _ he => exact .assign hn hq he
  | loosest _ he => exact .loosest he
  | single _ he => exact .single he
  | logical _ ho _ hl hr => exact .logical hl ho hr
  | binary _ ho _ hl hr => exact .binary hl ho hr
  | tighter ht _ he => exact .tighter ht he
  | tightest _ he => exact .tightest he
  | not hk _ he => exact .not hk he
  | negate hk _ he => exact .negate hk he
  | called _ he => exact .called he
  | uncalled _ he => exact .uncalled he
  | call _ hl _ hr he ha => exact .call he hl ha hr
  | noArguments => exact .noArguments
  | someArguments _ hl ha =>
    exact .someArguments ha (by simpa [Phrase.recast, Expr.length_recastAll] using hl)
  | oneValue _ he => exact .oneValue he
  | moreValues _ hc _ he ha => exact .moreValues he hc ha
  | no hk => exact .no hk
  | yes hk => exact .yes hk
  | nil hk => exact .nil hk
  | number hk => exact .number hk
  | string hk => exact .string hk
  | name hk => exact .name hk
  | lambda hk _ hf => exact .lambda hk hf
  | group hl _ hr he => exact .group hl he hr

/-- Of two programs, one behind the other. -/
theorem program_append {q : List Stmt} (h' : Program nearest us q) :
    ∀ {ts : List Token} {p : List Stmt}, Program nearest ts p →
      Program nearest (ts ++ us) (p ++ q)
  | _, _, .nothing => h'
  | _, _, .next hs hss => by
    rw [List.append_assoc]
    exact .next hs (program_append h' hss)

end Grammar

end Lox
