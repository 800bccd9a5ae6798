import Lox.Proofs.Execute.Reach
import Lox.Proofs.Tidy

/-! The parts of a task in the text of the program. What a task starts is a part of it, the body of
a function that is called apart. -/
namespace Lox

namespace Task

/-- The parts that a task has directly. -/
inductive Contains : Task → Task → Prop
  | inner {id e} : Contains (.expr (.group id e)) (.expr e)
  | operand {id op token e} : Contains (.expr (.unary id op token e)) (.expr e)
  | left {id l op token r} : Contains (.expr (.binary id l op token r)) (.expr l)
  | right {id l op token r} : Contains (.expr (.binary id l op token r)) (.expr r)
  | first {id l op token r} : Contains (.expr (.logical id l op token r)) (.expr l)
  | second {id l op token r} : Contains (.expr (.logical id l op token r)) (.expr r)
  | assigned {id name e} : Contains (.expr (.assign id name e)) (.expr e)
  | callee {id e paren es} : Contains (.expr (.call id e paren es)) (.expr e)
  | arguments {id e paren es} : Contains (.expr (.call id e paren es)) (.exprs es)
  | lambda {fn} : Contains (.expr (.lambda fn)) (.body fn)
  | head {e es} : Contains (.exprs (e :: es)) (.expr e)
  | tail {e es} : Contains (.exprs (e :: es)) (.exprs es)
  | expression {e} : Contains (.stmt (.expression e)) (.expr e)
  | print {e} : Contains (.stmt (.print e)) (.expr e)
  | initial {name e} : Contains (.stmt (.var name (some e))) (.expr e)
  | block {ss} : Contains (.stmt (.block ss)) (.stmts ss)
  | condition {keyword e yes no} : Contains (.stmt (.branch keyword e yes no)) (.expr e)
  | yes {keyword e yes no} : Contains (.stmt (.branch keyword e yes no)) (.stmt yes)
  | no {keyword e yes no} : Contains (.stmt (.branch keyword e yes (some no))) (.stmt no)
  | test {keyword e body} : Contains (.stmt (.loop keyword e body)) (.expr e)
  | turn {keyword e body} : Contains (.stmt (.loop keyword e body)) (.stmt body)
  | function {name fn} : Contains (.stmt (.function name fn)) (.body fn)
  | value {keyword e} : Contains (.stmt (.giveBack keyword (some e))) (.expr e)
  | statement {s ss} : Contains (.stmts (s :: ss)) (.stmt s)
  | next {s ss} : Contains (.stmts (s :: ss)) (.stmts ss)
  | statements {fn} : Contains (.body fn) (.stmts fn.body)

/-- A task is within another, at any depth. -/
abbrev Has : Task → Task → Prop := Relation.ReflTransGen Contains

/-- Declarations in a task stand in lists of statements only. -/
def Tidy : Task → Prop
  | expr e => e.Tidy
  | exprs es => Expr.TidyAll es
  | stmt s => s.Tidy
  | stmts ss => Stmt.TidyAll ss
  | body fn => fn.Tidy

def ids : Task → List NodeId
  | expr e => e.ids
  | exprs es => Expr.idsAll es
  | stmt s => s.ids
  | stmts ss => Stmt.idsAll ss
  | body fn => Stmt.idsAll fn.body

variable {k k' : Task}

theorem Contains.tidy (h : k.Contains k') (hk : k.Tidy) : k'.Tidy := by
  cases h with
  | inner | operand | assigned | expression | print | initial | value => exact hk
  | lambda | block | function => exact hk
  | left | first | callee | head | condition | test | statement => exact hk.1
  | right | second | arguments | tail | next => exact hk.2
  | yes => exact hk.2.1.2
  | no => exact hk.2.2.2
  | turn => exact hk.2.2
  | @statements fn =>
    obtain ⟨id, params, body⟩ := fn
    exact hk

theorem Has.tidy (h : k.Has k') (hk : k.Tidy) : k'.Tidy := by
  induction h with
  | refl => exact hk
  | tail _ h ih => exact h.tidy ih

theorem Contains.ids_sublist (h : k.Contains k') : k'.ids.Sublist k.ids := by
  have left {as bs : List NodeId} : as.Sublist (as ++ bs) := List.sublist_append_left ..
  have right {as bs : List NodeId} : bs.Sublist (as ++ bs) := List.sublist_append_right ..
  cases h with
  | expression | print | initial | block | value | statements => exact .refl _
  | inner | operand | assigned | left | first | callee | condition | test | head | statement =>
    exact left
  | tail | next | turn => exact right
  | right | second | arguments | yes => exact left.trans right
  | no => exact right.trans right
  | @lambda fn | @function _ fn =>
    obtain ⟨id, params, body⟩ := fn
    exact left

theorem Has.ids_sublist (h : k.Has k') : k'.ids.Sublist k.ids := by
  induction h with
  | refl => exact .refl _
  | tail _ h ih => exact h.ids_sublist.trans ih

end Task

end Lox
