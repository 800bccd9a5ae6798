import Lox.Proofs.Counting.Counterparts
import Lox.Proofs.Grammar

/-! Counting loops of programs, in every state that they are reached in. -/
namespace Lox.Reference

open Grammar (Derives)

/-- What the grammar calls a statement is no declaration. -/
theorem not_declares_of_derives {nearest d : Bool} {tokens : List Token} {s : Stmt}
    (h : Derives nearest (.statement d) tokens s) : s.declares = false := by
  cases h with
  | @counting _ _ _ initial _ _ _ _ step => cases initial <;> cases step <;> rfl
  | _ => rfl

variable {clock : Nat → Float} {w : World} {s loop body : Stmt} {m : Machine} {keyword : Token}
  {initial : Option Stmt} {condition step : Option Expr} {id : NodeId} {d : Bool}
  {tokens : List Token}

/-- In every state that programs without errors lead to, a counting loop with the addresses of the
resolver comes to what the direct rule says, by names: it ends if and only if that does, with the
same output, the same values of all variables, and the same completion or stop. Any of its clauses
may be left out. -/
theorem counting_goes_by_rule
    (hw : Reachable clock none (fun program => (resolve program).errors = []) w)
    (hs : s ∈ w.loaded) (hb : Derives true (.statement d) tokens body)
    (hloop : loop =
      .counting keyword initial (condition.getD (.literal id (.bool true))) step body)
    (hc : Reaches ⟨.stmt s, none, w.machine⟩ ⟨.stmt loop, none, m⟩) :
    (∃ β Γ scope t, Counterpart w.nextId β Γ scope t ⟨.stmt loop, none, m⟩) ∧
      ∀ β Γ scope t, Counterpart w.nextId β Γ scope t ⟨.stmt loop, none, m⟩ →
        Concur m.frame w.nextId β (Lox.executes none loop) m
          (counts scope keyword initial condition step body) t
          fun β' m' => SameCompletion (Same β' w.nextId m') := by
  subst hloop
  constructor
  · obtain ⟨β, t, h⟩ := exists_simulates hw
    exact exists_counterpart_of_reaches hc (h.counterpart hw.safe hw.faultless hs)
  · intro β Γ scope t h
    obtain ⟨context, hf⟩ := h.fine
    exact concur_counts h.here (h.level rfl) (not_declares_of_derives hb) hf

/-- The variable of `leftInTime`. -/
def unchanged : Token := ⟨.identifier, "a", .nil, 1⟩

/-- The tokens of a counting loop without a condition, which is left before its step. -/
def leftInTime : List Token :=
  [⟨.kwFor, "for", .nil, 1⟩, ⟨.leftParen, "(", .nil, 1⟩, ⟨.kwVar, "var", .nil, 1⟩, unchanged,
    ⟨.semicolon, ";", .nil, 1⟩, ⟨.semicolon, ";", .nil, 1⟩, unchanged,
    ⟨.rightParen, ")", .nil, 1⟩, ⟨.kwBreak, "break", .nil, 1⟩, ⟨.semicolon, ";", .nil, 1⟩]

/-- The loop that `leftInTime` is read as. -/
def loopLeftInTime : Stmt :=
  .counting ⟨.kwFor, "for", .nil, 1⟩ (some (.var unchanged none)) (.literal 1 (.bool true))
    (some (.reference 0 unchanged)) (.breakLoop ⟨.kwBreak, "break", .nil, 1⟩)

def timely : World :=
  World.load ⟨.start fun _ => 0, 0, [], []⟩ (parse leftInTime (.endOfInput 1) 0)

theorem counting_goes_by_rule_leftInTime :
    ∃ β Γ scope t t',
      Counterpart timely.nextId β Γ scope t ⟨.stmt loopLeftInTime, none, timely.machine⟩ ∧
        counts scope ⟨.kwFor, "for", .nil, 1⟩ (some (.var unchanged none)) none
          (some (.reference 0 unchanged)) (.breakLoop ⟨.kwBreak, "break", .nil, 1⟩) t
          (.ok .normal t') := by
  have hw : Reachable (fun _ => 0) none (fun program => (resolve program).errors = []) timely :=
    .load .start (Nat.le_refl 0) rfl rfl
  have hs : loopLeftInTime ∈ timely.loaded := List.mem_singleton.mpr rfl
  have hb : Derives true (.statement false)
      [⟨.kwBreak, "break", .nil, 1⟩, ⟨.semicolon, ";", .nil, 1⟩]
      (.breakLoop ⟨.kwBreak, "break", .nil, 1⟩) := .breakLoop rfl rfl
  have hloop : loopLeftInTime = .counting ⟨.kwFor, "for", .nil, 1⟩ (some (.var unchanged none))
      (none.getD (.literal 1 (.bool true))) (some (.reference 0 unchanged))
      (.breakLoop ⟨.kwBreak, "break", .nil, 1⟩) := rfl
  obtain ⟨m, hm⟩ : ∃ m, Lox.exec 9 none loopLeftInTime timely.machine = .ok .normal m := ⟨_, rfl⟩
  obtain ⟨⟨β, Γ, scope, t, hc⟩, hall⟩ := counting_goes_by_rule hw hs hb hloop .refl
  obtain ⟨r', hr', he⟩ := (hall β Γ scope t hc).forth _ ⟨settled_ok _ _, 9, hm⟩
  cases he with
  | ok ho hd =>
    cases hd
    exact ⟨β, Γ, scope, t, _, hc, hr'⟩

end Lox.Reference
