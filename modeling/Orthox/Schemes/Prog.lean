import Mathlib

/-! Programs that act on a shared state one action at a time.

    A program is a tree of actions, each followed by a continuation for its answer. Run alone it is a function of the state
    (`run`); run beside others, another task may act between any two of its actions. -/

namespace Schemes

/-- A program over actions `Act` with answers `Resp`. -/
inductive Prog (Act : Type) (Resp : Act → Type) (α : Type) : Type
  | ret (a : α) : Prog Act Resp α
  | act (a : Act) (k : Resp a → Prog Act Resp α) : Prog Act Resp α

namespace Prog

variable {Act : Type} {Resp : Act → Type} {α β σ : Type}

def bind : Prog Act Resp α → (α → Prog Act Resp β) → Prog Act Resp β
  | .ret a, f => f a
  | .act a k, f => .act a fun r => (k r).bind f

instance : Monad (Prog Act Resp) where
  pure := .ret
  bind := bind

/-- The program run by itself. It ends without a result when an action cannot be taken. -/
def run (exec : (a : Act) → σ → Option (Resp a × σ)) : Prog Act Resp α → σ → Option α × σ
  | .ret a, s => (some a, s)
  | .act a k, s =>
    match exec a s with
    | none => (none, s)
    | some (r, s') => run exec (k r) s'

end Prog

end Schemes
