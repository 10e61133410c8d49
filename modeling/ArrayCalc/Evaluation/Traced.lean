import ArrayCalc.Evaluation.Error

/-! Computations that may fail and leave a trace. The trace tells each reduction and each element
read, in order; a failure keeps what was traced before it. -/
namespace ArrayCalc

inductive TraceEvent where
  | reduced (left : Float) (op : Operator) (right result : Float)
  | read (name : String) (slot : Nat) (value : Float)
deriving DecidableEq, Repr

def TraceEvent.message : TraceEvent → String
  | reduced left op right result =>
    Number.text left ++ " " ++ String.singleton op.symbol ++ " " ++ Number.text right ++ " = " ++
      Number.text result
  | read name slot value => name ++ "[" ++ toString slot ++ "] = " ++ Number.text value

structure Traced (α : Type) where
  events : List TraceEvent
  outcome : Except EvalError α

namespace Traced

variable {α β : Type}

def fail (e : EvalError) : Traced α := ⟨[], .error e⟩

def tell (event : TraceEvent) : Traced Unit := ⟨[event], .ok ()⟩

/-- Goes on with the result of a computation; the traces follow one another. -/
def andThen (first : Traced α) (next : α → Traced β) : Traced β :=
  match first.outcome with
  | .ok a => ⟨first.events ++ (next a).events, (next a).outcome⟩
  | .error e => ⟨first.events, .error e⟩

instance : Monad Traced where
  pure a := ⟨[], .ok a⟩
  bind := andThen

def ofOption (e : EvalError) : Option α → Traced α
  | some a => pure a
  | none => fail e

end Traced

end ArrayCalc
