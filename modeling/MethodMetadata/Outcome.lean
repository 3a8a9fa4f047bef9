import MethodMetadata.Log.Record

/-! Steps that change a state, make log records and may fail. What a step did before it failed
stays. A pass runs a step on each item of a list and stops at the first failure. -/
namespace MethodMetadata

/-- How a step ended: with a value or an error, and either way in a state. -/
structure Outcome (σ ε α : Type) where
  result : Except ε α
  state : σ
  log : List LogRecord

/-- How far a pass came: the values of the items in front of the failure, in order. -/
structure Pass (σ ε β : Type) where
  done : List β
  failure : Option ε
  state : σ
  log : List LogRecord

namespace Pass

variable {σ ε α β : Type}

/-- Runs a step on items, behind the values and the records already there, which are held in
reverse. -/
def runOnto (step : σ → α → Outcome σ ε β) (done : List β) (log : List LogRecord) (state : σ) :
    List α → Pass σ ε β
  | [] => ⟨done.reverse, none, state, log.reverse⟩
  | item :: rest =>
    let outcome := step state item
    let log := outcome.log.reverseAux log
    match outcome.result with
    | .error e => ⟨done.reverse, some e, outcome.state, log.reverse⟩
    | .ok value => runOnto step (value :: done) log outcome.state rest

/-- Runs a step on each item in order, handing the state on. -/
def run (step : σ → α → Outcome σ ε β) (state : σ) (items : List α) : Pass σ ε β :=
  runOnto step [] [] state items

def result (pass : Pass σ ε β) : Except ε (List β) :=
  match pass.failure with
  | none => .ok pass.done
  | some e => .error e

end Pass

end MethodMetadata
