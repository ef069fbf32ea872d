import Fexpr.Eval.Basic

/-!
# Eval/Promise — forcing delayed computations

A promise runs at most once to a value. While it runs it is marked, so that a promise that needs its
own value is an error; after a failure it is pending again.
-/

namespace Fexpr

namespace Promise

variable (r : Evaluator)

/-- **Forces a promise.** -/
def force (id : PromiseId) : Eval Value := do
  match ← Eval.gets fun s => s.store.promise id with
  | .forced v => return v
  | .forcing => Eval.fail .promiseCycle
  | .pending node scope => do
    Eval.modifyStore (·.setPromise id .forcing)
    Eval.trace fun _ => "forcing promise of " ++ node.text
    match ← Eval.attempt (r.eval node scope) with
    | .ok v => do
      Eval.modifyStore (·.setPromise id (.forced v))
      return v
    | .error e => do
      Eval.modifyStore (·.setPromise id (.pending node scope))
      Eval.fail e

/-- Forces a value if it is a promise. -/
def forceValue : Value → Eval Value
  | .promise id => force r id
  | v => return v

end Promise

end Fexpr
