import StackMachine.Machine.Native
import StackMachine.Store.Unfold

/-! The natives that every program can rely on. -/

namespace StackMachine

namespace World

def addText (w : World) (t : String) : Value × World :=
  match w with
  | { store, console, interrupted } =>
    let (value, store) := store.addText t
    (value, { store, console, interrupted })

def addList (w : World) (items : Array Value) : Value × World :=
  match w with
  | { store, console, interrupted } =>
    let (value, store) := store.addList items
    (value, { store, console, interrupted })

def addTexts (w : World) (texts : List String) : Value × World :=
  let (items, w) := texts.foldl (fun (items, w) t =>
    let (value, w) := w.addText t
    (items.push value, w)) (#[], w)
  w.addList items

end World

namespace Native

def invoke : Native := fun call world =>
  match call.arg? 0 with
  | some (.text ref) =>
    .call world (.name (world.store.text ref)) call.rest fun result world =>
      match result with
      | .ok v => .value world v
      | .error error => .rethrow world error
  | _ => call.refuse world "a function name"

/-- Wait. An interrupt that is pending ends the wait and is used up by it. -/
def sleep : Native := fun call world =>
  match call.arg? 0 with
  | some (.int duration) =>
    if duration < 0 then call.refuse world "a non-negative int"
    else if world.interrupted then .fail { world with interrupted := false }
      (.interrupted call.name)
    else .value world .null
  | _ => call.refuse world "a non-negative int"

def print : Native := fun call world =>
  let line := " ".intercalate (call.supplied.toList.map world.store.display)
  .value { world with console := world.console ++ line ++ "\n" } .null

def stackTrace : Native := fun call world =>
  let answer (frames : List TraceEntry) : NativeStep :=
    let (value, world) := world.addTexts (frames.map (·.text))
    .value world value
  match call.arg? 0 with
  | none => answer call.trace
  | some .null => answer call.trace
  | some (.int limit) =>
    if limit < 0 then call.refuse world "an optional non-negative int"
    else answer (call.trace.take limit.toInt.toNat)
  | _ => call.refuse world "an optional non-negative int"

end Native

namespace Registry

def core : Registry
  | "core.invoke" => some .invoke
  | "core.sleep" => some .sleep
  | "core.print" => some .print
  | "core.stack_trace" => some .stackTrace
  | _ => .none

end Registry

end StackMachine
