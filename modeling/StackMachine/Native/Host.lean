import StackMachine.Native.Core
import StackMachine.Text.Decimal

/-! Natives of a host that looks into the machine: they show how they were called, fail in every way
a native can fail, and catch the errors of the calls they make. -/

namespace StackMachine

namespace NativeCall

def firstText (c : NativeCall) (w : World) : String :=
  match c.arg? 0 with
  | some v => w.store.display v
  | none => ""

end NativeCall

namespace TraceEntry

def value (e : TraceEntry) (w : World) : Value × World :=
  let (module, w) := w.addText e.module
  let (function, w) := w.addText e.function
  let line := match e.line with
    | some line => Value.int (.ofNat line.toNat)
    | none => .null
  w.addList #[module, function, line]

end TraceEntry

namespace Native

def probe : Native := fun call world =>
  let interrupted := world.interrupted
  let (name, world) := world.addText call.name
  let (args, world) := world.addList call.args
  let (value, world) := world.addList
    #[name, .int (.ofNat call.function.toNat), .int (.ofNat call.argc), args,
      .int (.ofNat call.functions), .bool interrupted]
  .value world value

def nothing : Native := fun _ world =>
  .value world .null

def undefined : Native := fun _ world =>
  .value world .undefined

def silent : Native := fun _ world =>
  .reply world .silent

def fail : Native := fun call world =>
  .fail world (.native call.name (call.firstText world))

def divide : Native := fun _ world =>
  .fail world (.operation .divisionByZero)

def fault : Native := fun _ world =>
  .fail world (.fault (.reported "host fault"))

def interrupt : Native := fun _ world =>
  .value { world with interrupted := true } .null

def trace : Native := fun call world =>
  let frames := match call.arg? 0 with
    | some (.int limit) => if limit < 0 then call.trace else call.trace.take limit.toInt.toNat
    | _ => call.trace
  let (items, world) := frames.foldl (fun (items, world) entry =>
    let (value, world) := entry.value world
    (items.push value, world)) (#[], world)
  let (value, world) := world.addList items
  .value world value

def attempt (callee : String → Callee) : Native := fun call world =>
  .call world (callee (call.firstText world)) call.rest fun result world =>
    match result with
    | .ok v =>
      let (mark, world) := world.addText "ok"
      let (value, world) := world.addList #[mark, v]
      .value world value
    | .error error =>
      let (value, world) := world.addTexts ["err", error.kind.name, error.message]
      .value world value

/-- The function of that number; 65535 stands for what is no number. -/
def numbered (text : String) : Callee :=
  .id (.ofNat ((Text.unsigned? UInt16.size text).getD 65535))

def twice : Native := fun call world =>
  let callee := Callee.name (call.firstText world)
  .call world callee call.rest fun first world =>
    match first with
    | .error error => .rethrow world error
    | .ok v =>
      .call world callee call.rest fun second world =>
        match second with
        | .error error => .rethrow world error
        | .ok w =>
          let (value, world) := world.addList #[v, w]
          .value world value

end Native

namespace Registry

def host : Registry
  | "host.probe" => some .probe
  | "host.nothing" => some .nothing
  | "host.undefined" => some .undefined
  | "host.silent" => some .silent
  | "host.fail" => some .fail
  | "host.fail_true" => some .divide
  | "host.fault" => some .fault
  | "host.interrupt" => some .interrupt
  | "host.trace" => some .trace
  | "host.try" => some (.attempt .name)
  | "host.try_id" => some (.attempt Native.numbered)
  | "host.twice" => some .twice
  | name => core name

end Registry

end StackMachine
