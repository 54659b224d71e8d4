import Cascade.Json.Decode
import Cascade.Level

/-! # Trace records

One record for one executed instruction. As a text it is a JSON object with all six fields, each
once, among others that do not matter, or an array of exactly the six values in their order.
-/
namespace Cascade.Trace

open Json (Node Literal Value)

structure Record where
  message : String
  level : Level
  kind : String
  handler : String
  options : String
  state : String
deriving DecidableEq, Inhabited

namespace Record

def indentation (level : Level) : String :=
  String.ofList (List.replicate (2 * level.toNat) ' ')

def render (r : Record) : String :=
  indentation r.level ++ "-> " ++ r.message ++ " type=" ++ r.kind ++ " handler=" ++ r.handler
    ++ " options=" ++ r.options ++ " state=" ++ r.state

def value (r : Record) : Value :=
  .ofMap (.ofList [("message", .string r.message), ("level", .ofNat r.level.toNat),
    ("kind", .string r.kind), ("handler", .string r.handler), ("options", .string r.options),
    ("state", .string r.state)])

def stringOf? : Node → Option String
  | .string s => s.string?
  | _ => none

def levelOf? : Node → Option Level
  | .number n => n.word?.map .ofNat
  | _ => none

def ofItems? : List Node → Option Record
  | [message, level, kind, handler, options, state] => do
    return ⟨← stringOf? message, ← levelOf? level, ← stringOf? kind, ← stringOf? handler,
      ← stringOf? options, ← stringOf? state⟩
  | _ => none

def only? (name : String) (fields : List (String × Node)) : Option Node :=
  match fields.filter fun f => f.1 = name with
  | [(_, node)] => some node
  | _ => none

/-- Names have to be proper strings, also those of fields that do not matter. -/
def ofFields? (fields : List (Literal × Node)) : Option Record := do
  let named ← fields.mapM fun f => do return (← f.1.string?, f.2)
  ofItems? [← only? "message" named, ← only? "level" named, ← only? "kind" named,
    ← only? "handler" named, ← only? "options" named, ← only? "state" named]

def ofText? (text : String) : Option Record :=
  match Node.ofText? text with
  | some (.array items) => ofItems? items
  | some (.object fields) => ofFields? fields
  | _ => none

end Record

end Cascade.Trace
