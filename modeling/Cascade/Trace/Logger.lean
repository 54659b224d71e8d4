import Cascade.Trace.Record

/-! # Where records go

A record is kept by a collector, dropped, or sent to the diagnostics as a report of its line.
-/
namespace Cascade.Trace

open Json (Value)

inductive Severity where
  | trace
  | debug
  | info
  | warn
  | error
deriving DecidableEq, Repr

namespace Severity

def name : Severity → String
  | trace => "TRACE"
  | debug => "DEBUG"
  | info => "INFO"
  | warn => "WARN"
  | error => "ERROR"

def all : List Severity := [trace, debug, info, warn, error]

/-- Numbers go up with the detail, from one for errors. -/
def number : Severity → Nat
  | trace => 5
  | debug => 4
  | info => 3
  | warn => 2
  | error => 1

/-- A name in any case, or a number, with a plus sign if one likes. -/
def ofString? (text : String) : Option Severity :=
  let digits := match text.toList with
    | '+' :: rest => rest
    | cs => cs
  if !digits.isEmpty && digits.all Char.isDigit then
    all.find? fun s => s.number == Nat.ofDigitChars 10 digits 0
  else all.find? fun s => s.name == text.toUpper

end Severity

structure Report where
  severity : Severity
  message : String
  fields : List (String × Value)

inductive Logger where
  | collector (id : String)
  | silent
  | stream (severity : Severity)
deriving DecidableEq, Repr

namespace Logger

/-- The stream that is used unless a pipeline says otherwise. -/
def default : Logger := stream .info

/-- Streams know two severities: `debug`, and `info` for all others. -/
def report? : Logger → Record → Option Report
  | stream severity, r =>
    some ⟨if severity = .debug then .debug else .info, r.render,
      [("level", .ofNat r.level.toNat), ("kind", .string r.kind)]⟩
  | _, _ => none

end Logger

end Cascade.Trace
