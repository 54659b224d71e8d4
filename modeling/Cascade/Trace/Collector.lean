import Cascade.SortedMap
import Cascade.Trace.Record

/-! # Collectors

A collector keeps every record it is given, in order. Of records sent by name, each collector holds
those sent to it and no others.
-/
namespace Cascade.Trace

structure Collector where
  records : List Record
deriving DecidableEq

namespace Collector

def empty : Collector := ⟨[]⟩

def log (c : Collector) (r : Record) : Collector := ⟨c.records ++ [r]⟩

def lines (c : Collector) : List String := c.records.map Record.render

def size (c : Collector) : Nat := c.records.length

def isEmpty (c : Collector) : Bool := c.records.isEmpty

@[simp] theorem records_log (c : Collector) (r : Record) : (c.log r).records = c.records ++ [r] :=
  rfl

/-- The collector of that name, empty before anything is sent to it. -/
def named (m : SortedMap Collector) (id : String) : Collector := (m.get? id).getD empty

def send (m : SortedMap Collector) (r : String × Record) : SortedMap Collector :=
  m.insert r.1 ((named m r.1).log r.2)

def gather (sent : List (String × Record)) : SortedMap Collector := sent.foldl send .empty

theorem named_send (m : SortedMap Collector) (r : String × Record) (id : String) :
    (named (send m r) id).records =
      if r.1 = id then (named m id).records ++ [r.2] else (named m id).records := by
  rw [named, send, SortedMap.get?_insert]
  split
  · rename_i h
    subst h
    rfl
  · rfl

theorem named_foldl_send (m : SortedMap Collector) (sent : List (String × Record)) (id : String) :
    (named (sent.foldl send m) id).records =
      (named m id).records ++ (sent.filter fun r => r.1 = id).map (·.2) := by
  induction sent generalizing m with
  | nil => simp
  | cons r rest ih =>
    rw [List.foldl_cons, ih, named_send]
    by_cases h : r.1 = id <;> simp [h]

/-- A collector holds the records sent to it and no others. -/
theorem named_gather (sent : List (String × Record)) (id : String) :
    (named (gather sent) id).records = (sent.filter fun r => r.1 = id).map (·.2) :=
  named_foldl_send .empty sent id

end Collector

end Cascade.Trace
