/-! # The subscriber of the diagnostics

At most one subscriber is ever installed; it stays.
-/
namespace Cascade.Trace

abbrev Subscriber := Option String

/-- Installs a subscriber unless there is one, and tells whether it did. -/
def Subscriber.install (s : Subscriber) (filter : String) : Bool × Subscriber :=
  match s with
  | none => (true, some filter)
  | some _ => (false, s)

theorem Subscriber.install_again (s : Subscriber) (f g : String) :
    ((s.install f).2.install g).1 = false := by
  cases s <;> rfl

end Cascade.Trace
