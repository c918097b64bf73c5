import Mobility.Fault

/-!
# Seconds

Simulated time is counted in whole seconds and ends with `Clock.last`. Sums with a duration stop at
the last second instead of passing it; going on by one second is a fault at the end of time.
-/

set_option autoImplicit false

namespace Mobility.Clock

/-- The last second that can be named. -/
def last : Nat := 0x100000000 - 1

/-- The second `duration` seconds after `now`, or the last one. -/
def after (now duration : Nat) : Nat := min (now + duration) last

/-- The second after `now`. -/
def next (now : Nat) : Except Fault Nat :=
  if now < last then .ok (now + 1) else .error .pastLastSecond

theorem lt_after {now duration : Nat} (hn : now < last) (hd : 0 < duration) :
    now < after now duration := by
  unfold after
  omega

end Mobility.Clock
