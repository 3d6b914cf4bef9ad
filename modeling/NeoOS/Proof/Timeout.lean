import NeoOS.Spec.Timeout

/-!
# Timeouts and the clock tick

A deadline counts whole ticks from the last one, so a call in the middle of a tick waits for less
than it counts, and three of the calls round down.
-/

namespace NeoOS.Timeout

variable {t n d m : ℕ} {c : Call}

/-- The duration in ticks, as the call rounds it. -/
def Call.ticks : Call → ℕ
  | .nanosleep sec nsec => (sec * 1000000000 + nsec + (nsPerTick - 1)) / nsPerTick
  | .poll _ ms => max 1 (ms / 10)
  | .select _ sec usec => max 1 ((sec * 1000 + usec / 1000) / 10)
  | .futexWait sec nsec => max 1 (sec * 100 + (nsec + (nsPerTick - 1)) / nsPerTick)
  | .sigtimedwait sec nsec => max 1 (sec * 100 + nsec / nsPerTick)

/-- The call does not return at once and its arithmetic does not wrap. -/
def Call.Fits : Call → Prop
  | .nanosleep sec nsec => sec * 1000000000 + nsec + nsPerTick ≤ 2 ^ 64
  | .poll nfds _ => nfds ≠ 0
  | .select nfds sec usec => nfds ≠ 0 ∧ sec * 1000 + usec / 1000 ≠ 0 ∧ sec * 1000 + usec / 1000 < 2 ^ 31
  | .futexWait sec nsec => sec * 100 + (nsec + (nsPerTick - 1)) / nsPerTick < 2 ^ 64
  | .sigtimedwait sec nsec => sec * 100 + nsec / nsPerTick < 2 ^ 64

end NeoOS.Timeout
