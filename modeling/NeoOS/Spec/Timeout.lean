import NeoOS.Spec.Futex

/-!
# Timeouts (`kernel/syscall/sys_poll.c`, `sys_misc.c`, `sys_signal.c`, `kernel/ipc/futex.c`)

How each call turns its timeout into a tick. Times are in nanoseconds since the clock started,
seconds and nanoseconds are those the call accepts, and `nfds` is the number of descriptors that
`poll` or `select` looks at.
-/

namespace NeoOS.Timeout

/-- `NS_PER_TICK`. -/
def nsPerTick : ℕ := 10000000

inductive Call
  | nanosleep (sec nsec : ℕ)
  | poll (nfds ms : ℕ)
  | select (nfds sec usec : ℕ)
  | futexWait (sec nsec : ℕ)
  | sigtimedwait (sec nsec : ℕ)

/-- `deadline_from_ms`. -/
def deadlineFromMs (now ms : ℕ) : ℕ := if ms = 0 then 0 else (now + if ms / 10 = 0 then 1 else ms / 10) % 2 ^ 64

/-- The `int` of milliseconds in `sys_select`. -/
def selectMs (sec usec : ℕ) : ℕ :=
  let ms := (sec * 1000 + usec / 1000) % 2 ^ 32
  if 2 ^ 31 ≤ ms then 0 else ms

/-- The tick from which on the call reports a timeout; 0 is at once. -/
def Call.deadline (now : ℕ) : Call → ℕ
  | .nanosleep sec nsec =>
    let ns := (sec * 1000000000 + nsec) % 2 ^ 64
    let ticks := (ns + (nsPerTick - 1)) % 2 ^ 64 / nsPerTick
    let ticks := if ticks = 0 ∧ 0 < ns then 1 else ticks
    if ticks = 0 then 0 else (now + ticks) % 2 ^ 64
  | .poll nfds ms => if nfds = 0 then 0 else deadlineFromMs now ms
  | .select nfds sec usec => if nfds = 0 then 0 else deadlineFromMs now (selectMs sec usec)
  | .futexWait sec nsec => Futex.deadlineOf now (sec, nsec)
  | .sigtimedwait sec nsec =>
    let ticks := (sec * Futex.timerHz + nsec / (1000000000 / Futex.timerHz)) % 2 ^ 64
    (now + if ticks = 0 then 1 else ticks) % 2 ^ 64

end NeoOS.Timeout
