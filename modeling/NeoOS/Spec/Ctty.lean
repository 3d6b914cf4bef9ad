import Mathlib.Data.Nat.Notation
import Mathlib.Logic.Function.Basic

/-!
# Controlling terminals (`kernel/tty/tty.c`, `kernel/tty/pty.c`)

Processes, their descriptors of terminals, the pool of ptys and the controlling terminals. Each call is one step. A pty
that is opened in a slot gets a new number, `gen`, and every successful `TIOCSCTTY` is noted in `acquired`; both are
for the statements only, the code has neither. An exiting process closes its descriptors one by one.
-/

namespace NeoOS.Ctty

open Function (update)

def ptyMax : ℕ := 256

/-- A `struct tty`: that of a virtual terminal (the console among them), or of the slot of a pty. -/
inductive Tty
  | vt (k : ℕ)
  | pts (i : ℕ)
deriving DecidableEq

inductive End
  | master
  | slave
deriving DecidableEq

/-- A descriptor, by its operations and `priv`. `vt 0` is `/dev/tty0`, the active virtual terminal. -/
inductive Fd
  | pty (e : End) (i : ℕ)
  | vt (k : ℕ)
  /-- `/dev/tty` -/
  | ctty
deriving DecidableEq

/-- A slot of the pool; `built` says that `ptys[i]` has its struct. `refs` are `master_refs` and `slave_refs`. -/
structure Pty where
  built : Bool
  used : Bool
  refs : End → ℕ
  sid : ℕ
  gen : ℕ

structure Proc where
  sid : ℕ
  ctty : Option Tty
  exiting : Bool

/-- `fds` are the descriptors of all processes. -/
structure State where
  pids : List ℕ
  proc : ℕ → Proc
  fds : List (ℕ × Fd)
  ptys : ℕ → Pty
  acquired : List (ℕ × Tty × ℕ)

/-- The calls on a descriptor name it by its place in `fds`. -/
inductive Event
  | fork (p child : ℕ)
  | setsid (p : ℕ)
  /-- with the results of `kmalloc` and `devfs_register` -/
  | openPtmx (p : ℕ) (mem reg : Bool)
  | openPts (p i : ℕ)
  | openVt (p k : ℕ)
  | openCtty (p : ℕ)
  | dup (k : ℕ)
  | close (k : ℕ)
  /-- `TIOCSCTTY` while the virtual terminal `active` is the active one -/
  | sctty (k active : ℕ)
  | exit (p : ℕ)
  /-- the process has closed everything and is reaped -/
  | reap (p : ℕ)

def State.setProc (s : State) (p : ℕ) (x : Proc) : State := { s with proc := update s.proc p x }

/-- `pty_ref`. -/
def Pty.ref (pt : Pty) (e : End) : Pty := { pt with refs := update pt.refs e (pt.refs e + 1) }

/-- `pty_unref`. -/
def Pty.unref (pt : Pty) (e : End) : Pty :=
  let refs := update pt.refs e (pt.refs e - 1)
  { pt with refs := refs, used := pt.used && !(refs .master == 0 && refs .slave == 0) }

/-- `ptm_dup`, `pts_dup`, `ptm_close` and `pts_close`, by what they do to the counter. -/
def onPty (ptys : ℕ → Pty) (hook : Pty → End → Pty) : Fd → ℕ → Pty
  | .pty e i => update ptys i (hook (ptys i) e)
  | _ => ptys

/-- The slot `ptmx_open` claims: the first one that has its struct and is not used (`claim_existing_locked`), or the
first one without a struct if there is memory for it. -/
def claim (s : State) (mem : Bool) : Option ℕ :=
  match (List.range ptyMax).find? fun i => (s.ptys i).built && !(s.ptys i).used with
  | some i => some i
  | none => if mem then (List.range ptyMax).find? fun i => !(s.ptys i).built else none

/-- `ptmx_open`: the master is open, and `tty_obj_init` clears the terminal. -/
def ptmxOpen (p : ℕ) (mem reg : Bool) (s : State) : State :=
  match claim s mem with
  | none => s
  | some i =>
    let pt : Pty := ⟨true, true, fun e => if e = .master then 1 else 0, 0, (s.ptys i).gen + 1⟩
    if reg then { s with ptys := update s.ptys i pt, fds := (p, .pty .master i) :: s.fds }
    else { s with ptys := update s.ptys i { pt with used := false, refs := fun _ => 0 } }

/-- `pts_devfs_open`. -/
def ptsOpen (p i : ℕ) (s : State) : State :=
  if (s.ptys i).used then
    let pt := (s.ptys i).ref .slave
    { s with
      ptys := update s.ptys i { pt with sid := if pt.sid = 0 then (s.proc p).sid else pt.sid }
      fds := (p, .pty .slave i) :: s.fds }
  else s

/-- `ctty_of`. -/
def cttyOf (s : State) (p : ℕ) : Option Tty := (s.proc p).ctty

/-- `ctty_open`, which fails with `-ENXIO` without a controlling terminal. -/
def cttyOpen (p : ℕ) (s : State) : State :=
  match cttyOf s p with
  | none => s
  | some _ => { s with fds := (p, .ctty) :: s.fds }

/-- The terminal that an operation on a descriptor of the process reaches; an ioctl of a master is not one of the
terminal. -/
def terminal (s : State) (p active : ℕ) : Fd → Option Tty
  | .pty .master _ => none
  | .pty .slave i => some (.pts i)
  | .vt k => some (.vt (if k = 0 then active else k))
  | .ctty => cttyOf s p

/-- The number of the pty that is or was last open in the terminal. -/
def State.gen (s : State) : Tty → ℕ
  | .vt _ => 0
  | .pts i => (s.ptys i).gen

/-- `TIOCSCTTY`: only the leader of a session may. -/
def tiocsctty (p : ℕ) (t : Tty) (s : State) : State :=
  let x := s.proc p
  if p ≠ x.sid then s
  else
    { s.setProc p { x with ctty := some t } with
      acquired := (x.sid, t, s.gen t) :: s.acquired
      ptys :=
        match t with
        | .vt _ => s.ptys
        | .pts i => update s.ptys i { s.ptys i with sid := x.sid } }

/-- The process may make a call. -/
def State.runs (s : State) (p : ℕ) : Prop := p ∈ s.pids ∧ (s.proc p).exiting = false

instance (s : State) (p : ℕ) : Decidable (s.runs p) := inferInstanceAs (Decidable (_ ∧ _))

/-- The descriptors of the process. -/
def State.own (s : State) (p : ℕ) : List Fd := (s.fds.filter (·.1 = p)).map Prod.snd

def step (s : State) : Event → State
  | .fork p child =>
    if s.runs p ∧ child ∉ s.pids then
      { s.setProc child (s.proc p) with
        pids := child :: s.pids
        fds := (s.own p).map (child, ·) ++ s.fds
        ptys := (s.own p).foldl (fun ptys => onPty ptys Pty.ref) s.ptys }
    else s
  | .setsid p => if s.runs p then s.setProc p { s.proc p with sid := p } else s
  | .openPtmx p mem reg => if s.runs p then ptmxOpen p mem reg s else s
  | .openPts p i => if s.runs p then ptsOpen p i s else s
  | .openVt p k => if s.runs p then { s with fds := (p, .vt k) :: s.fds } else s
  | .openCtty p => if s.runs p then cttyOpen p s else s
  | .dup k =>
    match s.fds[k]? with
    | some x => if s.runs x.1 then { s with fds := x :: s.fds, ptys := onPty s.ptys Pty.ref x.2 } else s
    | none => s
  | .close k =>
    match s.fds[k]? with
    | some x => { s with fds := s.fds.eraseIdx k, ptys := onPty s.ptys Pty.unref x.2 }
    | none => s
  | .sctty k active =>
    match s.fds[k]? with
    | some x =>
      match terminal s x.1 active x.2 with
      | some t => if s.runs x.1 then tiocsctty x.1 t s else s
      | none => s
    | none => s
  | .exit p => if s.runs p then s.setProc p { s.proc p with exiting := true } else s
  | .reap p => if (s.proc p).exiting = true ∧ s.own p = [] then { s with pids := s.pids.filter (· ≠ p) } else s

/-- One process, the leader of its session. -/
def State.initial (p : ℕ) : State where
  pids := [p]
  proc _ := ⟨p, none, false⟩
  fds := []
  ptys _ := ⟨false, false, fun _ => 0, 0, 0⟩
  acquired := []

end NeoOS.Ctty
