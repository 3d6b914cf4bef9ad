import Mathlib.Algebra.Group.Nat.Defs
import Mathlib.Data.Int.Order.Basic
import Mathlib.Logic.Function.Basic

/-!
# The console parser (`kernel/tty/kvt.c`)

`feed_byte` with everything it does to the screen. An access outside the grid or outside `params` is a
`Fault`, and so is a call that `feed_byte` makes of itself beyond the given depth. The sums that the code
leaves to `int` wrap.
-/

namespace NeoOS.Console

def maxCols : ℤ := 200

def maxRows : ℤ := 64

def scrollback : ℤ := 256

/-- `VC_RING` -/
def vcRing : ℤ := scrollback + maxRows

structure Cell where
  ch : UInt8
  fg : ℕ
  bg : ℕ
  bold : Bool
  reverse : Bool

/-- `BLANK`: grey on black -/
def blank : Cell := ⟨0, 7, 0, false, false⟩

inductive PState
  | ground
  | esc
  | csi
  | escSkip
deriving DecidableEq

structure Kvt where
  cols : ℤ
  rows : ℤ
  ring : ℤ → ℤ → Cell
  top : ℤ
  history : ℤ
  view : ℤ
  cx : ℤ
  cy : ℤ
  wrapPending : Bool
  cursorVisible : Bool
  pen : Cell
  pstate : PState
  params : ℤ → ℤ
  nparam : ℤ
  priv : Bool
  bell : Bool

inductive Fault
  /-- an access outside the grid or the parameters -/
  | bounds
  /-- the recursion is too deep -/
  | depth

def wrap (x : ℤ) : ℤ := Int.bmod x (2 ^ 32)

def clampi (v lo hi : ℤ) : ℤ := if v < lo then lo else if hi < v then hi else v

/-- The store to `row_ptr(v, row)[col]`. -/
def Kvt.put (v : Kvt) (row col : ℤ) (cell : Cell) : Except Fault Kvt :=
  let idx := (v.top + row).tmod vcRing
  if (0 ≤ row ∧ row < v.rows) ∧ (0 ≤ col ∧ col < v.cols) ∧ 0 ≤ idx ∧ idx < vcRing then
    .ok { v with ring := Function.update v.ring idx (Function.update (v.ring idx) col cell) }
  else .error .bounds

/-- `params[i]` -/
def Kvt.param (v : Kvt) (i : ℤ) : Except Fault ℤ := if 0 ≤ i ∧ i < 8 then .ok (v.params i) else .error .bounds

/-- The columns, or the rows, from `a` up to `b`. -/
def span (a b : ℤ) : List ℤ := (List.range (b - a).toNat).map fun k : ℕ => a + k

/-- Stores `BLANK` from column `c0` up to `c1`, and no further than the row goes. -/
def eraseCells (v : Kvt) (row c0 c1 : ℤ) : Except Fault Kvt :=
  (span c0 (min c1 v.cols)).foldlM (fun v c => v.put row c blank) v

def snapBottom (v : Kvt) : Kvt := { v with view := 0 }

def scrollUp (v : Kvt) : Except Fault Kvt :=
  let v := { v with
    top := (v.top + 1).tmod vcRing
    history := if v.history < scrollback then v.history + 1 else v.history }
  eraseCells v (v.rows - 1) 0 v.cols

def indexDown (v : Kvt) : Except Fault Kvt :=
  let v := snapBottom v
  if v.cy < v.rows - 1 then .ok { v with cy := v.cy + 1 } else scrollUp v

/-- The store of `put_char`, and the step of the cursor. -/
def putCell (v : Kvt) (ch : UInt8) : Except Fault Kvt := do
  let v ← v.put v.cy v.cx { v.pen with ch := ch }
  return if v.cols ≤ v.cx + 1 then { v with cx := v.cols - 1, wrapPending := true } else { v with cx := v.cx + 1 }

def putChar (v : Kvt) (ch : UInt8) : Except Fault Kvt :=
  let v := snapBottom v
  if v.wrapPending then do
    let v ← indexDown { v with cx := 0 }
    putCell { v with wrapPending := false } ch
  else putCell v ch

def kvtInit (cols rows : ℤ) : Kvt where
  cols := clampi cols 1 maxCols
  rows := clampi rows 1 maxRows
  ring _ _ := blank
  top := 0
  history := 0
  view := 0
  cx := 0
  cy := 0
  wrapPending := false
  cursorVisible := true
  pen := blank
  pstate := .ground
  params _ := 0
  nparam := 0
  priv := false
  bell := false

def eraseRows (v : Kvt) (r0 r1 : ℤ) : Except Fault Kvt := (span r0 r1).foldlM (fun v r => eraseCells v r 0 v.cols) v

def eraseLine (v : Kvt) (mode : ℤ) : Except Fault Kvt :=
  if mode = 0 then eraseCells v v.cy v.cx v.cols
  else if mode = 1 then eraseCells v v.cy 0 (v.cx + 1)
  else eraseCells v v.cy 0 v.cols

def eraseDisplay (v : Kvt) (mode : ℤ) : Except Fault Kvt :=
  if mode = 0 then do
    let v ← eraseCells v v.cy v.cx v.cols
    eraseRows v (v.cy + 1) v.rows
  else if mode = 1 then do
    let v ← eraseRows v 0 v.cy
    eraseCells v v.cy 0 (v.cx + 1)
  else eraseRows v 0 v.rows

/-- `ansi_to_con` of 0 to 7: the bits of red and blue change places -/
def ansiToCon (a : ℤ) : ℕ := [0, 4, 2, 6, 1, 5, 3, 7].getD a.toNat 0

/-- What one parameter of SGR does to the pen. -/
def sgr (pen : Cell) (p : ℤ) : Cell :=
  if p = 0 then blank
  else if p = 1 then { pen with bold := true, fg := if pen.fg < 8 then pen.fg + 8 else pen.fg }
  else if p = 7 then { pen with reverse := true }
  else if p = 22 then { pen with bold := false, fg := if 8 ≤ pen.fg then pen.fg - 8 else pen.fg }
  else if p = 27 then { pen with reverse := false }
  else if 30 ≤ p ∧ p ≤ 37 then { pen with fg := ansiToCon (p - 30) + if pen.bold then 8 else 0 }
  else if p = 39 then { pen with fg := 7 }
  else if 40 ≤ p ∧ p ≤ 47 then { pen with bg := ansiToCon (p - 40) }
  else if p = 49 then { pen with bg := 0 }
  else if 90 ≤ p ∧ p ≤ 97 then { pen with fg := ansiToCon (p - 90) + 8 }
  else if 100 ≤ p ∧ p ≤ 107 then { pen with bg := ansiToCon (p - 100) + 8 }
  else pen

def applySgr (v : Kvt) : Except Fault Kvt :=
  (span 0 (if v.nparam ≠ 0 then v.nparam else 1)).foldlM (fun v i => return { v with pen := sgr v.pen (← v.param i) }) v

/-- `P(v, i, def)` -/
def Kvt.arg (v : Kvt) (i dflt : ℤ) : Except Fault ℤ :=
  if i < v.nparam then do
    let p ← v.param i
    return if p ≠ 0 then p else dflt
  else return dflt

/-- `\x1b[?25h` and `\x1b[?25l` -/
def cursorMode (v : Kvt) (on : Bool) : Except Fault Kvt :=
  if v.priv then
    (span 0 v.nparam).foldlM (fun v i => return if (← v.param i) = 25 then { v with cursorVisible := on } else v) v
  else return v

def Kvt.column (v : Kvt) (x : ℤ) : Kvt := { v with cx := clampi (wrap x) 0 (v.cols - 1) }

def Kvt.line (v : Kvt) (y : ℤ) : Kvt := { v with cy := clampi (wrap y) 0 (v.rows - 1) }

def dispatchCsi (v : Kvt) (final : Char) : Except Fault Kvt := do
  let v := { v with wrapPending := false }
  match final with
  | 'A' => return v.line (v.cy - (← v.arg 0 1))
  | 'B' => return v.line (v.cy + (← v.arg 0 1))
  | 'C' => return v.column (v.cx + (← v.arg 0 1))
  | 'D' => return v.column (v.cx - (← v.arg 0 1))
  | 'G' => return v.column ((← v.arg 0 1) - 1)
  | 'H' | 'f' => return (v.line ((← v.arg 0 1) - 1)).column ((← v.arg 1 1) - 1)
  | 'J' => eraseDisplay v (← v.arg 0 0)
  | 'K' => eraseLine v (← v.arg 0 0)
  | 'm' => applySgr v
  | 'h' => cursorMode v true
  | 'l' => cursorMode v false
  | _ => return v

def csiReset (v : Kvt) : Kvt := { v with nparam := 0, params := fun _ => 0, priv := false }

/-- A byte in `KVT_GROUND`. -/
def feedGround (v : Kvt) (c : UInt8) : Except Fault Kvt :=
  if c = 0x1b then return { v with pstate := .esc }
  else if c = 0x0a ∨ c = 0x0b ∨ c = 0x0c then indexDown v
  else if c = 0x0d then return { snapBottom v with cx := 0, wrapPending := false }
  else if c = 0x08 then return { snapBottom v with cx := if v.cx ≠ 0 then v.cx - 1 else 0, wrapPending := false }
  else if c = 0x09 then return { snapBottom v with cx := clampi (v.cx / 8 * 8 + 8) 0 (v.cols - 1) }
  else if c = 0x07 then return { v with bell := true }
  else if c < 0x20 ∨ c = 0x7f then return v
  else putChar v c

/-- A byte in `KVT_ESC`: `[`, `c`, and one of `()*+`. -/
def feedEsc (v : Kvt) (c : UInt8) : Kvt :=
  if c = 0x5b then { csiReset v with pstate := .csi }
  else if c = 0x63 then kvtInit v.cols v.rows
  else if 0x28 ≤ c ∧ c ≤ 0x2b then { v with pstate := .escSkip }
  else { v with pstate := .ground }

/-- A digit of a parameter. -/
def feedDigit (v : Kvt) (d : ℕ) : Except Fault Kvt := do
  let v := if v.nparam = 0 then { v with nparam := 1 } else v
  let p ← v.param (v.nparam - 1)
  return { v with params := Function.update v.params (v.nparam - 1) (wrap (p * 10 + d)) }

/-- `feed_byte`, with `depth` calls of itself at most. -/
def feedByte : ℕ → Kvt → UInt8 → Except Fault Kvt
  | 0, _, _ => .error .depth
  | depth + 1, v, c =>
    match v.pstate with
    | .ground => feedGround v c
    | .esc => return feedEsc v c
    | .escSkip => return { v with pstate := .ground }
    | .csi =>
      if 0x30 ≤ c ∧ c ≤ 0x39 then feedDigit v (c.toNat - 0x30)
      else if c = 0x3b then return { v with nparam := if v.nparam < 8 then v.nparam + 1 else v.nparam }
      else if c = 0x3f then return { v with priv := true }
      else if 0x40 ≤ c ∧ c ≤ 0x7e then return { (← dispatchCsi v (Char.ofNat c.toNat)) with pstate := .ground }
      else if c < 0x20 then feedByte depth v c
      else return { v with pstate := .ground }

def kvtFeed (depth : ℕ) (v : Kvt) (bytes : List UInt8) : Except Fault Kvt := bytes.foldlM (feedByte depth) v

end NeoOS.Console
