import NeoOS.Spec.Tcp

/-!
# The table of connections (`kernel/net/tcp.c`, `kernel/net/socket.c`)

The slots of `conns` and the stream sockets that are open, each with its slot. Here each
operation is one step, with everything `tcp_close` and `socket_accept4` do in it.

`tcp_find` and `tcp_find_listener` are left to the event: a segment may reach any slot in
use that does not listen, and a SYN any listener. So addresses, ports and `bind` play no
role, and neither do datagram sockets. A socket is closed when its last reference goes.
-/

namespace NeoOS.Tcp

/-- The slots, and for each open socket the index of its slot. -/
structure Table where
  tcbs : List Tcb
  socks : List ℕ

/-- The slot `i` is changed. -/
def Table.upd (n : Table) (i : ℕ) (f : Tcb → Tcb) : Table := { n with tcbs := n.tcbs.modify i f }

/-- The slot `tcp_alloc` takes. -/
def tcpAlloc (n : Table) : Option ℕ := n.tcbs.findIdx? fun t => !t.inUse

/-- The end of a connection that nobody accepted. -/
def orphan (n : Table) (c : ℕ) : Table := n.upd c fun t => tcpRelease (closeOrphan t)

/-- `tcp_close` of slot `i`, with the connections in its queue if it listens. -/
def tableClose (now i : ℕ) (n : Table) : Table :=
  match n.tcbs[i]? with
  | none => n
  | some t =>
    let n' := n.upd i fun t => (tcpClose now t).1
    let n' := if t.state = .listen then t.acceptQ.foldl orphan n' else n'
    if (tcpClose now t).2 then n'.upd i tcpRelease else n'

/-- A connection joins the queue of its listener, if there is room. -/
def joinBacklog (c : ℕ) (l : Tcb) : Tcb :=
  if l.acceptQ.length < backlogMax then { l with acceptQ := l.acceptQ ++ [c] } else l

/-- `tcp_input` of a segment for slot `i`. -/
def tableSegment (now i : ℕ) (s : Seg) (n : Table) : Table :=
  match n.tcbs[i]? with
  | none => n
  | some t =>
    if t.inUse ∧ t.state ≠ .listen then
      let n' := n.upd i fun t => (tcpSegment now s t).1
      match (tcpSegment now s t).2, t.parent with
      | true, some l => n'.upd l (joinBacklog i)
      | _, _ => n'
    else n

/-- What the allocations of `socket_accept4` come to. -/
inductive AcceptRes
  | ok
  /-- `sock_alloc` fails -/
  | noSocket
  /-- `fd_table_alloc` fails -/
  | noFd
  /-- `fd_table_get` fails -/
  | noFile

/-- `socket_accept4` on a socket whose slot is `l`. -/
def tableAccept (now l : ℕ) (res : AcceptRes) (n : Table) : Table :=
  match n.tcbs[l]? with
  | none => n
  | some t =>
    if t.state ≠ .listen then n
    else match t.acceptQ with
      | [] => n
      | c :: q =>
        let n' := n.upd l fun t => { t with acceptQ := q }
        match res with
        | .ok => { n' with socks := n'.socks ++ [c] }
        | .noSocket | .noFd => tableClose now c n'
        | .noFile => n'

/-- The calls that concern one slot only. -/
def Event.isCall : Event → Bool
  | .connect .. | .listen _ | .send _ | .recv _ | .shutdownRead | .shutdownWrite | .nodelay _ => true
  | _ => false

/-- A call on a slot. -/
def callTcb (now : ℕ) (e : Event) (t : Tcb) : Tcb := (step { t := t } (now, e)).t

/-- What can happen to the table. A call names the socket by its place in `socks`. -/
inductive TableEvent
  /-- `socket_create`; the flag says that there is a descriptor -/
  | socket (fd : Bool)
  | call (j : ℕ) (e : Event)
  | accept (j : ℕ) (res : AcceptRes)
  | close (j : ℕ)
  | segment (i : ℕ) (s : Seg)
  /-- a SYN for the listener `l` -/
  | syn (l rand dst src dport sport : ℕ) (s : Seg)
  | tick
  | flush (i : ℕ)

/-- One event, at the time `e.1`. -/
def tableStep (n : Table) (e : ℕ × TableEvent) : Table :=
  match e.2 with
  | .socket fd =>
    match tcpAlloc n with
    | none => n
    | some i =>
      let n' := n.upd i Tcb.allocated
      -- without a descriptor `sock_free` frees the socket and leaves the block
      if fd then { n' with socks := n'.socks ++ [i] } else n'
  | .call j ev =>
    match n.socks[j]? with
    | none => n
    | some i => if ev.isCall then n.upd i (callTcb e.1 ev) else n
  | .accept j res =>
    match n.socks[j]? with
    | none => n
    | some l => tableAccept e.1 l res n
  | .close j =>
    match n.socks[j]? with
    | none => n
    | some i => tableClose e.1 i { n with socks := n.socks.eraseIdx j }
  | .segment i s => tableSegment e.1 i s n
  | .syn l rand dst src dport sport s =>
    match n.tcbs[l]?, tcpAlloc n with
    | some t, some c =>
      if t.inUse ∧ t.state = .listen then n.upd c (passiveOpen e.1 rand dst src dport sport l s) else n
    | _, _ => n
  | .tick => { n with tcbs := n.tcbs.map (tcpTimer e.1) }
  | .flush i => n.upd i fun t => (txFlush t).1

end NeoOS.Tcp
