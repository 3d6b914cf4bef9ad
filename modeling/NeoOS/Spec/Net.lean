import NeoOS.Lib.Inet
import NeoOS.Lib.Word

/-!
# IPv4 and UDP over the loopback device (`kernel/net/net.c`, `kernel/net/route.c`)

The send path from `net_udp_output` to the packet a device is given, and the receive path from
`net_ipv4_input` to the call that hands a datagram over. A packet is the list of its bytes, and a struct
that the source overlays on the buffer is its fields, with `bytes` and `ofBytes` for the overlay. A field
that ends in `_n` in the source is in network order, here too.

Left out: the packet counters, the nesting depth and the deferred queue of `loopback_transmit`, what ICMP
and TCP do with a packet, and the gateway of a route.
-/

namespace NeoOS.Net

open Inet

/-- `htons_k`, which is also `ntohs_k`. -/
def htons (v : UInt16) : UInt16 := UInt16.ofNat (v.toNat % 256 * 256 + v.toNat / 256)

/-! ## Checksum -/

/-- `checksum_partial`. -/
def checksumPartial : List UInt8 → ℕ → ℕ
  | [], sum => sum
  | [a], sum => (sum + a.toNat * 256) % u32
  | a :: b :: l, sum => checksumPartial l ((sum + (a.toNat * 256 + b.toNat)) % u32)

/-- `checksum_fold`. -/
def checksumFold (sum : ℕ) : UInt16 := UInt16.ofNat (65535 - foldCarries sum)

/-- `net_checksum`: both loops in one. -/
def netChecksum (data : List UInt8) (start : ℕ) : UInt16 := checksumFold (checksumPartial data start)

/-- `ip_pseudo_sum`. -/
def ipPseudoSum (src dst : UInt32) (proto : UInt8) (l4Len : UInt16) : ℕ :=
  let sum := checksumPartial (le32 dst) (checksumPartial (le32 src) 0)
  checksumPartial (le16 (htons l4Len)) (checksumPartial [0, proto] sum)

/-- `net_l4_checksum`. -/
def netL4Checksum (src dst : UInt32) (proto : UInt8) (seg : List UInt8) : UInt16 :=
  let ck := checksumFold (checksumPartial seg (ipPseudoSum src dst proto (UInt16.ofNat seg.length)))
  htons (if ck ≠ 0 then ck else 0xFFFF)

/-- `net_l4_verify`. -/
def netL4Verify (src dst : UInt32) (proto : UInt8) (seg : List UInt8) : Bool :=
  checksumFold (checksumPartial seg (ipPseudoSum src dst proto (UInt16.ofNat seg.length))) == 0

/-! ## Headers -/

/-- `struct ipv4_header`. -/
structure Ipv4Header where
  versionIhl : UInt8
  tos : UInt8
  totalLength : UInt16
  id : UInt16
  flagsFrag : UInt16
  ttl : UInt8
  protocol : UInt8
  checksum : UInt16
  src : UInt32
  dst : UInt32

def Ipv4Header.bytes (h : Ipv4Header) : List UInt8 :=
  [h.versionIhl, h.tos] ++ le16 h.totalLength ++ le16 h.id ++ le16 h.flagsFrag ++ [h.ttl, h.protocol] ++
    le16 h.checksum ++ le32 h.src ++ le32 h.dst

def Ipv4Header.ofBytes (p : List UInt8) : Ipv4Header where
  versionIhl := get8 p 0
  tos := get8 p 1
  totalLength := get16 p 2
  id := get16 p 4
  flagsFrag := get16 p 6
  ttl := get8 p 8
  protocol := get8 p 9
  checksum := get16 p 10
  src := get32 p 12
  dst := get32 p 16

/-- `struct udp_header`. -/
structure UdpHeader where
  sport : UInt16
  dport : UInt16
  length : UInt16
  checksum : UInt16

def UdpHeader.bytes (h : UdpHeader) : List UInt8 := le16 h.sport ++ le16 h.dport ++ le16 h.length ++ le16 h.checksum

def UdpHeader.ofBytes (p : List UInt8) : UdpHeader where
  sport := get16 p 0
  dport := get16 p 2
  length := get16 p 4
  checksum := get16 p 6

/-! ## Devices and routes -/

/-- `struct netdev`. -/
structure Dev where
  mtu : ℕ
  ip : UInt32
  deriving DecidableEq

/-- The loopback device as `net_init` sets it up. -/
def loopback : Dev := ⟨65536, 0x0100007F⟩

/-- `struct route`. -/
structure Route where
  dst : UInt32
  mask : UInt32
  dev : Dev
  prefixLen : ℕ

/-- The table of routes and the kernel's hooks on UDP ports, a free slot being `none`, and `ip_next_id`. -/
structure State where
  table : List (Option Route)
  hooks : List (Option UInt16)
  ipNextId : UInt16

/-- `route_lookup`: the longest prefix, the first one of these. -/
def routeLookup (n : State) (dst : UInt32) : Option Dev :=
  (n.table.foldl (fun best slot => match slot with
    | none => best
    | some r =>
      if dst &&& r.mask ≠ r.dst then best
      else match best with
        | none => some r
        | some b => if r.prefixLen > b.prefixLen then some r else best) none).map Route.dev

/-- `net_route`. -/
def netRoute (n : State) (dst : UInt32) : Option Dev := if dst = 0 then some loopback else routeLookup n dst

/-! ## Sending -/

/-- `-ENETUNREACH`, `-EMSGSIZE`, `-ENOBUFS`. -/
inductive Errno
  | enetunreach | emsgsize | enobufs

def ipprotoIcmp : UInt8 := 1
def ipprotoTcp : UInt8 := 6
def ipprotoUdp : UInt8 := 17

/-- `net_ipv4_output` up to `dev->transmit`: the device and the packet it is given. `mem` is whether
`kmalloc` has a block. -/
def netIpv4Output (n : State) (mem : Bool) (src dst : UInt32) (protocol : UInt8) (payload : List UInt8) :
    Except Errno (Dev × List UInt8) × State :=
  match netRoute n dst with
  | none => (.error .enetunreach, n)
  | some dev =>
    if payload.length + 20 > dev.mtu then (.error .emsgsize, n)
    else if !mem then (.error .enobufs, n)
    else
      let total := 20 + payload.length
      let ip : Ipv4Header :=
        { versionIhl := 0x45
          tos := 0
          totalLength := htons (UInt16.ofNat total)
          id := htons n.ipNextId
          flagsFrag := 0x0040
          ttl := 64
          protocol := protocol
          checksum := 0
          src := if src ≠ 0 then src else dev.ip
          dst := if dst ≠ 0 then dst else dev.ip }
      let ip := { ip with checksum := htons (netChecksum ip.bytes 0) }
      (.ok (dev, ip.bytes ++ payload), { n with ipNextId := n.ipNextId + 1 })

/-- `udp_pseudo_sum`. -/
def udpPseudoSum (src dst : UInt32) (udpLen : UInt16) : ℕ :=
  ((checksumPartial (le32 dst) (checksumPartial (le32 src) 0) + ipprotoUdp.toNat) % u32 + udpLen.toNat) % u32

/-- `net_udp_output`, with the outcomes of its own `kmalloc` and of the one in `net_ipv4_output`. -/
def netUdpOutput (n : State) (mem : Bool × Bool) (src : UInt32) (sport : UInt16) (dst : UInt32) (dport : UInt16)
    (data : List UInt8) : Except Errno (Dev × List UInt8) × State :=
  if data.length > 65535 - 8 then (.error .emsgsize, n)
  else if !mem.1 then (.error .enobufs, n)
  else
    let total := 8 + data.length
    let udp : UdpHeader :=
      { sport := sport
        dport := dport
        length := htons (UInt16.ofNat total)
        checksum := 0 }
    let realSrc := if src ≠ 0 then src else match netRoute n dst with
      | some dev => dev.ip
      | none => 0
    let sum := udpPseudoSum realSrc (if dst ≠ 0 then dst else realSrc) (UInt16.ofNat total)
    let ck := checksumFold (checksumPartial (udp.bytes ++ data) sum)
    let udp := { udp with checksum := htons (if ck ≠ 0 then ck else 0xFFFF) }
    netIpv4Output n mem.2 src dst ipprotoUdp (udp.bytes ++ data)

/-! ## Receiving -/

/-- Whom a datagram is handed to: a hook of the kernel, or `net_udp_deliver`. -/
inductive Receiver
  | hook (i : ℕ)
  | socket

/-- What a receiver is handed. -/
structure Datagram where
  src : UInt32
  sport : UInt16
  dst : UInt32
  dport : UInt16
  data : List UInt8

/-- What becomes of a packet. -/
inductive Input
  | dropped
  | handed (receiver : Receiver) (d : Datagram)
  | icmp (payload : List UInt8)
  | tcp (payload : List UInt8)

/-- `udp_input`. -/
def udpInput (n : State) (ip : Ipv4Header) (payload : List UInt8) : Input :=
  if payload.length < 8 then .dropped
  else
    let udp := UdpHeader.ofBytes payload
    let udpLen := (htons udp.length).toNat
    if udpLen < 8 ∨ udpLen > payload.length then .dropped
    else if udp.checksum ≠ 0 ∧
        checksumFold (checksumPartial (payload.take udpLen) (udpPseudoSum ip.src ip.dst (UInt16.ofNat udpLen))) ≠ 0 then
      .dropped
    else
      let d : Datagram := ⟨ip.src, udp.sport, ip.dst, udp.dport, (payload.drop 8).take (udpLen - 8)⟩
      match n.hooks.findIdx? (· == some udp.dport) with
      | some i => .handed (.hook i) d
      | none => .handed .socket d

/-- `net_ipv4_input`. -/
def netIpv4Input (n : State) (pkt : List UInt8) : Input :=
  if pkt.length < 20 then .dropped
  else
    let ip := Ipv4Header.ofBytes pkt
    if ip.versionIhl >>> 4 ≠ 4 then .dropped
    else
      let ihl := (ip.versionIhl &&& 0x0F).toNat * 4
      if ihl < 20 ∨ ihl > pkt.length then .dropped
      else
        let total := (htons ip.totalLength).toNat
        if total < ihl ∨ total > pkt.length then .dropped
        else if netChecksum (pkt.take ihl) 0 ≠ 0 then .dropped
        else if htons ip.flagsFrag &&& 0x3FFF ≠ 0 ∧
            ¬ (htons ip.flagsFrag &&& 0x2000 = 0 ∧ htons ip.flagsFrag &&& 0x1FFF = 0) then
          .dropped
        else
          let payload := (pkt.drop ihl).take (total - ihl)
          if ip.protocol = ipprotoUdp then udpInput n ip payload
          else if ip.protocol = ipprotoIcmp then .icmp payload
          else if ip.protocol = ipprotoTcp then .tcp payload
          else .dropped

end NeoOS.Net
