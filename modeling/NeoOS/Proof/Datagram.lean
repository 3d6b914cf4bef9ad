import Mathlib.Data.List.Basic
import Mathlib.Tactic.NormNum
import NeoOS.Spec.Net

/-!
# Datagrams over the loopback device come out as they went in

`netUdpOutput_ok` says what packet a datagram becomes; `ipInput_ok` and `udpInput_iff` say what the receive
path makes of it. The two checksums go through `Inet.foldCarries_eq_ones`: the sum a receiver folds is a
multiple of `65535` exactly if nothing that was summed has changed.
-/

namespace NeoOS.Net

open List
open Inet
open UInt16 (ofNat toNat_ofNat')

variable {sum : ℕ} {dev : Dev} {n n' : State} {udp : UdpHeader} {ip : Ipv4Header} {l payload pre pkt : List UInt8}
  {ck sport dport : UInt16} {dst src : UInt32}

/-! ## Byte order -/

theorem htons_toNat (v : UInt16) : (htons v).toNat = v.toNat % 256 * 256 + v.toNat / 256 := by
  have hv := v.toNat_lt
  unfold htons
  rw [toNat_ofNat']
  omega

theorem htons_htons (v : UInt16) : htons (htons v) = v := by
  apply UInt16.toNat.inj
  have hv := v.toNat_lt
  rw [htons_toNat, htons_toNat]
  omega

theorem le16_htons (v : UInt16) : le16 (htons v) = [UInt8.ofNat (v.toNat / 256), UInt8.ofNat v.toNat] := by
  have hv := v.toNat_lt
  have hlow : (v.toNat % 256 * 256 + v.toNat / 256) / 256 = v.toNat % 256 := by omega
  unfold le16
  rw [htons_toNat, hlow]
  refine congrArg₂ _ (UInt8.toNat.inj ?_) (congrArg₂ _ (UInt8.toNat.inj ?_) rfl)
  · rw [toNat_ofNat8, toNat_ofNat8]
    omega
  · rw [toNat_ofNat8, toNat_ofNat8]
    omega

/-! ## Headers -/

@[simp] theorem Ipv4Header.length_bytes (h : Ipv4Header) : h.bytes.length = 20 := rfl

@[simp] theorem UdpHeader.length_bytes (h : UdpHeader) : h.bytes.length = 8 := rfl

theorem Ipv4Header.ofBytes_bytes (h : Ipv4Header) (rest : List UInt8) : Ipv4Header.ofBytes (h.bytes ++ rest) = h := by
  cases h
  simp only [bytes, ofBytes, le16, le32, get8, get16, get32, cons_append, nil_append, getD_cons_zero,
    getD_cons_succ, ofNat_bytes16, ofNat_bytes32]

theorem UdpHeader.ofBytes_bytes (h : UdpHeader) (rest : List UInt8) : UdpHeader.ofBytes (h.bytes ++ rest) = h := by
  cases h
  simp only [bytes, ofBytes, le16, get8, get16, cons_append, nil_append, getD_cons_zero, getD_cons_succ, ofNat_bytes16]

/-! ## Checksums -/

theorem checksumPartial_eq (l : List UInt8) (h : sum < u32) : checksumPartial l sum = (sum + wordSum l) % u32 := by
  induction l, sum using checksumPartial.induct with
  | case1 sum =>
    rw [checksumPartial, wordSum, add_zero, Nat.mod_eq_of_lt h]
  | case2 sum a => rw [checksumPartial, wordSum]
  | case3 sum a b l ih =>
    rw [checksumPartial, ih (Nat.mod_lt _ (by decide)), wordSum, Nat.mod_add_mod]
    congr 1
    omega

theorem checksumPartial_of_lt (h : sum + wordSum l < u32) : checksumPartial l sum = sum + wordSum l := by
  rw [checksumPartial_eq l (by omega), Nat.mod_eq_of_lt h]

theorem checksumFold_toNat (sum : ℕ) : (checksumFold sum).toNat = 65535 - foldCarries sum := by
  unfold checksumFold
  rw [toNat_ofNat']
  omega

theorem checksumFold_eq_zero (hpos : 0 < sum) : checksumFold sum = 0 ↔ sum % 65535 = 0 := by
  rw [← foldCarries_eq_ones hpos, ← UInt16.toNat_inj, checksumFold_toNat]
  have hlt := foldCarries_lt sum
  change 65535 - foldCarries sum = 0 ↔ _
  omega

theorem wordSum_field (hpre : pre.length % 2 = 0) (v : UInt16) (post : List UInt8) :
    wordSum (pre ++ (le16 (htons v) ++ post)) = wordSum (pre ++ (le16 0 ++ post)) + v.toNat := by
  have hv := v.toNat_lt
  have hzero : le16 0 = [0, 0] := rfl
  have h0 : (0 : UInt8).toNat = 0 := rfl
  rw [wordSum_append_of_even hpre, wordSum_append_of_even hpre, le16_htons, hzero]
  simp only [cons_append, nil_append, wordSum, toNat_ofNat8, h0]
  omega

theorem Ipv4Header.wordSum_checksum (h : Ipv4Header) (ck : UInt16) :
    wordSum { h with checksum := htons ck }.bytes = wordSum { h with checksum := 0 }.bytes + ck.toNat := by
  have hfield := @wordSum_field ([h.versionIhl, h.tos] ++ le16 h.totalLength ++ le16 h.id ++ le16 h.flagsFrag ++
    [h.ttl, h.protocol]) (by simp [le16]) ck (le32 h.src ++ le32 h.dst)
  simpa [bytes] using hfield

theorem UdpHeader.wordSum_checksum (h : UdpHeader) (ck : UInt16) :
    wordSum { h with checksum := htons ck }.bytes = wordSum { h with checksum := 0 }.bytes + ck.toNat := by
  have hfield := @wordSum_field (le16 h.sport ++ le16 h.dport ++ le16 h.length) (by simp [le16]) ck []
  simpa [bytes] using hfield

/-- A checksum that comes out as zero is sent as all ones, which is zero as well. -/
theorem add_checksumFold_mod (hck : ck = checksumFold sum) : (sum + (if ck ≠ 0 then ck else 0xFFFF).toNat) % 65535 = 0 := by
  have hmod := add_complement_mod sum
  have hckNat : ck.toNat = 65535 - foldCarries sum := by
    rw [hck, checksumFold_toNat]
  split
  · rw [hckNat]
    exact hmod
  · rename_i hz
    have hz : ck = 0 := not_not.1 hz
    have h0 : (0 : UInt16).toNat = 0 := rfl
    have hff : (0xFFFF : UInt16).toNat = 65535 := rfl
    rw [hz] at hckNat
    rw [hff]
    omega

theorem Ipv4Header.netChecksum_self (h : Ipv4Header) (hzero : h.checksum = 0) :
    netChecksum { h with checksum := htons (netChecksum h.bytes 0) }.bytes 0 = 0 := by
  have hsum := h.wordSum_checksum (netChecksum h.bytes 0)
  have hsame : { h with checksum := 0 } = h := by
    rw [← hzero]
  rw [hsame] at hsum
  have hu : u32 = 4294967296 := rfl
  have hle := wordSum_le h.bytes
  rw [Ipv4Header.length_bytes] at hle
  have hck : (netChecksum h.bytes 0).toNat = 65535 - foldCarries (wordSum h.bytes) := by
    unfold netChecksum
    rw [checksumFold_toNat, checksumPartial_of_lt (by omega), zero_add]
  rw [hck] at hsum
  rw [netChecksum, checksumPartial_of_lt (by omega), zero_add, hsum,
    checksumFold_eq_zero (add_complement_pos (wordSum h.bytes))]
  exact add_complement_mod (wordSum h.bytes)

theorem wordSum_le32_le (v : UInt32) : wordSum (le32 v) ≤ 131070 := by
  have h := wordSum_le (le32 v)
  have hlen : (le32 v).length = 4 := rfl
  rw [hlen] at h
  exact h

/-- What the pseudo-header adds. -/
def pseudo (src dst : UInt32) (udpLen : ℕ) : ℕ := wordSum (le32 src) + wordSum (le32 dst) + 17 + udpLen

theorem udpPseudoSum_eq (src dst : UInt32) {udpLen : ℕ} (h : udpLen < 65536) :
    udpPseudoSum src dst (ofNat udpLen) = pseudo src dst udpLen := by
  have hs := wordSum_le32_le src
  have hd := wordSum_le32_le dst
  have hu : u32 = 4294967296 := rfl
  have h17 : ipprotoUdp.toNat = 17 := rfl
  have h0 : checksumPartial (le32 src) 0 = wordSum (le32 src) := by
    rw [checksumPartial_of_lt (by omega), zero_add]
  unfold udpPseudoSum pseudo
  rw [h0, checksumPartial_of_lt (by omega), h17, toNat_ofNat', hu]
  omega

theorem pseudo_add_wordSum_lt (src dst : UInt32) (h : l.length < 65536) : pseudo src dst l.length + wordSum l < u32 := by
  have hs := wordSum_le32_le src
  have hd := wordSum_le32_le dst
  have hl := wordSum_le l
  have hu : u32 = 4294967296 := rfl
  unfold pseudo
  omega

/-! ## Segments -/

/-- The sum of a segment with its pseudo-header. -/
def l4Sum (src dst : UInt32) (proto : UInt8) (seg : List UInt8) : ℕ :=
  wordSum (le32 src) + wordSum (le32 dst) + proto.toNat + seg.length + wordSum seg

section Segment

variable {src dst : UInt32} {proto : UInt8} {seg : List UInt8} (hlen : seg.length ≤ 65535)

include hlen

theorem checksumPartial_pseudo :
    checksumPartial seg (ipPseudoSum src dst proto (ofNat seg.length)) = l4Sum src dst proto seg := by
  have hs := wordSum_le32_le src
  have hd := wordSum_le32_le dst
  have hp := proto.toNat_lt
  have hl := wordSum_le seg
  have hu : u32 = 4294967296 := rfl
  have h0 : (0 : UInt8).toNat = 0 := rfl
  have hproto : wordSum [0, proto] = proto.toNat := by
    simp only [wordSum, h0]
    omega
  have hsize : wordSum (le16 (htons (ofNat seg.length))) = seg.length := by
    rw [le16_htons, toNat_ofNat']
    simp only [wordSum, toNat_ofNat8]
    omega
  unfold ipPseudoSum l4Sum
  dsimp only
  rw [checksumPartial_of_lt (l := le32 src) (by omega), checksumPartial_of_lt (l := le32 dst) (by omega),
    checksumPartial_of_lt (l := [0, proto]) (by omega), checksumPartial_of_lt (l := le16 _) (by omega),
    checksumPartial_of_lt (by omega), hproto, hsize]
  omega

theorem netL4Verify_iff (hpos : 0 < seg.length) : netL4Verify src dst proto seg ↔ l4Sum src dst proto seg % 65535 = 0 := by
  unfold netL4Verify
  rw [checksumPartial_pseudo hlen, beq_iff_eq, checksumFold_eq_zero (by unfold l4Sum; omega)]

end Segment

/-- Words of 16 bits are the same modulo `65535` if they are the same, or all zeros and all ones. -/
theorem wordSum_mod_eq (a b c d : UInt8) : wordSum [a, b] % 65535 = wordSum [c, d] % 65535 ↔
    [a, b] = [c, d] ∨ [a, b] = [0, 0] ∧ [c, d] = [255, 255] ∨ [a, b] = [255, 255] ∧ [c, d] = [0, 0] := by
  have ha := a.toNat_lt
  have hb := b.toNat_lt
  have hc := c.toNat_lt
  have hd := d.toNat_lt
  have h0 : (0 : UInt8).toNat = 0 := rfl
  have hff : (255 : UInt8).toNat = 255 := rfl
  simp only [wordSum, add_zero, List.cons.injEq, and_true, ← UInt8.toNat_inj, h0, hff]
  constructor
  · intro hmod
    have hword : a.toNat * 256 + b.toNat = c.toNat * 256 + d.toNat ∨
        a.toNat * 256 + b.toNat = 0 ∧ c.toNat * 256 + d.toNat = 65535 ∨
        a.toNat * 256 + b.toNat = 65535 ∧ c.toNat * 256 + d.toNat = 0 := by omega
    omega
  · omega

section Detects

variable {src dst : UInt32} {proto : UInt8}

theorem netL4Verify_filled {post seg : List UInt8} (hpre : pre.length % 2 = 0)
    (hlen : (pre ++ (le16 0 ++ post)).length ≤ 65535)
    (hseg : seg = pre ++ (le16 (netL4Checksum src dst proto (pre ++ (le16 0 ++ post))) ++ post)) :
    seg.length = (pre ++ (le16 0 ++ post)).length ∧ netL4Verify src dst proto seg := by
  have hsame : seg.length = (pre ++ (le16 0 ++ post)).length := by
    rw [hseg]
    simp [le16]
  have hpos : 0 < seg.length := by
    rw [hseg]
    simp [le16]
  have hck := add_checksumFold_mod (congrArg checksumFold (@checksumPartial_pseudo src dst proto _ hlen))
  refine ⟨hsame, ?_⟩
  rw [netL4Verify_iff (by omega) hpos]
  unfold l4Sum at hck ⊢
  rw [hsame, hseg, netL4Checksum, wordSum_field hpre, ← hck]
  omega

/-- A segment that passes, with one of its words replaced. -/
theorem netL4Verify_replaced {before old new after : List UInt8} (hlen : (before ++ (old ++ after)).length ≤ 65535)
    (hbefore : before.length % 2 = 0) (hword : old.length = 2 ∨ old.length = 1 ∧ after = [])
    (hsize : new.length = old.length) (hold : netL4Verify src dst proto (before ++ (old ++ after))) :
    netL4Verify src dst proto (before ++ (new ++ after)) ↔
      old = new ∨ old = [0, 0] ∧ new = [255, 255] ∨ old = [255, 255] ∧ new = [0, 0] := by
  have hsame : (before ++ (new ++ after)).length = (before ++ (old ++ after)).length := by
    simp [hsize]
  have hpos : 0 < (before ++ (old ++ after)).length := by
    simp only [length_append]
    omega
  rw [netL4Verify_iff hlen hpos] at hold
  rw [netL4Verify_iff (by omega) (by omega)]
  unfold l4Sum at hold ⊢
  rw [wordSum_append_of_even hbefore] at hold
  rw [hsame, wordSum_append_of_even hbefore]
  rcases hword with htwo | ⟨hone, rfl⟩
  · rw [wordSum_append_of_even (by omega)] at hold ⊢
    obtain ⟨a, b, rfl⟩ := length_eq_two.1 htwo
    obtain ⟨c, d, rfl⟩ := length_eq_two.1 (hsize.trans htwo)
    rw [← wordSum_mod_eq]
    omega
  · -- the last byte of an odd segment is the high half of a word
    obtain ⟨a, rfl⟩ := length_eq_one_iff.1 hone
    obtain ⟨c, rfl⟩ := length_eq_one_iff.1 (hsize.trans hone)
    have hpad (x : UInt8) : wordSum ([x] ++ []) = wordSum [x, 0] := by
      simp [wordSum]
    have hbyte : wordSum [a, 0] % 65535 = wordSum [c, 0] % 65535 ↔ a = c := by
      simp [wordSum_mod_eq]
    have hcases : [a] = [c] ∨ [a] = [0, 0] ∧ [c] = [255, 255] ∨ [a] = [255, 255] ∧ [c] = [0, 0] ↔ a = c := by
      simp
    rw [hpad] at hold ⊢
    rw [hcases, ← hbyte]
    omega

end Detects

/-- **The checksum of a segment.** A segment whose aligned checksum field `net_l4_checksum` has filled in
passes `net_l4_verify`. With one word changed it passes only if zeros have become ones, or ones zeros. -/
theorem l4_checksum_detects (src dst : UInt32) (proto : UInt8) (pre post : List UInt8) (hpre : pre.length % 2 = 0)
    (hlen : (pre ++ (le16 0 ++ post)).length ≤ 65535) (seg : List UInt8)
    (hseg : seg = pre ++ (le16 (netL4Checksum src dst proto (pre ++ (le16 0 ++ post))) ++ post)) :
    netL4Verify src dst proto seg = true ∧
    ∀ before old new after, seg = before ++ (old ++ after) → before.length % 2 = 0 →
      (old.length = 2 ∨ old.length = 1 ∧ after = []) → new.length = old.length → old ≠ new →
      (netL4Verify src dst proto (before ++ (new ++ after)) = true ↔
        old = [0, 0] ∧ new = [255, 255] ∨ old = [255, 255] ∧ new = [0, 0]) := by
  obtain ⟨hsame, hpass⟩ := netL4Verify_filled hpre hlen hseg
  refine ⟨hpass, ?_⟩
  intro before old new after hsplit hbefore hword hsize hdiff
  rw [hsplit] at hsame hpass
  rw [netL4Verify_replaced (by omega) hbefore hword hsize hpass, or_iff_right hdiff]

/-- Seven and eight, the checksum and a last byte; with a nine for the eight it does not pass. -/
theorem l4_checksum_detects_odd :
    let seg := fun w => w ++ (le16 (netL4Checksum 1 2 6 ([7, 8] ++ (le16 0 ++ [9]))) ++ [9])
    netL4Verify 1 2 6 (seg [7, 8]) = true ∧ netL4Verify 1 2 6 (seg [7, 9]) = false := by
  intro seg
  obtain ⟨hpass, hchanged⟩ := l4_checksum_detects 1 2 6 [7, 8] [9] rfl (by simp [le16]) (seg [7, 8]) rfl
  refine ⟨hpass, Bool.eq_false_iff.2 fun h => ?_⟩
  exact absurd ((hchanged [] [7, 8] [7, 9] _ rfl rfl (.inl rfl) rfl (by decide)).1 h) (by decide)

/-! ## The packet -/

/-- A header that `net_ipv4_output` has built. -/
structure Ipv4Header.Built (ip : Ipv4Header) (dev : Dev) (src dst : UInt32) (protocol : UInt8) (total : ℕ) : Prop where
  versionIhl : ip.versionIhl = 0x45
  totalLength : ip.totalLength = htons (ofNat total)
  flagsFrag : ip.flagsFrag = 0x0040
  protocol : ip.protocol = protocol
  src : ip.src = if src ≠ 0 then src else dev.ip
  dst : ip.dst = if dst ≠ 0 then dst else dev.ip
  checksum : netChecksum ip.bytes 0 = 0

theorem netIpv4Output_ok {mem : Bool} {protocol : UInt8}
    (h : netIpv4Output n mem src dst protocol payload = (.ok (dev, pkt), n')) :
    netRoute n dst = some dev ∧ payload.length + 20 ≤ dev.mtu ∧ n'.hooks = n.hooks ∧
      ∃ ip : Ipv4Header, ip.Built dev src dst protocol (20 + payload.length) ∧ pkt = ip.bytes ++ payload := by
  unfold netIpv4Output at h
  split at h
  · cases h
  · rename_i dev' hroute
    split at h
    · cases h
    · rename_i hmtu
      split at h
      · cases h
      · cases h
        refine ⟨hroute, by omega, rfl, _, ⟨rfl, rfl, rfl, rfl, rfl, rfl, ?_⟩, rfl⟩
        exact Ipv4Header.netChecksum_self _ rfl

/-- A header that `net_udp_output` has built, with the addresses it has summed. -/
structure UdpHeader.Built (udp : UdpHeader) (src dst : UInt32) (sport dport : UInt16) (data : List UInt8) : Prop where
  sport : udp.sport = sport
  dport : udp.dport = dport
  length : udp.length = htons (ofNat (8 + data.length))
  checksum_ne : udp.checksum ≠ 0
  checksum : (pseudo src dst (8 + data.length) + wordSum (udp.bytes ++ data)) % 65535 = 0

theorem UdpHeader.wordSum_append (h : UdpHeader) (data : List UInt8) :
    wordSum (h.bytes ++ data) = wordSum h.bytes + wordSum data := wordSum_append_of_even (by rw [UdpHeader.length_bytes]) data

theorem UdpHeader.built_self {data : List UInt8} (hlen : data.length ≤ 65527)
    (hudp : udp = ⟨sport, dport, htons (ofNat (8 + data.length)), 0⟩)
    (hck : ck = checksumFold (checksumPartial (udp.bytes ++ data) (udpPseudoSum src dst (ofNat (8 + data.length))))) :
    { udp with checksum := htons (if ck ≠ 0 then ck else 0xFFFF) : UdpHeader }.Built src dst sport dport data := by
  have hlt := pseudo_add_wordSum_lt src dst (l := udp.bytes ++ data) (by rw [length_append, UdpHeader.length_bytes]; omega)
  rw [length_append, UdpHeader.length_bytes] at hlt
  rw [udpPseudoSum_eq src dst (by omega), checksumPartial_of_lt hlt] at hck
  generalize hS : pseudo src dst (8 + data.length) + wordSum (udp.bytes ++ data) = S at hck
  have hmod := add_checksumFold_mod hck
  have hsame : { udp with checksum := 0 } = udp := by
    rw [hudp]
  refine ⟨by rw [hudp], by rw [hudp], by rw [hudp], ?_, ?_⟩
  · intro h0
    have h1 := congrArg htons h0
    simp only [htons_htons] at h1
    have hz : htons 0 = 0 := rfl
    rw [hz] at h1
    split at h1
    · contradiction
    · cases h1
  · rw [UdpHeader.wordSum_append, UdpHeader.wordSum_checksum, hsame]
    rw [UdpHeader.wordSum_append] at hS
    omega

theorem netUdpOutput_ok {mem : Bool × Bool}
    {data : List UInt8} (h : netUdpOutput n mem src sport dst dport data = (.ok (dev, pkt), n')) :
    netRoute n dst = some dev ∧ data.length + 28 ≤ dev.mtu ∧ n'.hooks = n.hooks ∧
      ∃ (ip : Ipv4Header) (udp : UdpHeader), ip.Built dev src dst ipprotoUdp (28 + data.length) ∧
        udp.Built (if src ≠ 0 then src else dev.ip) (if dst ≠ 0 then dst else if src ≠ 0 then src else dev.ip)
          sport dport data ∧
        pkt = ip.bytes ++ (udp.bytes ++ data) := by
  unfold netUdpOutput at h
  split at h
  · cases h
  · rename_i hlen
    split at h
    · cases h
    · obtain ⟨hroute, hmtu, hhooks, ip, hip, rfl⟩ := netIpv4Output_ok h
      simp only [length_append, UdpHeader.length_bytes] at hmtu hip
      rw [hroute] at *
      rw [show 20 + (8 + data.length) = 28 + data.length by omega] at hip
      refine ⟨rfl, by omega, hhooks, ip, _, hip, ?_, rfl⟩
      exact UdpHeader.built_self (by omega) rfl rfl

/-! ## The receive path -/

/-- The receive path takes an IPv4 packet as it was built, unless its length has not fitted into 16 bits. -/
theorem netIpv4Input_built
    (hip : ip.Built dev src dst ipprotoUdp (20 + payload.length)) (hlen : 20 + payload.length ≤ 65536) :
    netIpv4Input n (ip.bytes ++ payload) = if 20 + payload.length = 65536 then .dropped else udpInput n ip payload := by
  have htotal : (htons ip.totalLength).toNat = (20 + payload.length) % 65536 := by
    rw [hip.totalLength, htons_htons, toNat_ofNat']
  have hihl : ((0x45 : UInt8) &&& 0x0F).toNat * 4 = 20 := by decide
  have hfrag : htons 0x0040 &&& 0x3FFF = 0 := by decide
  have htake : (ip.bytes ++ payload).take 20 = ip.bytes := take_left' ip.length_bytes
  have hdrop : (ip.bytes ++ payload).drop 20 = payload := drop_left' ip.length_bytes
  unfold netIpv4Input
  dsimp only
  rw [Ipv4Header.ofBytes_bytes, length_append, Ipv4Header.length_bytes, hip.versionIhl, hip.flagsFrag, hip.protocol, hihl,
    htotal, htake, hip.checksum, hfrag, hdrop, if_neg (by omega), if_neg (by decide), if_neg (by omega)]
  split
  · rename_i hbad
    rw [if_pos (by omega)]
  · rename_i hgood
    rw [if_neg (by simp), if_neg (by simp), if_pos rfl, if_neg (by omega), Nat.mod_eq_of_lt (by omega),
      take_of_length_le (by omega)]

/-- Whom `udp_input` hands a datagram for a port to. -/
def State.receiver (n : State) (dport : UInt16) : Receiver :=
  match n.hooks.findIdx? (· == some dport) with
  | some i => .hook i
  | none => .socket

/-- `udp_input` takes a datagram as it was built exactly if the addresses of the IP header sum up to those
the sender has summed. -/
theorem udpInput_built
    {data : List UInt8} (hudp : udp.Built src dst sport dport data) (hlen : data.length ≤ 65508) :
    udpInput n ip (udp.bytes ++ data) =
      if (wordSum (le32 ip.src) + wordSum (le32 ip.dst)) % 65535 = (wordSum (le32 src) + wordSum (le32 dst)) % 65535 then
        .handed (n.receiver dport) ⟨ip.src, sport, ip.dst, dport, data⟩
      else .dropped := by
  have hudpLen : (htons udp.length).toNat = 8 + data.length := by
    rw [hudp.length, htons_htons, toNat_ofNat']
    omega
  have hlt := pseudo_add_wordSum_lt ip.src ip.dst (l := udp.bytes ++ data)
    (by rw [length_append, UdpHeader.length_bytes]; omega)
  rw [length_append, UdpHeader.length_bytes] at hlt
  have hall : (udp.bytes ++ data).take (8 + data.length) = udp.bytes ++ data := by
    apply take_of_length_le
    rw [length_append, UdpHeader.length_bytes]
  have hdrop : (udp.bytes ++ data).drop 8 = data := drop_left' udp.length_bytes
  have hfold : checksumFold (checksumPartial (udp.bytes ++ data)
        (udpPseudoSum ip.src ip.dst (ofNat (8 + data.length)))) = 0 ↔
      (wordSum (le32 ip.src) + wordSum (le32 ip.dst)) % 65535 = (wordSum (le32 src) + wordSum (le32 dst)) % 65535 := by
    rw [udpPseudoSum_eq _ _ (by omega), checksumPartial_of_lt hlt, checksumFold_eq_zero (by unfold pseudo; omega)]
    have hsent := hudp.checksum
    unfold pseudo at hsent ⊢
    omega
  unfold udpInput
  dsimp only
  rw [UdpHeader.ofBytes_bytes, hudpLen, hall, hdrop, length_append, UdpHeader.length_bytes, hudp.sport, hudp.dport,
    if_neg (by omega), if_neg (by omega), Nat.add_sub_cancel_left, take_of_length_le (le_refl _)]
  split
  · rename_i hbad
    rw [if_neg fun h => hbad.2 (hfold.2 h)]
  · rename_i hgood
    have hzero := not_not.1 fun h => hgood ⟨hudp.checksum_ne, h⟩
    rw [if_pos (hfold.1 hzero)]
    unfold State.receiver
    cases n.hooks.findIdx? (· == some dport) <;> rfl

theorem netUdpOutput_accepts {data : List UInt8} (hroute : netRoute n dst = some dev)
    (hmtu : data.length + 28 ≤ dev.mtu) (hlen : data.length ≤ 65527) (src : UInt32) (sport dport : UInt16) :
    ∃ pkt n', netUdpOutput n (true, true) src sport dst dport data = (.ok (dev, pkt), n') := by
  unfold netUdpOutput netIpv4Output
  rw [hroute, if_neg (by omega), if_neg (by decide)]
  dsimp only
  rw [if_neg (by rw [length_append, UdpHeader.length_bytes]; omega), if_neg (by decide)]
  exact ⟨_, _, rfl⟩

/-- The condition: the packet is not the one of 65536 bytes, and the wildcard destination is not used with a
source whose sum is another one than that of the device's address. -/
def Fits (src dst : UInt32) (data : List UInt8) : Prop :=
  data.length ≠ 65508 ∧ (dst = 0 → src = 0 ∨ wordSum (le32 src) % 65535 = wordSum (le32 loopback.ip) % 65535)

/-- **Datagrams over loopback.** Of the datagrams that `net_udp_output` accepts for the loopback device,
exactly those that fit are handed over, with the addresses, the ports and the bytes they were sent with. The
wildcard address stands for the address of the device. -/
theorem datagram_round_trip (n n' m : State) (mem : Bool × Bool) (src : UInt32) (sport : UInt16) (dst : UInt32)
    (dport : UInt16) (data : List UInt8) (dev : Dev) (pkt : List UInt8) (hroute : netRoute n dst = some loopback)
    (hsend : netUdpOutput n mem src sport dst dport data = (.ok (dev, pkt), n')) :
    netIpv4Input m pkt = .handed (m.receiver dport)
      ⟨if src ≠ 0 then src else loopback.ip, sport, if dst ≠ 0 then dst else loopback.ip, dport, data⟩ ↔
    Fits src dst data := by
  obtain ⟨hdev, hmtu, -, ip, udp, hip, hudp, rfl⟩ := netUdpOutput_ok hsend
  obtain rfl : dev = loopback := Option.some.inj (hdev.symm.trans hroute)
  have hlo : loopback.mtu = 65536 := rfl
  have hlen : 20 + (udp.bytes ++ data).length = 28 + data.length := by
    rw [length_append, UdpHeader.length_bytes]
    omega
  rw [netIpv4Input_built (by rw [hlen]; exact hip) (by omega), hlen, udpInput_built hudp (by omega), hip.src, hip.dst]
  unfold Fits
  by_cases hfull : data.length = 65508
  · rw [if_pos (by omega)]
    exact iff_of_false nofun fun h => h.1 hfull
  · rw [if_neg (by omega)]
    by_cases hdst : dst = 0
    · by_cases hsrc : src = 0
      · simp [hdst, hsrc, hfull]
      · -- the sender has summed its own address in place of the wildcard
        simp only [hdst, hsrc, ne_eq, not_false_eq_true, not_true_eq_false, if_true, if_false, hfull, true_and,
          false_or, true_implies]
        split
        · rename_i hsum
          exact iff_of_true rfl (by omega)
        · rename_i hsum
          exact iff_of_false nofun (by omega)
    · simp [hdst, hfull]

/-- The table of routes as `route_init` leaves it. -/
def State.boot : State := ⟨some ⟨0x0000007F, 0x000000FF, loopback, 8⟩ :: List.replicate 7 none, [none, none], 0⟩

theorem datagram_round_trip_hello :
    ∃ pkt n', netUdpOutput .boot (true, true) 0 0x3930 0x0200007F 0x3500 [104, 101, 108, 108, 111] =
    (.ok (loopback, pkt), n') ∧
      netIpv4Input n' pkt = .handed (n'.receiver 0x3500) ⟨0x0100007F, 0x3930, 0x0200007F, 0x3500,
        [104, 101, 108, 108, 111]⟩ := by
  have hroute : netRoute .boot 0x0200007F = some loopback := by decide
  obtain ⟨pkt, n', hsend⟩ := @netUdpOutput_accepts _ _ _ [104, 101, 108, 108, 111] hroute (by decide)
    (by decide) 0 0x3930 0x3500
  exact ⟨pkt, n', hsend, (datagram_round_trip _ n' n' _ _ _ _ _ _ _ pkt hroute hsend).2 ⟨by decide, by decide⟩⟩

/-- A datagram of 65508 bytes is accepted, and dropped: the length of its packet is 65536, which is 0 in the
header. -/
theorem largest_datagram_lost :
    ∃ pkt n', netUdpOutput .boot (true, true) 0x0100007F 0x3930 0x0100007F 0x3500 (List.replicate 65508 0) =
        (.ok (loopback, pkt), n') ∧
      netIpv4Input n' pkt = .dropped := by
  have hroute : netRoute .boot 0x0100007F = some loopback := by decide
  have hlo : loopback.mtu = 65536 := rfl
  have hsize : (List.replicate 65508 (0 : UInt8)).length = 65508 := length_replicate
  generalize List.replicate 65508 (0 : UInt8) = data at hsize ⊢
  obtain ⟨pkt, n', hsend⟩ := @netUdpOutput_accepts _ _ _ data hroute (by omega) (by omega) 0x0100007F 0x3930 0x3500
  refine ⟨pkt, n', hsend, ?_⟩
  obtain ⟨-, -, -, ip, udp, hip, -, rfl⟩ := netUdpOutput_ok hsend
  have hlen : 20 + (udp.bytes ++ data).length = 65536 := by
    rw [length_append, UdpHeader.length_bytes, hsize]
  rw [hsize] at hip
  rw [netIpv4Input_built (by rw [hlen]; exact hip) (by omega), if_pos hlen]

end NeoOS.Net
