import NeoOS.Proof.TcpState

/-!
# The receive stream

The peer sends a stream `S`; its byte `pos` has the sequence number `isn + 1 + pos`. The
invariant `RxInv` ties a block to the stream: what `tcp_recv` has returned and what is in
the receive ring are the first bytes of `S`, `rcv_nxt` is the number of the byte behind
them, and every queued segment is a piece of `S` further ahead. Data keep it. A FIN keeps
it if the data before it have all been taken, which `tcp_segment` does not check.
-/

namespace NeoOS.Tcp

open List Bool RingBuf
open Serial (add sub Stands Slice half size)
open Run (final)

variable {now isn pos lo hi i fuel : ℕ} {S got data : List UInt8} {s : Seg} {t t' : Tcb} {r : Rx} {c : Conn}

/-! ## The invariant -/

/-- How far the stream has been taken: bytes returned and bytes in the ring. -/
def front (got : List UInt8) (r : Rx) : ℕ := got.length + r.rcv.len

/-- The ring and `rcv_nxt` agree with the stream. -/
structure RxOK (S : List UInt8) (isn : ℕ) (got : List UInt8) (r : Rx) : Prop where
  room : r.rcv.len ≤ rcvbufSize
  slots : r.reasm.length = reasmSegs
  within : front got r ≤ S.length
  stream : got ++ r.rcv.contents rcvbufSize = S.take (front got r)
  next : Stands r.rcvNxt (isn + 1 + front got r + r.finRcvd.toNat)
  fin : r.finRcvd → front got r = S.length

/-- Every queued segment is a piece of the stream between `lo` and `hi`. -/
def SlotsIn (S : List UInt8) (isn lo hi : ℕ) (r : Rx) : Prop :=
  ∀ x, some x ∈ r.reasm → ∃ pos, Slice S (isn + 1) pos x.seq x.data ∧ lo ≤ pos ∧ pos + x.data.length < hi

/-- Between segments, what is queued lies ahead of what has been taken. -/
structure RxInv (S : List UInt8) (isn : ℕ) (got : List UInt8) (r : Rx) : Prop where
  ok : RxOK S isn got r
  ahead : SlotsIn S isn (front got r + 1) (got.length + half) r

/-- While the queue is drained, a queued segment may have been overtaken. -/
structure Draining (S : List UInt8) (isn : ℕ) (got : List UInt8) (t : Tcb) : Prop where
  ok : RxOK S isn got t.rx
  nofin : t.finRcvd = false
  slots : SlotsIn S isn got.length (got.length + half) t.rx

theorem SlotsIn.mono {lo' hi' : ℕ} (h : SlotsIn S isn lo hi r) (hlo : lo' ≤ lo)
    (hhi : hi ≤ hi') : SlotsIn S isn lo' hi' r := by
  intro x hx
  obtain ⟨pos, hs, h1, h2⟩ := h x hx
  exact ⟨pos, hs, hlo.trans h1, h2.trans_le hhi⟩

theorem front_lt (h : RxOK S isn got r) : front got r < got.length + half := by
  have := h.room
  unfold front rcvbufSize half at *
  omega

/-- The number expected next, as long as there was no FIN. -/
theorem RxOK.rep (h : RxOK S isn got r) (hf : r.finRcvd = false) : Stands r.rcvNxt (isn + 1 + front got r) := by
  have := h.next
  rwa [hf] at this

/-! ## Delivery -/

theorem front_deliver (got : List UInt8) (t : Tcb) (data : List UInt8) :
    front got (deliver t data).rx = front got t.rx + min (rcvbufSize - t.rcv.len) data.length := by
  simp only [front, Tcb.rx, deliver, len_push, length_take]
  omega

/-- Bytes that come next in the stream are taken, as far as there is room. -/
theorem RxOK.deliver (h : RxOK S isn got t.rx) (hf : t.finRcvd = false) (hd : data <+: S.drop (front got t.rx)) :
    RxOK S isn got (deliver t data).rx := by
  have hroom : t.rcv.len ≤ rcvbufSize := h.room
  have hlen : data.length ≤ S.length - front got t.rx := by simpa using hd.length_le
  have hwithin := h.within
  -- the part that is taken
  have htake : data.take (rcvbufSize - t.rcv.len) <+: S.drop (front got t.rx) := (List.take_prefix _ data).trans hd
  have hfront : front got (Tcp.deliver t data).rx = front got t.rx + (data.take (rcvbufSize - t.rcv.len)).length := by
    rw [front_deliver, length_take]
  refine ⟨?_, h.slots, ?_, ?_, ?_, ?_⟩
  · show (t.rcv.push rcvbufSize (data.take (rcvbufSize - t.rcv.len))).len ≤ rcvbufSize
    rw [len_push, length_take]
    omega
  · rw [front_deliver]
    omega
  · show got ++ (t.rcv.push rcvbufSize (data.take (rcvbufSize - t.rcv.len))).contents rcvbufSize = _
    rw [contents_push (by rw [length_take]; omega), ← append_assoc, hfront, ← Serial.take_append_of_prefix htake]
    exact congrArg (· ++ _) h.stream
  · have hrep := (h.rep hf).add (data.take (rcvbufSize - t.rcv.len)).length
    rw [hfront]
    show Stands (add t.rcvNxt _) (_ + t.finRcvd.toNat)
    rw [hf, ← add_assoc]
    exact hrep
  · intro hfin
    exact absurd (hf.symm.trans hfin) false_ne_true

/-! ## The queue of segments that came early -/

theorem SlotsIn.clear (h : SlotsIn S isn lo hi r) (i : ℕ) : SlotsIn S isn lo hi { r with reasm := r.reasm.set i none } := by
  intro x hx
  obtain hx | hx := mem_or_eq_of_mem_set hx
  · exact h x hx
  · cases hx

/-- What one slot does: nothing if it is empty or ahead; otherwise it is cleared, and what it
has from `rcv_nxt` on is delivered. -/
theorem Draining.slot (h : Draining S isn got t) (i : ℕ) : Draining S isn got (drainSlot t i).1 ∧
      ((drainSlot t i).2 = false → (drainSlot t i).1.rcv = t.rcv ∧ ∀ x, (drainSlot t i).1.reasm[i]? = some (some x) →
          ∃ pos, Slice S (isn + 1) pos x.seq x.data ∧ front got t.rx < pos ∧ pos + x.data.length < got.length + half) := by
  unfold drainSlot
  split
  · rename_i hslot
    refine ⟨h, fun _ => ⟨rfl, fun x hx => ?_⟩⟩
    rw [hx] at hslot
    cases hslot
  · rename_i x hslot
    have hx : t.reasm[i]? = some (some x) := by simpa [Option.join_eq_some_iff] using hslot
    obtain ⟨pos, hs, hlo, hhi⟩ := h.slots x (mem_of_getElem? hx)
    have hrep : Stands t.rcvNxt (isn + 1 + front got t.rx) := h.ok.rep h.nofin
    have hfront := front_lt h.ok
    have hge : got.length ≤ front got t.rx := Nat.le_add_right _ _
    have hi : i < t.reasm.length := (List.getElem?_eq_some_iff.1 hx).1
    -- the comparisons are those of the positions
    have hle : Serial.le x.seq t.rcvNxt ↔ pos ≤ front got t.rx := by
      rw [hs.num.le_iff hrep (by omega) (by omega)]
      omega
    have hend := hs.stop
    have hgt : Serial.gt (add x.seq x.data.length) t.rcvNxt ↔ front got t.rx < pos + x.data.length := by
      rw [hend.gt_iff hrep (by omega) (by omega)]
      omega
    have hold : Serial.le (add x.seq x.data.length) t.rcvNxt ↔ pos + x.data.length ≤ front got t.rx := by
      rw [hend.le_iff hrep (by omega) (by omega)]
      omega
    split
    · rename_i hc
      rw [and_eq_true, hle, hgt] at hc
      refine ⟨⟨?_, h.nofin, h.slots.clear i⟩, fun hf => by cases hf⟩
      -- the bytes from `rcv_nxt` on come next in the stream
      have hskip : sub t.rcvNxt x.seq = front got t.rx - pos := by
        rw [hrep.sub hs.num (by omega) (by unfold size half at *; omega)]
        omega
      have hnext : x.data.drop (sub t.rcvNxt x.seq) <+: S.drop (front got t.rx) := by
        have := hs.drop (front got t.rx - pos)
        rwa [Nat.add_sub_cancel' hc.1, ← hskip] at this
      have hd := h.ok.deliver h.nofin hnext
      exact { hd with slots := by simpa [Tcb.rx] using h.ok.slots }
    split
    · refine ⟨⟨⟨h.ok.room, by simpa [Tcb.rx] using h.ok.slots, h.ok.within, h.ok.stream, h.ok.next, h.ok.fin⟩,
        h.nofin, h.slots.clear i⟩, fun _ => ⟨rfl, fun y hy => ?_⟩⟩
      simp only [getElem?_set_self hi] at hy
      cases hy
    · rename_i hc hc'
      rw [and_eq_true, hle, hgt] at hc
      rw [hold] at hc'
      refine ⟨h, fun _ => ⟨rfl, fun y hy => ?_⟩⟩
      rw [hx, Option.some.injEq, Option.some.injEq] at hy
      subst hy
      exact ⟨pos, hs, by omega, hhi⟩

/-- A slot that is full after a step was full before it. -/
theorem reasm_drainSlot {j : ℕ} {x : Reasm} (hx : (drainSlot t i).1.reasm[j]? = some (some x)) :
    t.reasm[j]? = some (some x) := by
  have hset : ∀ u : List (Option Reasm), (u.set i none)[j]? = some (some x) → u[j]? = some (some x) := by
    intro u hu
    rw [getElem?_set] at hu
    split at hu
    · split at hu <;> cases hu
    · exact hu
  unfold drainSlot at hx
  split at hx
  · exact hx
  split at hx
  · exact hset _ hx
  split at hx
  · exact hset _ hx
  · exact hx

theorem Draining.pass (h : Draining S isn got t) : Draining S isn got (drainPass t).1 :=
  drainPass_rel (R := fun t t' => Draining S isn got t → Draining S isn got t') (fun _ => id)
    (fun _ _ _ h1 h2 => h2 ∘ h1) (fun _ i h => (h.slot i).1) t h

theorem moved_mono (l : List ℕ) (r : Tcb × Bool) : (l.foldl drainRound r).2 = false → r.2 = false :=
  Run.foldl_rel (r := fun a b : Tcb × Bool => b.2 = false → a.2 = false) (fun _ => id)
    (fun _ _ _ h1 h2 => h1 ∘ h2) (fun _ _ _ h => (or_eq_false_iff.1 h).1) r

/-- After rounds in which nothing moved, the slots they looked at are empty or ahead. -/
theorem Draining.still (l : List ℕ) : ∀ r : Tcb × Bool, Draining S isn got r.1 → (l.foldl drainRound r).2 = false →
    (l.foldl drainRound r).1.rcv = r.1.rcv ∧
      (∀ (j : ℕ) (x : Reasm), (l.foldl drainRound r).1.reasm[j]? = some (some x) → r.1.reasm[j]? = some (some x)) ∧
      ∀ i ∈ l, ∀ x, (l.foldl drainRound r).1.reasm[i]? = some (some x) →
        ∃ pos, Slice S (isn + 1) pos x.seq x.data ∧ front got r.1.rx < pos ∧ pos + x.data.length < got.length + half := by
  induction l with
  | nil => intro r _ _; exact ⟨rfl, fun _ _ hx => hx, by simp⟩
  | cons i l ih =>
    intro r h hm
    have hmi : (drainSlot r.1 i).2 = false := (or_eq_false_iff.1 (moved_mono l _ hm)).2
    obtain ⟨hs, hslot⟩ := h.slot i
    obtain ⟨hrcv, hi⟩ := hslot hmi
    obtain ⟨hrcv', hsub, hl⟩ := ih (drainRound r i) hs hm
    have hfront : front got (drainRound r i).1.rx = front got r.1.rx := by
      show got.length + (drainSlot r.1 i).1.rcv.len = got.length + r.1.rcv.len
      rw [hrcv]
    refine ⟨hrcv'.trans hrcv, fun j x hx => reasm_drainSlot (hsub j x hx), fun j hj x hx => ?_⟩
    obtain rfl | hj := mem_cons.1 hj
    · exact hi x (hsub j x hx)
    · rw [← hfront]
      exact hl j hj x hx

/-- After a pass in which nothing moved, all that is queued lies ahead. -/
theorem Draining.settled (h : Draining S isn got t) (hm : (drainPass t).2 = false) : RxInv S isn got (drainPass t).1.rx := by
  have hp := h.pass
  unfold drainPass at hm hp ⊢
  obtain ⟨hrcv, -, hl⟩ := Draining.still (List.range reasmSegs) (t, false) h hm
  -- the fold is a name from here on
  generalize List.foldl drainRound (t, false) (List.range reasmSegs) = u at hp hrcv hl ⊢
  have hslots : u.1.reasm.length = reasmSegs := hp.ok.slots
  have hfront : front got u.1.rx = front got t.rx := by
    show got.length + u.1.rcv.len = got.length + t.rcv.len
    rw [hrcv]
  refine ⟨hp.ok, fun x hx => ?_⟩
  obtain ⟨i, hi, hxi⟩ := getElem_of_mem hx
  have hmem : i ∈ List.range reasmSegs := mem_range.2 (hslots ▸ hi)
  obtain ⟨pos, hs, h1, h2⟩ := hl i hmem x (List.getElem?_eq_some_iff.2 ⟨hi, hxi⟩)
  exact ⟨pos, hs, hfront ▸ h1, h2⟩

/-- The slots in use. -/
def used (t : Tcb) : ℕ := t.reasm.countP Option.isSome

theorem used_drainSlot (t : Tcb) (i : ℕ) : used (drainSlot t i).1 + (drainSlot t i).2.toNat ≤ used t := by
  unfold drainSlot
  split
  · exact le_refl _
  · rename_i x hslot
    have hx : t.reasm[i]? = some (some x) := by simpa [Option.join_eq_some_iff] using hslot
    obtain ⟨hi, hxi⟩ := List.getElem?_eq_some_iff.1 hx
    have hcount : (t.reasm.set i none).countP Option.isSome = t.reasm.countP Option.isSome - 1 := by
      rw [countP_set hi, hxi]
      simp
    have hpos : 0 < t.reasm.countP Option.isSome := countP_pos_iff.2 ⟨some x, mem_of_getElem? hx, rfl⟩
    have hset : ∀ u : Tcb, u.reasm = t.reasm.set i none → used u + 1 ≤ used t := by
      intro u hu
      unfold used
      rw [hu, hcount]
      omega
    split
    · exact hset _ rfl
    split
    · exact (Nat.le_succ _).trans (hset { t with reasm := t.reasm.set i none } rfl)
    · exact le_refl _

theorem used_rounds (l : List ℕ) (r : Tcb × Bool) :
    used (l.foldl drainRound r).1 + (l.foldl drainRound r).2.toNat ≤ used r.1 + r.2.toNat := by
  refine Run.foldl_rel (r := fun a b : Tcb × Bool => used b.1 + b.2.toNat ≤ used a.1 + a.2.toNat)
    (fun _ => le_rfl) (fun _ _ _ h1 h2 => h2.trans h1) (fun i _ r => ?_) r
  have hi := used_drainSlot r.1 i
  have hor : (r.2 || (drainSlot r.1 i).2).toNat ≤ r.2.toNat + (drainSlot r.1 i).2.toNat := by
    cases r.2 <;> cases (drainSlot r.1 i).2 <;> decide
  simp only [drainRound]
  omega

/-- **The queue is drained**: the passes end with one in which nothing moved. -/
theorem Draining.loop (fuel : ℕ) : ∀ t, Draining S isn got t → used t < fuel → RxInv S isn got (drainLoop fuel t).rx := by
  induction fuel with
  | zero => intro t _ hu; exact absurd hu (Nat.not_lt_zero _)
  | succ fuel ih =>
    intro t h hu
    have hused := used_rounds (List.range reasmSegs) (t, false)
    unfold drainLoop
    simp only
    split
    · rename_i hm
      -- every pass that moves frees a slot
      have hlt : used (drainPass t).1 + 1 ≤ used t := by
        have : (drainPass t).2.toNat = 1 := by rw [hm]; rfl
        unfold drainPass at *
        simp only [toNat_false, add_zero] at hused
        omega
      exact ih _ h.pass (by omega)
    · rename_i hm
      exact h.settled (eq_false_iff.2 hm)

theorem Draining.drain (h : Draining S isn got t) : RxInv S isn got (drainReasm t).rx := by
  apply Draining.loop _ t h
  have hslots : t.reasm.length = reasmSegs := h.ok.slots
  have : used t ≤ t.reasm.length := countP_le_length
  omega

/-- The ring only grows while the queue is drained, and there is no FIN in it. -/
def Grows (t t' : Tcb) : Prop := t'.finRcvd = t.finRcvd ∧ t.rcv.len ≤ t'.rcv.len

theorem grows_deliver (t : Tcb) (data : List UInt8) : Grows t (deliver t data) := by
  refine ⟨rfl, ?_⟩
  show t.rcv.len ≤ (t.rcv.push rcvbufSize _).len
  rw [len_push]
  omega

theorem grows_drainSlot (t : Tcb) (i : ℕ) : Grows t (drainSlot t i).1 := by
  unfold drainSlot
  split
  · exact ⟨rfl, le_refl _⟩
  split
  · exact grows_deliver t _
  split <;> exact ⟨rfl, le_refl _⟩

theorem grows_drainReasm (t : Tcb) : Grows t (drainReasm t) := drainLoop_rel (R := Grows) (fun _ => ⟨rfl, le_refl _⟩)
    (fun _ _ _ h1 h2 => ⟨h2.1.trans h1.1, h1.2.trans h2.2⟩) grows_drainSlot _ t

/-! ## A segment -/

/-- Positions less than this apart are compared the right way, whatever is taken in between. -/
def reach : ℕ := 1073741824

/-- A segment of the peer, when the stream has been taken up to `p`: it has no data and no FIN,
or its data are a piece of the stream not too far from `p` and its FIN stands at the end. -/
def Carries (S : List UInt8) (isn p : ℕ) (s : Seg) : Prop :=
  s.data = [] ∧ s.flags.fin = false ∨ ∃ pos, Slice S (isn + 1) pos s.seq s.data ∧
    (s.flags.fin → pos + s.data.length = S.length) ∧
      p < pos + reach ∧ pos + s.data.length < p + reach

section

variable (h : RxInv S isn got t.rx)
include h

theorem RxInv.congr (ht : t'.rx = t.rx) : RxInv S isn got t'.rx := ht ▸ h

theorem RxInv.queue {seq : ℕ} (hs : Slice S (isn + 1) pos seq data)
    (hlo : front got t.rx < pos) (hhi : pos + data.length < front got t.rx + reach) :
    RxInv S isn got (queueReasm t seq data).rx := by
  unfold queueReasm
  split
  · exact h
  split
  · exact h
  · rename_i i _
    refine ⟨⟨h.ok.room, by simpa [Tcb.rx] using h.ok.slots, h.ok.within, h.ok.stream, h.ok.next, h.ok.fin⟩, ?_⟩
    intro x hx
    obtain hx | hx := mem_or_eq_of_mem_set hx
    · exact h.ahead x hx
    · cases hx
      refine ⟨pos, hs.take reasmMax, hlo, ?_⟩
      have hroom : t.rcv.len ≤ rcvbufSize := h.ok.room
      have hlen : (data.take reasmMax).length ≤ data.length := length_take_le' _ _
      have hfront : front got t.rx = got.length + t.rcv.len := rfl
      unfold rcvbufSize reach half at *
      simp only
      omega

/-- What the data of a segment do: in order they are taken as far as there is room, early
they are queued, and otherwise nothing happens. -/
theorem RxInv.segData (now : ℕ) (hs : Slice S (isn + 1) pos s.seq s.data)
    (h1 : front got t.rx < pos + reach) (h2 : pos + s.data.length < front got t.rx + reach) :
    RxInv S isn got (segData now s t).rx ∧ (segData now s t).finRcvd = t.finRcvd ∧
      front got t.rx ≤ front got (segData now s t).rx ∧
      (pos ≠ front got t.rx → front got (segData now s t).rx = front got t.rx) ∧
      (pos = front got t.rx → t.finRcvd = false → s.data.length ≤ rcvbufSize - t.rcv.len →
        pos + s.data.length ≤ front got (segData now s t).rx) := by
  have hkeep : ∀ u : Tcb, u.rx = t.rx → RxInv S isn got u.rx ∧ u.finRcvd = t.finRcvd ∧
      front got t.rx ≤ front got u.rx ∧ (pos ≠ front got t.rx → front got u.rx = front got t.rx) := by
    intro u hu
    exact ⟨h.congr hu, congrArg Rx.finRcvd hu, (congrArg (front got) hu).ge, fun _ => congrArg (front got) hu⟩
  have hfin : t.finRcvd.toNat ≤ 1 := toNat_le _
  have hnext : Stands t.rcvNxt (isn + 1 + front got t.rx + t.finRcvd.toNat) := h.ok.next
  have hwithin := hs.within
  unfold Tcp.segData
  split
  · rename_i hnil
    obtain ⟨k1, k2, k3, k4⟩ := hkeep t rfl
    refine ⟨k1, k2, k3, k4, fun hp _ _ => ?_⟩
    rw [hnil, hp]
    exact le_refl _
  rename_i hdata
  have hpos : 0 < s.data.length := length_pos_iff.2 hdata
  -- behind the FIN there is no data
  have hnofin : pos = front got t.rx + t.finRcvd.toNat ∨ front got t.rx + t.finRcvd.toNat < pos → t.finRcvd = false := by
    intro hp
    by_contra hf
    rw [not_eq_false] at hf
    have := h.ok.fin hf
    omega
  have heq : s.seq = t.rcvNxt ↔ pos = front got t.rx + t.finRcvd.toNat := by
    rw [hs.num.eq_iff hnext (by unfold reach half at *; omega) (by unfold reach half at *; omega)]
    omega
  have hgt : Serial.gt s.seq t.rcvNxt ↔ front got t.rx + t.finRcvd.toNat < pos := by
    rw [hs.num.gt_iff hnext (by unfold reach half at *; omega) (by unfold reach half at *; omega)]
    omega
  split
  · rename_i hseq
    rw [heq] at hseq
    have hf := hnofin (.inl hseq)
    rw [hf, toNat_false, add_zero] at hseq
    -- the segment is next: it is delivered and the queue is drained
    have hd : Draining S isn got (deliver t s.data) :=
      ⟨h.ok.deliver hf (hseq ▸ hs.bytes), hf, h.ahead.mono (Nat.le_succ_of_le (Nat.le_add_right _ _)) (le_refl _)⟩
    have hdrain := hd.drain
    have hgrow := grows_drainReasm (deliver t s.data)
    have hfront : front got (deliver t s.data).rx ≤ front got (drainReasm (deliver t s.data)).rx :=
      Nat.add_le_add_left hgrow.2 _
    have hdel := front_deliver got t s.data
    have hall : ∀ u : Tcb, u.rx = (drainReasm (deliver t s.data)).rx → RxInv S isn got u.rx ∧ u.finRcvd = t.finRcvd ∧
        front got t.rx ≤ front got u.rx ∧ (pos ≠ front got t.rx → front got u.rx = front got t.rx) ∧
        (pos = front got t.rx → t.finRcvd = false → s.data.length ≤ rcvbufSize - t.rcv.len →
          pos + s.data.length ≤ front got u.rx) := by
      intro u hu
      have hfu : front got u.rx = front got (drainReasm (deliver t s.data)).rx := congrArg (front got) hu
      exact ⟨hdrain.congr hu, (congrArg Rx.finRcvd hu).trans hgrow.1, by omega, fun hne => absurd hseq hne,
        fun _ _ hroom => by omega⟩
    simp only
    split
    · exact hall _ rfl
    · exact hall _ (same_sendAck { drainReasm (deliver t s.data) with delackDeadline := 0 }).1
  rename_i hne
  rw [heq] at hne
  have hlast : ∀ u : Tcb, pos = front got t.rx → t.finRcvd = false → s.data.length ≤ rcvbufSize - t.rcv.len →
      pos + s.data.length ≤ front got u.rx := by
    intro u hp hf _
    rw [hf] at hne
    exact absurd hp hne
  split
  · rename_i hlt
    rw [hgt] at hlt
    have hf := hnofin (.inr hlt)
    rw [hf, toNat_false, add_zero] at hlt
    have hq := h.queue hs hlt h2
    have hrx := (same_sendAck (queueReasm t s.seq s.data)).1
    have hqf : (queueReasm t s.seq s.data).finRcvd = t.finRcvd ∧ (queueReasm t s.seq s.data).rcv = t.rcv := by
      unfold queueReasm
      split
      · exact ⟨rfl, rfl⟩
      · split <;> exact ⟨rfl, rfl⟩
    have hfr : front got (sendAck (queueReasm t s.seq s.data)).rx = front got t.rx := by
      rw [hrx]
      exact congrArg (fun b : RingBuf UInt8 => got.length + b.len) hqf.2
    exact ⟨hq.congr hrx, (congrArg Rx.finRcvd hrx).trans hqf.1, hfr.ge, fun _ => hfr, hlast _⟩
  · obtain ⟨k1, k2, k3, k4⟩ := hkeep (sendAck t) (same_sendAck t).1
    exact ⟨k1, k2, k3, k4, hlast _⟩

/-- A FIN that is taken when the whole stream has been. -/
theorem RxInv.segFin (hs : Slice S (isn + 1) pos s.seq s.data)
    (h1 : front got t.rx + 1 < pos + half) (h2 : pos + s.data.length < front got t.rx + half)
    (hend : s.flags.fin → pos + s.data.length = S.length)
    (hall : s.flags.fin → pos ≤ front got t.rx → t.finRcvd = false → front got t.rx = S.length) :
    RxInv S isn got (segFin now s t).rx := by
  have hnext : Stands t.rcvNxt (isn + 1 + front got t.rx + t.finRcvd.toNat) := h.ok.next
  have hfin1 : t.finRcvd.toNat ≤ 1 := toNat_le _
  unfold Tcp.segFin
  split
  · rename_i hc
    rw [and_eq_true, and_eq_true] at hc
    obtain ⟨⟨hf, hle⟩, hge⟩ := hc
    have hend' := hs.stop
    rw [hs.num.le_iff hnext (by omega) (by omega)] at hle
    rw [hend'.ge_iff hnext (by omega) (by omega)] at hge
    have hS := hend hf
    -- a second FIN lies before `rcv_nxt`
    have hno : t.finRcvd = false := by
      by_contra hfr
      rw [not_eq_false] at hfr
      have := h.ok.fin hfr
      rw [hfr, toNat_true] at hge
      omega
    rw [hno, toNat_false] at hle
    have hP := hall hf (by omega) hno
    have hrx : (finState now (sendAck { t with finRcvd := true, rcvNxt := add t.rcvNxt 1 })).rx =
        { t.rx with finRcvd := true, rcvNxt := add t.rcvNxt 1 } := by
      rw [rx_finState, (same_sendAck _).1]
      rfl
    rw [hrx]
    have hrep : Stands (add t.rcvNxt 1) (isn + 1 + front got t.rx + 1) := (h.ok.rep hno).add 1
    exact ⟨⟨h.ok.room, h.ok.slots, h.ok.within, h.ok.stream, hrep, fun _ => hP⟩, h.ahead⟩
  · exact h

end

/-- The FIN of a segment does not overtake data: in order, the data before it fit; and it does
not come with data that were only partly taken before. -/
def FinFits (s : Seg) (t : Tcb) : Prop :=
  s.flags.fin = true → (s.seq = t.rcvNxt → s.data.length ≤ rcvbufSize - t.rcv.len) ∧
      ¬ (Serial.lt s.seq t.rcvNxt ∧ Serial.gt (add s.seq s.data.length) t.rcvNxt)

/-- Without data and FIN the receive side stays as it is. -/
theorem rx_segRest_empty (now : ℕ) (hd : s.data = []) (hf : s.flags.fin = false) (t : Tcb) : (segRest now s t).rx = t.rx := by
  obtain ⟨u, hu, hr⟩ := rx_segRest now s t
  have hdata : segData now s u = u := by simp [segData, hd]
  rw [hr, hdata]
  unfold segFin
  simp only [hf, Bool.false_and, Bool.false_eq_true, if_false]
  exact hu.1

theorem RxInv.segRest (h : RxInv S isn got t.rx) (hc : Carries S isn (front got t.rx) s) (hfits : FinFits s t) :
    RxInv S isn got (segRest now s t).rx := by
  obtain ⟨hd, hf⟩ | ⟨pos, hs, hend, h1, h2⟩ := hc
  · exact h.congr (rx_segRest_empty now hd hf t)
  obtain ⟨u, hu, hr⟩ := rx_segRest now s t
  rw [hr]
  have hrx : u.rx = t.rx := hu.1
  obtain ⟨d1, d2, d3, d4, d5⟩ := (h.congr hrx).segData now hs (hrx ▸ h1) (hrx ▸ h2)
  have hrcv : u.rcv = t.rcv := congrArg Rx.rcv hrx
  have hfr : u.finRcvd = t.finRcvd := congrArg Rx.finRcvd hrx
  rw [hrx] at d3 d4 d5
  -- at most a ring full of bytes is taken at once
  have hmost : front got (Tcp.segData now s u).rx ≤ front got t.rx + rcvbufSize := by
    have := d1.ok.room
    unfold front at *
    omega
  refine d1.segFin hs (by unfold reach half rcvbufSize at *; omega) (by unfold reach half at *; omega) hend ?_
  intro hf hle hno
  rw [d2, hfr] at hno
  obtain ⟨hfit, hold⟩ := hfits hf
  have hS := hend hf
  have hnext : Stands t.rcvNxt (isn + 1 + front got t.rx) := h.ok.rep hno
  have hw := d1.ok.within
  rcases Nat.lt_trichotomy pos (front got t.rx) with hlt | heq | hgt
  · -- the segment begins before `rcv_nxt`, so it ends there at the latest
    have hlt' : Serial.lt s.seq t.rcvNxt :=
      (hs.num.lt_iff hnext (by unfold reach half at *; omega) (by unfold reach half at *; omega)).2 (by omega)
    have hend' := hs.stop
    have hgt' : ¬ Serial.gt (add s.seq s.data.length) t.rcvNxt := fun hg => hold ⟨hlt', hg⟩
    rw [hend'.gt_iff hnext (by unfold reach half at *; omega) (by unfold reach half at *; omega)] at hgt'
    omega
  · have hseq : s.seq = t.rcvNxt := by
      rw [hs.num.eq_iff hnext (by unfold reach half at *; omega) (by unfold reach half at *; omega)]
      omega
    have := d5 heq (hfr.trans hno) (hrcv ▸ hfit hseq)
    omega
  · have := d4 (ne_of_gt hgt)
    omega

/-- **A segment of the peer keeps the invariant.** -/
theorem RxInv.segment (h : RxInv S isn got t.rx) (hstate : t.state ≠ .synSent)
    (hc : Carries S isn (front got t.rx) s) (hfits : FinFits s t) : RxInv S isn got (tcpSegment now s t).1.rx := by
  have hm := tcpSegment_move now s t
  generalize tcpSegment now s t = r at hm ⊢
  cases hm with
  | reset | ignored | answered => exact h
  | connected hr | simultaneous hr => exact absurd hr hstate
  | established => exact .segRest (t := segEstablished s t) h hc hfits
  | rest => exact h.segRest hc hfits

/-! ## Runs -/

theorem RxInv.recv (h : RxInv S isn got t.rx) (len : ℕ) :
    RxInv S isn (got ++ received (tcpRecv len t).2) (tcpRecv len t).1.rx := by
  unfold tcpRecv
  split
  · have hn : 0 + min len t.rcv.len ≤ t.rcv.len := by omega
    have hout : t.rcv.peek rcvbufSize 0 (min len t.rcv.len) = (t.rcv.contents rcvbufSize).take (min len t.rcv.len) := by
      rw [peek_eq hn, drop_zero]
    have hlen : ((t.rcv.contents rcvbufSize).take (min len t.rcv.len)).length = min len t.rcv.len := by
      rw [length_take, length_contents]
      omega
    have hskip : RxInv S isn (got ++ (t.rcv.contents rcvbufSize).take (min len t.rcv.len))
        { t.rx with rcv := t.rcv.skip rcvbufSize (min len t.rcv.len) } := by
      have hfront : front (got ++ (t.rcv.contents rcvbufSize).take (min len t.rcv.len))
          { t.rx with rcv := t.rcv.skip rcvbufSize (min len t.rcv.len) } = front got t.rx := by
        simp only [front, length_append, hlen, len_skip, Tcb.rx]
        omega
      have hroom : t.rcv.len ≤ rcvbufSize := h.ok.room
      refine ⟨⟨?_, h.ok.slots, hfront ▸ h.ok.within, ?_, hfront ▸ h.ok.next, fun hf => hfront ▸ h.ok.fin hf⟩, ?_⟩
      · show t.rcv.len - min len t.rcv.len ≤ rcvbufSize
        omega
      · show _ ++ (t.rcv.skip rcvbufSize (min len t.rcv.len)).contents rcvbufSize = _
        rw [contents_skip, append_assoc, take_append_drop, hfront]
        exact h.ok.stream
      · rw [hfront]
        exact h.ahead.mono (le_refl _) (by rw [length_append]; omega)
    simp only [received, hout]
    split
    · rw [(same_sendAck _).1]
      exact hskip
    · exact hskip
  split
  · simpa [received] using h
  split <;> simpa [received] using h

/-- A run of one connection with a peer that sends `S`: its segments carry pieces of `S`, and the
block is not used for another connection. -/
def Peer (S : List UInt8) (isn : ℕ) (c : Conn) (e : ℕ × Event) : Prop :=
  match e.2 with
  | .segment s => Carries S isn (front c.got c.t.rx) s
  | e => e.opens = false

/-- No FIN overtakes data. -/
def FinFitsEvent (c : Conn) (e : ℕ × Event) : Prop :=
  match e.2 with
  | .segment s => FinFits s c.t
  | _ => True

/-- The handshake is through: nothing has been received but the peer's SYN. -/
structure Opened (isn : ℕ) (c : Conn) : Prop where
  got : c.got = []
  empty : c.t.rcv.len = 0
  next : c.t.rcvNxt = (isn + 1) % size
  slots : c.t.reasm = List.replicate reasmSegs none
  nofin : c.t.finRcvd = false
  state : c.t.state ≠ .synSent

theorem Opened.rxInv (h : Opened isn c) (S : List UInt8) : RxInv S isn c.got c.t.rx := by
  have hfront : front c.got c.t.rx = 0 := by
    rw [h.got]
    show 0 + c.t.rcv.len = 0
    rw [h.empty]
  refine ⟨⟨?_, ?_, ?_, ?_, ?_, ?_⟩, ?_⟩
  · show c.t.rcv.len ≤ rcvbufSize
    rw [h.empty]
    exact Nat.zero_le _
  · show c.t.reasm.length = reasmSegs
    rw [h.slots, length_replicate]
  · rw [hfront]
    exact Nat.zero_le _
  · have hc : c.t.rcv.contents rcvbufSize = [] := length_eq_zero_iff.1 (by rw [length_contents, h.empty])
    rw [hfront, h.got]
    simpa [Tcb.rx] using hc
  · show Stands c.t.rcvNxt (isn + 1 + front c.got c.t.rx + c.t.finRcvd.toNat)
    rw [hfront, h.nofin]
    exact h.next
  · intro hf
    exact absurd (h.nofin.symm.trans hf) false_ne_true
  · intro x hx
    have hx' : some x ∈ c.t.reasm := hx
    rw [h.slots] at hx'
    cases eq_of_mem_replicate hx'

/-- The invariant of a run. -/
def RecvInv (S : List UInt8) (isn : ℕ) (c : Conn) : Prop := RxInv S isn c.got c.t.rx ∧ c.t.state ≠ .synSent

theorem RecvInv.step (h : RecvInv S isn c) (e : ℕ × Event) (hp : Peer S isn c e)
    (hfits : FinFitsEvent c e) : RecvInv S isn (step c e) := by
  obtain ⟨now, e⟩ := e
  have hopens : e.opens = false := by
    cases e <;> first | rfl | exact hp
  refine ⟨?_, (moves_step c (now, e) hopens).ne_synSent h.2⟩
  have hcalled := called_step c (now, e) hopens
  cases e with
  | segment s => exact h.1.segment h.2 hp hfits
  | recv len => exact h.1.recv len
  | connect | listen => cases hopens
  | release =>
    simp only [Tcp.step]
    split
    · exact h.1.congr (called_tcpRelease c.t).rx
    · exact h.1
  | _ => exact h.1.congr (hcalled (fun _ h => by cases h) (fun _ h => by cases h)).rx

theorem RecvInv.run (h0 : Opened isn c) {es : List (ℕ × Event)}
    (hrun : Run.Valid Tcp.step (fun c e => Peer S isn c e ∧ FinFitsEvent c e) c es) :
    RecvInv S isn (final Tcp.step c es) :=
  hrun.invariant (fun _ e h hok => h.step e hok.1 hok.2) ⟨h0.rxInv S, h0.state⟩

/-- **What `tcp_recv` returns is a prefix of what the peer sent**, in every run in which no FIN
overtakes data. -/
theorem recv_prefix_run (S : List UInt8) (isn : ℕ) (c : Conn) (es : List (ℕ × Event)) (h0 : Opened isn c)
    (hrun : Run.Valid step (fun c e => Peer S isn c e ∧ FinFitsEvent c e) c es) :
    (final step c es).got <+: S := by
  have h := (RecvInv.run h0 hrun).1.ok.stream
  have hgot : (final step c es).got <+: S.take (front (final step c es).got (final step c es).t.rx) := ⟨_, h⟩
  exact hgot.trans (List.take_prefix _ _)

/-- A segment with an acknowledgement of nothing new. -/
def peerSeg (seq : ℕ) (fin : Bool) (data : List UInt8) : ℕ × Event :=
  (0, .segment ⟨seq, 1001, { ack := true, fin := fin }, 8192, 0, data⟩)

/-- The peer's stream in the runs below. -/
def sixBytes : List UInt8 := [97, 98, 99, 100, 101, 102]

theorem openTcb_opened : Opened 2000 ⟨openTcb, [], [], [], false⟩ := ⟨rfl, rfl, rfl, rfl, rfl, by decide⟩

/-- Three bytes, a retransmission that overlaps them and has the FIN, and the end once more. -/
def overlapRun : List (ℕ × Event) :=
  [peerSeg 2001 false [97, 98, 99], peerSeg 2002 true [98, 99, 100, 101, 102], peerSeg 2005 false [101, 102], (0, .recv 6)]

/-- The same bytes in two segments out of order, the FIN by itself. -/
def orderlyRun : List (ℕ × Event) :=
  [peerSeg 2004 false [100, 101, 102], peerSeg 2001 false [97, 98, 99], peerSeg 2007 true [], (0, .recv 6)]

theorem orderlyRun_valid : Run.Valid step (fun c e => Peer sixBytes 2000 c e ∧ FinFitsEvent c e)
    ⟨openTcb, [], [], [], false⟩ orderlyRun := by
  refine ⟨⟨?_, ?_⟩, ⟨?_, ?_⟩, ⟨?_, ?_⟩, ⟨?_, ?_⟩, trivial⟩
  · exact .inr ⟨3, ⟨by decide, by decide, by decide⟩, by decide, by decide, by decide⟩
  · intro hf; cases hf
  · exact .inr ⟨0, ⟨by decide, by decide, by decide⟩, by decide, by decide, by decide⟩
  · intro hf; cases hf
  · exact .inr ⟨6, ⟨by decide, by decide, by decide⟩, by decide, by decide, by decide⟩
  · intro _
    exact ⟨fun _ => Nat.zero_le _, by decide⟩
  · rfl
  · trivial

/-- Segments out of order are put together. -/
theorem recv_prefix_run_orderly : (final step ⟨openTcb, [], [], [], false⟩ orderlyRun).got <+: sixBytes :=
  recv_prefix_run sixBytes 2000 _ orderlyRun openTcb_opened orderlyRun_valid

/-- A FIN that overtakes data loses a byte: `tcp_recv` returns `abcef`. -/
theorem fin_overtakes_data : ¬ ∀ (S : List UInt8) (isn : ℕ) (c : Conn) (es : List (ℕ × Event)), Opened isn c →
      Run.Valid step (Peer S isn) c es → (final step c es).got <+: S := by
  intro h
  have hrun : Run.Valid step (Peer sixBytes 2000) ⟨openTcb, [], [], [], false⟩ overlapRun := by
    refine ⟨?_, ?_, ?_, ?_, trivial⟩
    · exact .inr ⟨0, ⟨by decide, by decide, by decide⟩, by decide, by decide, by decide⟩
    · exact .inr ⟨1, ⟨by decide, by decide, by decide⟩, by decide, by decide, by decide⟩
    · exact .inr ⟨4, ⟨by decide, by decide, by decide⟩, by decide, by decide, by decide⟩
    · rfl
  have hgot : (final step ⟨openTcb, [], [], [], false⟩ overlapRun).got = [97, 98, 99, 101, 102] := by
    decide
  have hp := h sixBytes 2000 _ overlapRun openTcb_opened hrun
  revert hp
  decide

/-- **No acknowledged byte is lost.** `rcv_nxt`, the number every ACK carries, stands behind the bytes that were returned
and those in the ring, which are the stream up to there, and all of it once the FIN is counted. -/
theorem acked_bytes_kept (S : List UInt8) (isn : ℕ) (c : Conn) (es : List (ℕ × Event)) (h0 : Opened isn c)
    (hrun : Run.Valid step (fun c e => Peer S isn c e ∧ FinFitsEvent c e) c es) : let c := final step c es
    ∃ n, c.got ++ c.t.rcv.contents rcvbufSize = S.take n ∧ n ≤ S.length ∧
      Stands c.t.rcvNxt (isn + 1 + n + c.t.finRcvd.toNat) ∧ (c.t.finRcvd → n = S.length) := by
  have h := (RecvInv.run h0 hrun).1.ok
  exact ⟨_, h.stream, h.within, h.next, h.fin⟩

/-- The segments come out of order, and one of them once more at the end. -/
theorem acked_bytes_kept_reordered :
    let c := final step ⟨openTcb, [], [], [], false⟩ (orderlyRun ++ [peerSeg 2004 false [100, 101, 102]])
    c.got ++ c.t.rcv.contents rcvbufSize = sixBytes ∧ Stands c.t.rcvNxt 2008 := by
  intro c
  have hlast : Peer sixBytes 2000 (final step ⟨openTcb, [], [], [], false⟩ orderlyRun) (peerSeg 2004 false [100, 101, 102]) :=
    .inr ⟨3, ⟨by decide, by decide, by decide⟩, by decide, by decide, by decide⟩
  obtain ⟨n, hs, -, hn, hall⟩ := acked_bytes_kept sixBytes 2000 _ (orderlyRun ++ [peerSeg 2004 false [100, 101, 102]])
    openTcb_opened (Run.valid_append.2 ⟨orderlyRun_valid, ⟨hlast, nofun⟩, trivial⟩)
  have hfin : c.t.finRcvd = true := by decide
  obtain rfl : n = 6 := hall hfin
  change Stands c.t.rcvNxt (2007 + c.t.finRcvd.toNat) at hn
  rw [hfin] at hn
  exact ⟨hs, hn⟩

end NeoOS.Tcp
