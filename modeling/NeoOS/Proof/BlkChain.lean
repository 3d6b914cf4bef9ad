import NeoOS.Proof.BlkCache

/-!
# Calls of the cache made one at a time

A valid buffer is in the chain of its sector, once, and in no other chain: that holds whatever the threads
do. What a read returns is the sector on the disk if calls do not overlap and a sector is written under the
one name the cache has it under: the driver drops bits of the drive and of the address, the cache does not.
-/

namespace NeoOS.BlkCache

open Function (update_of_ne update_self)

variable {Sector : Type} {s : State Sector} {k : Key} {i : Index} {t : ℕ} {e : Buf Sector}

/-! ## The chains -/

/-- How often a buffer is to be in a chain: a valid one once, in the chain of its sector. -/
def Buf.links (e : Buf Sector) (b : ℕ) : ℕ := if e.valid ∧ b = bucketOf e.key then 1 else 0

theorem Buf.links_invalid (h : e.valid = false) (b : ℕ) : e.links b = 0 :=
  if_neg fun hc => Bool.false_ne_true (h.symm.trans hc.1)

theorem Buf.links_valid (h : e.valid) (b : ℕ) : e.links b = if b = bucketOf e.key then 1 else 0 := by
  simp only [Buf.links, h, true_and]

def Chained (s : State Sector) : Prop := ∀ i b, (s.buckets b).count i = (s.entries i).links b

section

variable (h : Chained s)
include h

theorem Chained.unlinkBuf (i : Index) : Chained (s.unlinkBuf i) := by
  unfold State.unlinkBuf
  dsimp only
  split
  · exact h
  rename_i hv
  intro j b
  have hj := h j b
  simp only [State.setEntry]
  by_cases hji : j = i
  · subst hji
    rw [Buf.links_valid (by simpa using hv)] at hj
    rw [update_self, Buf.links_invalid rfl]
    by_cases hb : b = bucketOf (s.entries j).key
    · -- the one link is taken out
      rw [if_pos hb] at hj
      rw [← hb, update_self, List.count_erase_self, hj]
    · rw [if_neg hb] at hj
      rw [update_of_ne hb, hj]
  · rw [update_of_ne hji]
    by_cases hb : b = bucketOf (s.entries i).key
    · rw [← hb, update_self, List.count_erase_of_ne hji]
      exact hj
    · rw [update_of_ne hb]
      exact hj

theorem Chained.claim (hl : Linked s) (k : Key) : Chained (s.claim k).2 := by
  unfold State.claim
  split
  · exact h
  have hu := h.unlinkBuf s.victim
  have hgone := (unlinkBuf_spec hl s.victim).gone
  dsimp only
  generalize s.victim = v at hu hgone ⊢
  generalize s.unlinkBuf v = s1 at hu hgone ⊢
  intro j b
  have hj := hu j b
  simp only [State.setEntry]
  by_cases hjv : j = v
  · -- the victim was in no chain
    subst hjv
    rw [Buf.links_invalid hgone] at hj
    rw [update_self, Buf.links_valid rfl]
    by_cases hb : b = bucketOf k
    · rw [hb] at hj ⊢
      rw [update_self, List.count_cons_self, hj, if_pos rfl]
    · rw [update_of_ne hb, hj, if_neg hb]
  · rw [update_of_ne hjv]
    by_cases hb : b = bucketOf k
    · rw [hb] at hj ⊢
      rw [update_self, List.count_cons_of_ne (Ne.symm hjv)]
      exact hj
    · rw [update_of_ne hb]
      exact hj

theorem Chained.touch {b : Buf Sector} (hv : b.valid = (s.entries i).valid)
    (hk : b.key = (s.entries i).key) (clock : ℕ) : Chained ({ s with clock := clock }.setEntry i b) := by
  intro j c
  simp only [State.setEntry, Buf.links, touch_same hv hk]
  exact h j c

theorem Chained.fill (hl : Linked s) (k : Key) (data : Sector) : Chained (s.fill k data) := by
  apply (h.claim hl k).touch <;> rfl

/-- **One step** keeps the chains, whatever the other threads are doing. -/
theorem Chained.step (hl : Linked s) (e : Event Sector) : Chained (step s e) := by
  cases e with
  | read t k =>
    simp only [BlkCache.step]
    split
    · unfold readStep
      split
      · apply h.touch <;> rfl
      · exact h
    · exact h
  | fetch t ok | write t k data left =>
    simp only [BlkCache.step]
    split <;> exact h
  | install t =>
    simp only [BlkCache.step]
    split
    · exact h.fill hl _ _
    · exact h
  | publish t =>
    simp only [BlkCache.step]
    split
    · unfold publishStep
      split
      · exact h.fill hl _ _
      · split
        · exact h.unlinkBuf _
        · exact h
    · exact h
  | invalidate drive => exact invalidateDrive_keeps (fun _ i hs => hs.unlinkBuf i) h drive

end

/-! ## Whole calls -/

/-- A call from its start to its end; `ok` says whether the transfer of a read that misses succeeds. -/
inductive Op (Sector : Type)
  | read (t : ℕ) (k : Key) (ok : Bool)
  | write (t : ℕ) (k : Key) (data : Sector) (left : Option Sector)
  | invalidate (drive : ℕ)

def Op.steps : Op Sector → List (Event Sector)
  | .read t k ok => [.read t k, .fetch t ok, .install t]
  | .write t k data left => [.write t k data left, .publish t]
  | .invalidate drive => [.invalidate drive]

/-- The call with nothing in between. After a hit the later steps of a read change nothing. -/
def runOp (s : State Sector) (o : Op Sector) : State Sector := Run.final step s o.steps

/-- The condition: what is written is not in the cache under another name. -/
def OneName (s : State Sector) : Op Sector → Prop
  | .write _ k _ _ => ∀ i, (s.entries i).valid → (s.entries i).key.place = k.place → (s.entries i).key = k
  | _ => True

/-- What holds between two calls. -/
structure Between (s : State Sector) : Prop where
  inv : Inv s
  chained : Chained s
  quiet : Quiet s

theorem Between.read (h : Between s) (t : ℕ) (k : Key) (ok : Bool) :
    ∃ out, (runOp s (.read t k ok)).calls t = .idle out ∧ ∀ data, out = some data → data = s.disk k.place := by
  obtain ⟨out, ht⟩ := h.quiet t
  cases hl : s.lookup k with
  | some i =>
    obtain ⟨hv, hk⟩ := lookup_some hl
    refine ⟨some (s.entries i).data, by simp [runOp, Op.steps, step, ht, readStep, hl, State.setCall], ?_⟩
    rintro data ⟨⟩
    rw [h.inv.quiet h.quiet i hv, hk]
  | none =>
    cases ok with
    | true =>
      refine ⟨some (s.disk k.place), by simp [runOp, Op.steps, step, ht, readStep, hl, State.setCall], ?_⟩
      rintro data ⟨⟩
      rfl
    | false => exact ⟨none, by simp [runOp, Op.steps, step, ht, readStep, hl, State.setCall], fun _ hd => by cases hd⟩

theorem publishStep_calls (s : State Sector) (t : ℕ) (k : Key) (data : Sector) (ok : Bool) :
    (publishStep s t k data ok).calls t = .idle none := by
  unfold publishStep
  split
  · exact update_self ..
  · split <;> exact update_self ..

theorem Between.quiet_op (h : Between s) (o : Op Sector) : Quiet (runOp s o) := by
  intro u
  by_cases hu : ∀ e ∈ o.steps, e.thread ≠ some u
  · obtain ⟨out, hout⟩ := h.quiet u
    exact ⟨out, (final_calls_other hu s).trans hout⟩
  cases o with
  | read t k ok =>
    obtain rfl : t = u := by simpa [Op.steps, Event.thread] using hu
    obtain ⟨out, hout, -⟩ := h.read t k ok
    exact ⟨out, hout⟩
  | write t k data left =>
    obtain rfl : t = u := by simpa [Op.steps, Event.thread] using hu
    obtain ⟨out, ht⟩ := h.quiet t
    refine ⟨none, ?_⟩
    simp only [runOp, Op.steps, Run.final_cons, Run.final_nil, step, ht, writeStep, State.setCall, update_self]
    exact publishStep_calls ..
  | invalidate drive => exact absurd (by simp [Op.steps, Event.thread]) hu

/-- **One call** keeps what holds between two calls. -/
theorem Between.op (h : Between s) (o : Op Sector) (ho : OneName s o) : Between (runOp s o) := by
  have hv : Run.Valid step Alone s o.steps := by
    cases o with
    | read t k ok => exact ⟨trivial, trivial, trivial, trivial⟩
    | write t k data left =>
      refine ⟨⟨fun u hu => ?_, ho⟩, trivial, trivial⟩
      obtain ⟨out, hout⟩ := h.quiet u
      rw [hout] at hu
      exact hu
    | invalidate drive => exact ⟨trivial, trivial⟩
  obtain ⟨hi, hc⟩ := hv.invariant (I := fun s => Inv s ∧ Chained s)
    (fun s e hs ha => ⟨hs.1.step e ha, hs.2.step hs.1.linked e⟩) ⟨h.inv, h.chained⟩
  exact ⟨hi, hc, h.quiet_op o⟩

/-- What the cache guarantees between calls. -/
structure CacheOK (s : State Sector) : Prop where
  chain : ∀ i, (s.entries i).valid → ∀ b, (s.buckets b).count i = if b = bucketOf (s.entries i).key then 1 else 0
  unique : ∀ i j, (s.entries i).valid → (s.entries j).valid → (s.entries i).key = (s.entries j).key → i = j
  read : ∀ t k ok data, (runOp s (.read t k ok)).calls t = .idle (some data) → data = s.disk k.place

/-- **Calls one at a time.** In a run of whole calls none of which writes a sector that is cached under
another name, every valid buffer is in the chain of its sector and nowhere else, a sector has one buffer, and
a read that succeeds returns what is on the disk, also after writes that failed. -/
theorem calls_cacheOK (blank : Sector) (disk : ℕ × ℕ → Sector) (os : List (Op Sector))
    (hv : Run.Valid runOp OneName (.init blank disk) os) : CacheOK (Run.final runOp (.init blank disk) os) := by
  have h0 : Between (.init blank disk) := ⟨.init blank disk, fun _ _ => rfl, fun _ => ⟨none, rfl⟩⟩
  have h := hv.invariant (fun _ o hs ho => hs.op o ho) h0
  refine ⟨fun i hi b => ?_, h.inv.linked.uniq, fun t k ok data hd => ?_⟩
  · rw [h.chained i b, Buf.links_valid hi]
  · obtain ⟨out, hout, hread⟩ := h.read t k ok
    rw [hout] at hd
    cases hd
    exact hread data rfl

/-- A write that fails and leaves a torn sector is followed by a read. -/
theorem calls_cacheOK_torn :
    CacheOK (Run.final runOp (.init 0 fun _ => 5) [.read 0 ⟨0, 7⟩ true, .write 0 ⟨0, 7⟩ 9 (some 6)]) := by
  refine calls_cacheOK 0 (fun _ => 5) _ ⟨trivial, ?_, trivial⟩
  unfold OneName
  decide +kernel

/-- Sector 7 is cached; the same sector is written as number 7 + 2^28, and a read of 7 returns what the disk
had before. -/
theorem alias_reads_stale :
    (runOp (Run.final runOp (.init 0 fun _ => 5) [.read 0 ⟨0, 7⟩ true, .write 0 ⟨0, 268435463⟩ 9 none])
      (.read 0 ⟨0, 7⟩ true)).calls 0 = .idle (some 5) ∧
    (Run.final runOp (.init 0 fun _ => 5) [.read 0 ⟨0, 7⟩ true, .write 0 ⟨0, 268435463⟩ 9 none]).disk
      (Key.place ⟨0, 7⟩) = 9 := by
  constructor <;> rfl

end NeoOS.BlkCache
