import NeoOS.Spec.BlkCache

/-!
# The cache and the disk

A valid buffer has the bytes of its sector, or a write of that sector is on its way to the cache. A sector
read from the disk and not yet installed must not be overtaken by a write of the same sector: nothing in
the code prevents that, so it is the condition.
-/

namespace NeoOS.BlkCache

open List
open Function (forall_update_iff update update_of_ne update_self)
open State (setEntry)

variable {Sector : Type} {s s' s'' : State Sector} {k : Key} {i j : Index} {t : ℕ} {b : Buf Sector} {data : Sector}

/-! ## The chains -/

/-- Every valid buffer is in the chain of its sector, and a sector has one buffer. -/
structure Linked (s : State Sector) : Prop where
  mem : ∀ i, (s.entries i).valid → i ∈ s.buckets (bucketOf (s.entries i).key)
  uniq : ∀ i j, (s.entries i).valid → (s.entries j).valid → (s.entries i).key = (s.entries j).key → i = j

theorem lookup_some (h : s.lookup k = some i) : (s.entries i).valid ∧ (s.entries i).key = k := by
  simpa using find?_some h

/-- Buffers were dropped, and nothing else changed. -/
structure Thinned (s s' : State Sector) : Prop where
  disk : s'.disk = s.disk
  calls : s'.calls = s.calls
  kept : ∀ j, (s'.entries j).valid → s'.entries j = s.entries j

theorem Thinned.refl (s : State Sector) : Thinned s s := ⟨rfl, rfl, fun _ _ => rfl⟩

theorem Thinned.trans (h1 : Thinned s s') (h2 : Thinned s' s'') : Thinned s s'' where
  disk := h2.disk.trans h1.disk
  calls := h2.calls.trans h1.calls
  kept j hj := by
    have h := h2.kept j hj
    rw [h] at hj
    exact h.trans (h1.kept j hj)

/-- What `unlink_buf` does. -/
structure Unlinked (s : State Sector) (i : Index) (s' : State Sector) : Prop where
  linked : Linked s'
  thinned : Thinned s s'
  gone : (s'.entries i).valid = false

/-- A buffer has the sector `k` now, and the others are as they were. -/
structure Filled (s : State Sector) (k : Key) (P : Buf Sector → Prop) (s' : State Sector) (i : Index) : Prop where
  linked : Linked s'
  disk : s'.disk = s.disk
  calls : s'.calls = s.calls
  valid : (s'.entries i).valid
  key : (s'.entries i).key = k
  here : P (s'.entries i)
  others : ∀ j, j ≠ i → (s'.entries j).valid → s'.entries j = s.entries j

theorem touch_same (hv : b.valid = (s.entries i).valid) (hk : b.key = (s.entries i).key) (j : Index) :
    (update s.entries i b j).valid = (s.entries j).valid ∧ (update s.entries i b j).key = (s.entries j).key :=
  (forall_update_iff s.entries fun j x => x.valid = (s.entries j).valid ∧ x.key = (s.entries j).key).2
    ⟨⟨hv, hk⟩, fun _ _ => ⟨rfl, rfl⟩⟩ j

theorem invalidateDrive_keeps {P : State Sector → Prop} (hP : ∀ s i, P s → P (s.unlinkBuf i)) (h : P s) (drive : ℕ) :
    P (s.invalidateDrive drive) := by
  unfold State.invalidateDrive
  generalize List.finRange 128 = l
  induction l generalizing s with
  | nil => exact h
  | cons i l ih =>
    rw [foldl_cons]
    split
    · exact ih (hP s i h)
    · exact ih h

section

variable (hs : Linked s)
include hs

theorem lookup_none (h : s.lookup k = none) (hi : (s.entries i).valid) : (s.entries i).key ≠ k := by
  intro hk
  have hno := find?_eq_none.1 h i (hk ▸ hs.mem i hi)
  simp [hi, hk] at hno

theorem unlinkBuf_spec (i : Index) : Unlinked s i (s.unlinkBuf i) := by
  unfold State.unlinkBuf
  dsimp only
  split
  · rename_i hv
    exact ⟨hs, .refl s, by simpa using hv⟩
  have hself : ∀ b : Buf Sector, update s.entries i b i = b := fun b => update_self ..
  have hother : ∀ (b : Buf Sector) j, j ≠ i → update s.entries i b j = s.entries j := fun b j hj => update_of_ne hj ..
  -- a buffer that is valid afterwards is another one
  have hne : ∀ j, (update s.entries i { s.entries i with valid := false } j).valid = true → j ≠ i := by
    rintro j hj rfl
    rw [hself] at hj
    cases hj
  refine ⟨⟨fun j hj => ?_, fun a b ha hb hab => ?_⟩, ⟨rfl, rfl, fun j hj => hother _ j (hne j hj)⟩, ?_⟩
  · have hji := hne j hj
    simp only [setEntry, hother _ j hji] at hj ⊢
    by_cases hb : bucketOf (s.entries j).key = bucketOf (s.entries i).key
    · rw [hb, update_self]
      exact (mem_erase_of_ne hji).2 (hb ▸ hs.mem j hj)
    · rw [update_of_ne hb]
      exact hs.mem j hj
  · have ha' := hne a ha
    have hb' := hne b hb
    simp only [setEntry, hother _ a ha', hother _ b hb'] at ha hb hab
    exact hs.uniq a b ha hb hab
  · change (update s.entries i _ i).valid = false
    rw [hself]

/-! ## Filling a buffer -/

theorem claim_spec (k : Key) : Filled s k (fun _ => True) (s.claim k).2 (s.claim k).1 := by
  unfold State.claim
  split
  · rename_i i hl
    obtain ⟨hv, hk⟩ := lookup_some hl
    exact ⟨hs, rfl, rfl, hv, hk, trivial, fun _ _ _ => rfl⟩
  rename_i hl
  have hu := unlinkBuf_spec hs s.victim
  dsimp only
  generalize s.victim = v at hu ⊢
  generalize hs1 : s.unlinkBuf v = s1 at hu ⊢
  have hself : ∀ b : Buf Sector, update s1.entries v b v = b := fun b => update_self ..
  have hother : ∀ (b : Buf Sector) j, j ≠ v → update s1.entries v b j = s1.entries j := fun b j hj => update_of_ne hj ..
  -- no other buffer has the sector
  have hfree : ∀ j, (s1.entries j).valid → (s1.entries j).key ≠ k := fun j hj => by
    have he := hu.thinned.kept j hj
    rw [he] at hj ⊢
    exact lookup_none hs hl hj
  refine ⟨⟨fun j hj => ?_, fun a b ha hb hab => ?_⟩, hu.thinned.disk, hu.thinned.calls, ?_, ?_, trivial, fun j hj hv => ?_⟩
  · by_cases hjv : j = v
    · subst hjv
      simp only [setEntry, hself, update_self]
      exact mem_cons_self
    · simp only [setEntry, hother _ j hjv] at hj ⊢
      by_cases hb : bucketOf (s1.entries j).key = bucketOf k
      · rw [hb, update_self]
        exact mem_cons_of_mem _ (hb ▸ hu.linked.mem j hj)
      · rw [update_of_ne hb]
        exact hu.linked.mem j hj
  · simp only [setEntry] at ha hb hab
    by_cases hav : a = v <;> by_cases hbv : b = v
    · rw [hav, hbv]
    · subst hav
      rw [hother _ b hbv] at hb hab
      rw [hself] at hab
      exact absurd hab.symm (hfree b hb)
    · subst hbv
      rw [hother _ a hav] at ha hab
      rw [hself] at hab
      exact absurd hab (hfree a ha)
    · rw [hother _ a hav] at ha hab
      rw [hother _ b hbv] at hb hab
      exact hu.linked.uniq a b ha hb hab
  · simp only [setEntry, hself]
  · simp only [setEntry, hself]
  · simp only [setEntry, hother _ j hj] at hv ⊢
    exact hu.thinned.kept j hv

theorem Linked.touch (hv : b.valid = (s.entries i).valid) (hk : b.key = (s.entries i).key)
    (clock : ℕ) : Linked ({ s with clock := clock }.setEntry i b) := by
  refine ⟨fun j hj => ?_, fun a c ha hc hac => ?_⟩
  · simp only [setEntry, touch_same hv hk] at hj ⊢
    exact hs.mem j hj
  · simp only [setEntry, touch_same hv hk] at ha hc hac
    exact hs.uniq a c ha hc hac

theorem fill_spec (k : Key) (data : Sector) : ∃ i, Filled s k (fun b => b.data = data) (s.fill k data) i := by
  have hc := claim_spec hs k
  unfold State.fill
  generalize s.claim k = r at hc ⊢
  refine ⟨r.1, ?_, hc.disk, hc.calls, ?_, ?_, ?_, fun j hj hv => ?_⟩
  · apply Linked.touch hc.linked <;> rfl
  · simp only [setEntry, update_self, hc.valid]
  · simp only [setEntry, update_self, hc.key]
  · simp only [setEntry, update_self]
  · simp only [setEntry, update_of_ne hj] at hv ⊢
    exact hc.others j hj hv

theorem invalidateDrive_spec (drive : ℕ) : Linked (s.invalidateDrive drive) ∧ Thinned s (s.invalidateDrive drive) := by
  refine invalidateDrive_keeps (P := fun s' => Linked s' ∧ Thinned s s') ?_ ⟨hs, .refl s⟩ drive
  rintro s' i ⟨hl, ht⟩
  have hu := unlinkBuf_spec hl i
  exact ⟨hu.linked, ht.trans hu.thinned⟩

end

/-! ## Coherence -/

/-- The call has a transfer of the sector behind it that the cache does not know of. -/
def Call.inFlight (c : Call Sector) (place : ℕ × ℕ) : Prop :=
  match c with
  | .fetched k _ => k.place = place
  | .wrote k _ _ => k.place = place
  | _ => False

/-- The condition: a sector is written only while no other call is between its transfer of that sector and
the cache, and while the cache does not have it under another name. -/
def Alone (s : State Sector) : Event Sector → Prop
  | .write _ k _ _ => (∀ t, ¬ (s.calls t).inFlight k.place) ∧
      ∀ i, (s.entries i).valid → (s.entries i).key.place = k.place → (s.entries i).key = k
  | _ => True

structure Inv (s : State Sector) : Prop where
  linked : Linked s
  coherent : ∀ i, (s.entries i).valid →
    (s.entries i).data = s.disk (s.entries i).key.place ∨ ∃ t data ok, s.calls t = .wrote (s.entries i).key data ok
  fetched : ∀ t k data, s.calls t = .fetched k data → data = s.disk k.place
  wrote : ∀ t k data, s.calls t = .wrote k data true → data = s.disk k.place

/-- Every valid buffer has the bytes of its sector. -/
def Coherent (s : State Sector) : Prop :=
  ∀ i, (s.entries i).valid → (s.entries i).data = s.disk (s.entries i).key.place

/-- No call is in progress. -/
def Quiet (s : State Sector) : Prop := ∀ t, ∃ out, s.calls t = .idle out

section Moves

variable (h : Inv s)
include h

theorem Inv.quiet (hq : Quiet s) : Coherent s := by
  intro i hi
  rcases h.coherent i hi with h | ⟨t, data, ok, ht⟩
  · exact h
  · obtain ⟨out, hout⟩ := hq t
    rw [hout] at ht
    cases ht

theorem Inv.thin (hl : Linked s') (ht : Thinned s s') : Inv s' := by
  refine ⟨hl, fun i hi => ?_, ?_, ?_⟩
  · have he := ht.kept i hi
    rw [he] at hi ⊢
    rw [ht.disk, ht.calls]
    exact h.coherent i hi
  · rw [ht.disk, ht.calls]
    exact h.fetched
  · rw [ht.disk, ht.calls]
    exact h.wrote

theorem Inv.fill (hd : data = s.disk k.place) : Inv (s.fill k data) := by
  obtain ⟨i, hi⟩ := fill_spec h.linked k data
  refine ⟨hi.linked, fun j hj => ?_, ?_, ?_⟩
  · by_cases hji : j = i
    · left
      rw [hji, hi.here, hi.key, hi.disk, hd]
    · have he := hi.others j hji hj
      rw [he] at hj ⊢
      rw [hi.disk, hi.calls]
      exact h.coherent j hj
  · rw [hi.disk, hi.calls]
    exact h.fetched
  · rw [hi.disk, hi.calls]
    exact h.wrote

theorem Inv.touch (i : Index) (clock stamp : ℕ) :
    Inv ({ s with clock := clock }.setEntry i { s.entries i with lastUsed := stamp }) := by
  refine ⟨?_, fun j hj => ?_, h.fetched, h.wrote⟩
  · apply Linked.touch h.linked <;> rfl
  · have hsame : ∀ j, (update s.entries i { s.entries i with lastUsed := stamp } j).data = (s.entries j).data ∧
        (update s.entries i { s.entries i with lastUsed := stamp } j).key = (s.entries j).key ∧
        (update s.entries i { s.entries i with lastUsed := stamp } j).valid = (s.entries j).valid := by
      intro j
      by_cases hji : j = i
      · subst hji
        rw [update_self]
        exact ⟨rfl, rfl, rfl⟩
      · rw [update_of_ne hji]
        exact ⟨rfl, rfl, rfl⟩
    obtain ⟨h1, h2, h3⟩ := hsame j
    simp only [setEntry, h1, h2, h3] at hj ⊢
    exact h.coherent j hj

/-- A thread goes on. Only the end of a write takes an excuse away from a buffer: that of its sector. -/
theorem Inv.setCall {c : Call Sector} (hold : ∀ k data ok, s.calls t = .wrote k data ok →
      ∀ i, (s.entries i).valid → (s.entries i).key = k → (s.entries i).data = s.disk k.place)
    (hf : ∀ k data, c = .fetched k data → data = s.disk k.place)
    (hw : ∀ k data, c = .wrote k data true → data = s.disk k.place) : Inv (s.setCall t c) := by
  have hself : update s.calls t c t = c := update_self ..
  have hother : ∀ u, u ≠ t → update s.calls t c u = s.calls u := fun u hu => update_of_ne hu ..
  refine ⟨⟨h.linked.mem, h.linked.uniq⟩, fun i hi => ?_, fun u k data hu => ?_, fun u k data hu => ?_⟩
  · rcases h.coherent i hi with hd | ⟨u, data, ok, hu⟩
    · exact .inl hd
    · by_cases hut : u = t
      · rw [hut] at hu
        exact .inl (hold _ data ok hu i hi rfl)
      · exact .inr ⟨u, data, ok, (hother u hut).trans hu⟩
  · by_cases hut : u = t
    · simp only [State.setCall, hut, hself] at hu
      exact hf k data hu
    · simp only [State.setCall, hother u hut] at hu
      exact h.fetched u k data hu
  · by_cases hut : u = t
    · simp only [State.setCall, hut, hself] at hu
      exact hw k data hu
    · simp only [State.setCall, hother u hut] at hu
      exact h.wrote u k data hu

theorem Inv.read {out : Option Sector} (ht : s.calls t = .idle out) (k : Key) : Inv (readStep s t k) := by
  have hold : ∀ k data ok, s.calls t ≠ .wrote k data ok := by simp [ht]
  unfold readStep
  split
  · exact (h.touch _ _ _).setCall (fun k data ok hw => absurd hw (hold k data ok)) nofun nofun
  · exact h.setCall (fun k data ok hw => absurd hw (hold k data ok)) nofun nofun

theorem Inv.write {left : Option Sector} (ht : ∃ out, s.calls t = .idle out)
    (ha : Alone s (.write t k data left)) : Inv (writeStep s t k data left) := by
  obtain ⟨hfree, hname⟩ := ha
  have hplace : ∀ k' : Key, k'.place ≠ k.place → update s.disk k.place (left.getD data) k'.place = s.disk k'.place :=
    fun k' hk' => update_of_ne hk' ..
  have hself : update s.calls t (.wrote k data left.isNone) t = .wrote k data left.isNone := update_self ..
  have hother : ∀ u, u ≠ t → update s.calls t (.wrote k data left.isNone) u = s.calls u := fun u hu => update_of_ne hu ..
  -- a sector in flight is another one
  have hne : ∀ (u : ℕ) (k' : Key), (s.calls u).inFlight k'.place → k'.place ≠ k.place := fun u k' hu hk => hfree u (hk ▸ hu)
  refine ⟨⟨h.linked.mem, h.linked.uniq⟩, fun i hi => ?_, fun u k' data' hu => ?_, fun u k' data' hu => ?_⟩
  · by_cases hp : (s.entries i).key.place = k.place
    · -- the buffer of the sector is excused by this write
      refine .inr ⟨t, data, left.isNone, ?_⟩
      change update s.calls t _ t = Call.wrote (s.entries i).key data left.isNone
      rw [hself, hname i hi hp]
    · rcases h.coherent i hi with hd | ⟨u, data', ok, hu⟩
      · exact .inl (hd.trans (hplace _ hp).symm)
      · refine .inr ⟨u, data', ok, ?_⟩
        have hut : u ≠ t := by
          rintro rfl
          obtain ⟨out, hout⟩ := ht
          rw [hout] at hu
          cases hu
        exact (hother u hut).trans hu
  · by_cases hut : u = t
    · simp only [writeStep, State.setCall, hut, hself] at hu
      cases hu
    · simp only [writeStep, State.setCall, hother u hut] at hu ⊢
      rw [hplace k' (hne u k' (by rw [hu]; exact rfl))]
      exact h.fetched u k' data' hu
  · by_cases hut : u = t
    · simp only [writeStep, State.setCall, hut, hself] at hu ⊢
      cases left with
      | none =>
        cases hu
        rw [update_self, Option.getD_none]
      | some d => cases hu
    · simp only [writeStep, State.setCall, hother u hut] at hu ⊢
      rw [hplace k' (hne u k' (by rw [hu]; exact rfl))]
      exact h.wrote u k' data' hu

theorem Inv.publish {ok : Bool} (ht : s.calls t = .wrote k data ok) : Inv (publishStep s t k data ok) := by
  unfold publishStep
  cases ok with
  | true =>
    have hd := h.wrote t k data ht
    have hfill := h.fill hd
    obtain ⟨i, hi⟩ := fill_spec h.linked k data
    rw [if_pos rfl]
    refine hfill.setCall (fun k' data' ok' hw j hj hk => ?_) nofun nofun
    rw [hi.calls, ht] at hw
    cases hw
    -- the only buffer of the sector is the one just filled
    have hji := hi.linked.uniq j i hj hi.valid (hk.trans hi.key.symm)
    rw [hji, hi.here, hi.disk]
    exact hd
  | false =>
    rw [if_neg Bool.false_ne_true]
    split
    · rename_i i hl
      obtain ⟨hv, hkey⟩ := lookup_some hl
      have hu := unlinkBuf_spec h.linked i
      refine (h.thin hu.linked hu.thinned).setCall (fun k' data' ok' hw j hj hk => ?_) nofun nofun
      rw [hu.thinned.calls, ht] at hw
      cases hw
      have he := hu.thinned.kept j hj
      have hji : j ≠ i := by
        rintro rfl
        rw [hu.gone] at hj
        cases hj
      rw [he] at hj hk
      exact absurd (h.linked.uniq j i hj hv (hk.trans hkey.symm)) hji
    · rename_i hl
      refine h.setCall (fun k' data' ok' hw j hj hk => ?_) nofun nofun
      rw [ht] at hw
      cases hw
      exact absurd hk (lookup_none h.linked hl hj)

/-- **One step** keeps the cache and the disk together. -/
theorem Inv.step (e : Event Sector) (ha : Alone s e) : Inv (step s e) := by
  cases e with
  | read t k =>
    simp only [BlkCache.step]
    split
    · rename_i hc
      exact h.read hc k
    · exact h
  | fetch t ok =>
    simp only [BlkCache.step]
    split
    · rename_i k hc
      refine h.setCall (fun k data ok' hw => by simp [hc] at hw) (fun k' data hf => ?_) fun k' data hw => ?_
      · split at hf
        · cases hf
          rfl
        · cases hf
      · split at hw <;> cases hw
    · exact h
  | install t =>
    simp only [BlkCache.step]
    split
    · rename_i k data hc
      obtain ⟨i, hi⟩ := fill_spec h.linked k data
      refine (h.fill (h.fetched t k data hc)).setCall (fun k' data' ok hw => ?_) nofun nofun
      rw [hi.calls, hc] at hw
      cases hw
    · exact h
  | write t k data left =>
    simp only [BlkCache.step]
    split
    · rename_i out hc
      exact h.write ⟨out, hc⟩ ha
    · exact h
  | publish t =>
    simp only [BlkCache.step]
    split
    · rename_i k data ok hc
      exact h.publish hc
    · exact h
  | invalidate drive =>
    obtain ⟨hl, ht⟩ := invalidateDrive_spec h.linked drive
    exact h.thin hl ht

end Moves

theorem Inv.init (blank : Sector) (disk : ℕ × ℕ → Sector) : Inv (.init blank disk) := ⟨⟨nofun, nofun⟩, nofun, nofun, nofun⟩

/-- The thread an event is a step of. -/
def Event.thread : Event Sector → Option ℕ
  | .read t _ | .fetch t _ | .install t | .write t _ _ _ | .publish t => some t
  | .invalidate _ => none

theorem unlinkBuf_calls (s : State Sector) (i : Index) : (s.unlinkBuf i).calls = s.calls := by
  unfold State.unlinkBuf
  dsimp only
  split <;> rfl

theorem fill_calls (s : State Sector) (k : Key) (data : Sector) : (s.fill k data).calls = s.calls := by
  unfold State.fill State.claim
  split
  · rfl
  · exact unlinkBuf_calls s s.victim

theorem invalidateDrive_calls (s : State Sector) (drive : ℕ) : (s.invalidateDrive drive).calls = s.calls :=
  invalidateDrive_keeps (P := fun s' => s'.calls = s.calls) (fun s' i h => (unlinkBuf_calls s' i).trans h) rfl drive

theorem step_calls_other (s : State Sector) (e : Event Sector) (hne : e.thread ≠ some t) : (step s e).calls t = s.calls t := by
  have hset : ∀ (s : State Sector) (u : ℕ) (c : Call Sector), some u ≠ some t → (s.setCall u c).calls t = s.calls t := by
    intro s u c hu
    exact update_of_ne (fun h => hu (congrArg some h.symm)) ..
  cases e with
  | read u k =>
    simp only [step]
    split
    · unfold readStep
      split <;> exact hset _ u _ hne
    · rfl
  | install u =>
    simp only [step]
    split
    · rw [hset _ u _ hne, fill_calls]
    · rfl
  | fetch u ok | write u k data left =>
    simp only [step]
    split
    · exact hset _ u _ hne
    · rfl
  | publish u =>
    simp only [step]
    split
    · unfold publishStep
      split
      · rw [hset _ u _ hne, fill_calls]
      · split
        · rw [hset _ u _ hne, unlinkBuf_calls]
        · exact hset _ u _ hne
    · rfl
  | invalidate drive => rw [step, invalidateDrive_calls]

theorem final_calls_other {es : List (Event Sector)} (hne : ∀ e ∈ es, e.thread ≠ some t) (s : State Sector) :
    (Run.final step s es).calls t = s.calls t := by
  induction es generalizing s with
  | nil => rfl
  | cons e es ih =>
    rw [Run.final_cons, ih (fun e' he' => hne e' (mem_cons_of_mem e he')) (step s e)]
    exact step_calls_other s e (hne e mem_cons_self)

/-- **The cache agrees with the disk.** In a run in which no write overtakes another transfer of its sector,
every valid buffer has the bytes of its sector whenever no call is in progress. -/
theorem cache_coherent (blank : Sector) (disk : ℕ × ℕ → Sector) (es : List (Event Sector))
    (hv : Run.Valid step Alone (.init blank disk) es) (hq : Quiet (Run.final step (.init blank disk) es)) :
    Coherent (Run.final step (.init blank disk) es) :=
  (hv.invariant (fun _ e h ha => h.step e ha) (Inv.init blank disk)).quiet hq

/-- A read that misses, then a write of the same sector. -/
theorem cache_coherent_read_write : Coherent (Run.final step (.init 0 fun _ => 5)
      [.read 0 ⟨0, 7⟩, .fetch 0 true, .install 0, .write 1 ⟨0, 7⟩ 9 none, .publish 1]) := by
  refine cache_coherent 0 (fun _ => 5) _ ⟨trivial, trivial, trivial, ⟨fun t ht => ?_, ?_⟩, trivial, trivial⟩ fun t => ?_
  · by_cases h0 : t = 0
    · subst h0
      exact ht
    · have hidle : (Run.final step (.init 0 fun _ => 5) [.read 0 ⟨0, 7⟩, .fetch 0 true, .install 0]).calls t =
          .idle none := final_calls_other (by simp [Event.thread, Ne.symm h0]) _
      exact (hidle ▸ ht : Call.inFlight (.idle none) _)
  · decide +kernel
  · by_cases h0 : t = 0
    · subst h0
      exact ⟨some 5, rfl⟩
    · by_cases h1 : t = 1
      · subst h1
        exact ⟨none, rfl⟩
      · exact ⟨none, final_calls_other (by simp [Event.thread, Ne.symm h0, Ne.symm h1]) _⟩

/-- A reader has the old sector in hand while a writer writes and publishes the new one; then it installs
the old one. -/
theorem cache_stale_install : Quiet (Run.final step (.init 0 fun _ => 5)
      [.read 0 ⟨0, 7⟩, .fetch 0 true, .write 1 ⟨0, 7⟩ 9 none, .publish 1, .install 0]) ∧
    ¬ Coherent (Run.final step (.init 0 fun _ => 5)
      [.read 0 ⟨0, 7⟩, .fetch 0 true, .write 1 ⟨0, 7⟩ 9 none, .publish 1, .install 0]) := by
  constructor
  · intro t
    by_cases h0 : t = 0
    · subst h0
      exact ⟨some 5, rfl⟩
    · by_cases h1 : t = 1
      · subst h1
        exact ⟨none, rfl⟩
      · exact ⟨none, final_calls_other (by simp [Event.thread, Ne.symm h0, Ne.symm h1]) _⟩
  · unfold Coherent
    decide +kernel

end NeoOS.BlkCache
