import NeoOS.Lib.Run
import NeoOS.Spec.FatWalk

/-!
# The cursor of a chain is a shortcut

A cursor stands at a point of the walk from the first cluster (`Walk.Fits`), and a walk that goes
on from such a point ends where the whole walk ends; as long as no entry changes that a cursor in use
has passed.
-/

namespace NeoOS.FatWalk

open Function (update update_self update_of_ne)

variable {v : Volume} {w : Walk} {s : State} {first n index i c d cluster value : ℕ} {pc : Pc}

/-- `n` rounds from cluster `c`, without a cursor; `false` says that one of them met the end of the chain. -/
def Volume.rounds (v : Volume) : ℕ → ℕ → ℕ × Bool
  | 0, c => (c, true)
  | n + 1, c => if v.next c < 2 ∨ v.isEoc (v.next c) then (v.next c, false) else v.rounds n (v.next c)

/-- The clusters whose entries `n` rounds from `c` read. -/
def Volume.passed (v : Volume) : ℕ → ℕ → List ℕ
  | 0, _ => []
  | n + 1, c => c :: v.passed n (v.next c)

/-- The clusters whose entries a transfer relies on. -/
def Pc.passed (v : Volume) : Pc → List ℕ
  | .idle => []
  | .transfer _ w => v.passed w.index w.first
  | .walk first w _ i _ => v.passed w.index w.first ++ v.passed i first

/-- No entry changes that a cursor in use has passed. -/
def Intact (s : State) : Event → Prop
  | .setNext cluster _ => ∀ t, cluster ∉ (s.pc t).passed s.vol
  | _ => True

theorem rounds_add {m : ℕ} (n : ℕ) (h : v.rounds m c = (d, true)) : v.rounds (m + n) c = v.rounds n d := by
  induction m generalizing c with
  | zero =>
    cases h
    rw [Nat.zero_add]
  | succ m ih =>
    rw [Volume.rounds] at h
    rw [Nat.succ_add, Volume.rounds]
    split at h
    · cases h
    · rename_i hgo
      rw [if_neg hgo]
      exact ih h

theorem rounds_setNext (hp : cluster ∉ v.passed n c) : (v.setNext cluster value).rounds n c = v.rounds n c := by
  induction n generalizing c with
  | zero => rfl
  | succ n ih =>
    obtain ⟨hne, hp⟩ := not_or.1 fun hm => hp (List.mem_cons.2 hm)
    have hnext : (v.setNext cluster value).next c = v.next c := update_of_ne (Ne.symm hne) _ _
    rw [Volume.rounds, Volume.rounds, hnext, ih hp]
    rfl

/-! ## The invariant -/

/-- The cursor stands where `index` rounds from its first cluster lead. -/
def Walk.Fits (v : Volume) (w : Walk) : Prop := 2 ≤ w.first → v.rounds w.index w.first = (w.cluster, true)

/-- So does the cursor of a transfer, and the walk of a lookup. -/
def Pc.Fits (v : Volume) : Pc → Prop
  | .idle => True
  | .transfer _ w => w.Fits v
  | .walk first w index i cluster => w.Fits v ∧ i ≤ index ∧ v.rounds i first = (cluster, true)

theorem Walk.Fits.enter (h : w.Fits v) (first index : ℕ) : (enter first index w).Fits v := by
  unfold FatWalk.enter
  split
  · rename_i hc
    obtain ⟨rfl, h2, hle⟩ := hc
    exact ⟨h, hle, h h2⟩
  · exact ⟨h, Nat.zero_le _, rfl⟩

/-- **A round** leads on along the walk, or returns the cluster where the walk ends. -/
theorem Pc.Fits.round (h : (Pc.walk first w index i cluster).Fits v) : (v.round first w index i cluster).1.Fits v ∧
    ∀ r ∈ (v.round first w index i cluster).2, r.cluster = (v.rounds r.index r.first).1 := by
  obtain ⟨hw, hle, hi⟩ := h
  unfold Volume.round
  split
  · rename_i hlt
    have hnext := rounds_add (index - i) hi
    rw [Nat.add_sub_cancel' hle, show index - i = index - i - 1 + 1 by omega, Volume.rounds] at hnext
    split
    · rename_i hend
      rw [if_pos hend] at hnext
      refine ⟨hw, fun r hr => ?_⟩
      cases hr
      rw [hnext]
    · rename_i hgo
      refine ⟨⟨hw, hlt, ?_⟩, nofun⟩
      rw [rounds_add 1 hi, Volume.rounds, if_neg hgo]
      rfl
  · obtain rfl : i = index := by omega
    refine ⟨fun _ => hi, fun r hr => ?_⟩
    cases hr
    rw [hi]

theorem Pc.Fits.setNext (h : pc.Fits v) (hp : cluster ∉ pc.passed v) : pc.Fits (v.setNext cluster value) := by
  cases pc with
  | idle => trivial
  | transfer first w =>
    intro h2
    rw [rounds_setNext hp]
    exact h h2
  | walk first w index i c =>
    obtain ⟨hw, hle, hi⟩ := h
    obtain ⟨hpw, hpi⟩ := not_or.1 (fun hm => hp (List.mem_append.2 hm))
    refine ⟨fun h2 => ?_, hle, ?_⟩
    · rw [rounds_setNext hpw]
      exact hw h2
    · rw [rounds_setNext hpi]
      exact hi

def Inv (s : State) : Prop := ∀ t, (s.pc t).Fits s.vol

theorem Inv.update (h : Inv s) (t : ℕ) (hpc : pc.Fits s.vol) : Inv { s with pc := update s.pc t pc } := by
  intro u
  by_cases hu : u = t
  · rw [hu]
    simpa only [update_self] using hpc
  · simpa only [update_of_ne hu] using h u

theorem Inv.step (h : Inv s) (e : Event) (hok : Intact s e) : Inv (step s e) := by
  unfold FatWalk.step
  cases e with
  | setNext cluster value => exact fun t => (h t).setNext (hok t)
  | start t first =>
    simp only [stepOut]
    split
    · exact h.update t fun h2 => absurd h2 (by decide)
    · exact h
  | look t offset =>
    have ht := h t
    simp only [stepOut]
    split
    · rename_i first w hpc
      rw [hpc] at ht
      exact h.update t (Walk.Fits.enter ht first _)
    · exact h
  | go t =>
    have ht := h t
    simp only [stepOut]
    split
    · rename_i first w index i cluster hpc
      rw [hpc] at ht
      exact h.update t ht.round.1
    · exact h
  | finish t =>
    simp only [stepOut]
    split
    · exact h.update t trivial
    · exact h

theorem Inv.found (h : Inv s) {e : Event} {r : Found} (hr : found s e = some r) :
    r.cluster = (s.vol.rounds r.index r.first).1 := by
  unfold FatWalk.found at hr
  cases e with
  | go t =>
    have ht := h t
    simp only [stepOut] at hr
    split at hr
    · rename_i first w index i cluster hpc
      rw [hpc] at ht
      exact ht.round.2 r hr
    · cases hr
  | setNext => cases hr
  | start | look | finish =>
    simp only [stepOut] at hr
    split at hr <;> cases hr

/-- **The cursor changes nothing** as long as no entry changes that a cursor in use has passed: in every run of any number
of transfers, each call returns the cluster that the walk from the first cluster ends at. -/
theorem cached_eq_walked (v : Volume) (es : List Event) (e : Event) (r : Found)
    (hrun : Run.Valid step Intact ⟨v, fun _ => .idle⟩ es) (hr : found (Run.final step ⟨v, fun _ => .idle⟩ es) e = some r) :
    r.cluster = ((Run.final step ⟨v, fun _ => .idle⟩ es).vol.rounds r.index r.first).1 :=
  Inv.found (hrun.invariant (fun _ e (h : Inv _) hok => h.step e hok) fun _ => trivial) hr

/-- Clusters 2, 3 and 4 are a file; cluster 5 is free. -/
def smallVolume : Volume := ⟨false, 1024, fun c => if c = 2 then 3 else if c = 3 then 4 else if c = 4 then 0xFFFF else 0⟩

/-- The file is read up to its second cluster, while it is extended by cluster 5. -/
def extendRun : List Event :=
  [.start 0 2, .look 0 1024, .go 0, .go 0, .setNext 5 0xFFFF, .setNext 4 5, .look 0 3072, .go 0, .go 0]

theorem cached_eq_walked_extended : found (Run.final step ⟨smallVolume, fun _ => .idle⟩ extendRun) (.go 0) = some ⟨2, 3, 5⟩ ∧
    5 = ((Run.final step ⟨smallVolume, fun _ => .idle⟩ extendRun).vol.rounds 3 2).1 := by
  have hfound : found (Run.final step ⟨smallVolume, fun _ => .idle⟩ extendRun) (.go 0) = some ⟨2, 3, 5⟩ := by decide
  refine ⟨hfound, cached_eq_walked smallVolume extendRun (.go 0) _ ?_ hfound⟩
  refine ⟨trivial, trivial, trivial, trivial, fun t => ?_, fun t => ?_, trivial, trivial, trivial, trivial⟩
  · cases t with
    | zero => decide
    | succ t => exact List.not_mem_nil
  · cases t with
    | zero => decide
    | succ t => exact List.not_mem_nil

/-- A program is read without `fs_lock`, one sector at a time, and after the third sector the file is truncated. -/
def truncateRun : List Event :=
  [.start 0 2, .look 0 0, .go 0, .look 0 512, .go 0, .look 0 1024, .go 0, .go 0, .setNext 2 0, .setNext 3 0, .setNext 4 0,
    .look 0 1536]

/-- The cursor still gives the old second cluster, where the walk finds that the chain has ended. -/
theorem cursor_stale : found (Run.final step ⟨smallVolume, fun _ => .idle⟩ truncateRun) (.go 0) = some ⟨2, 1, 3⟩ ∧
    ((Run.final step ⟨smallVolume, fun _ => .idle⟩ truncateRun).vol.rounds 1 2).1 = 0 := by
  decide

end NeoOS.FatWalk
