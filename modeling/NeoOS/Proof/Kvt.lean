import NeoOS.Spec.Kvt

/-!
# The console parser stays inside its grid

Every byte leaves the cursor, the ring index and the parameter index inside their bounds, and is done
without a call of `feed_byte` to itself, but for a control character inside a CSI sequence: there the
call meets the same state and the same byte, and does not end.
-/

namespace NeoOS.Console

open List

variable {v : Kvt} {row i : ℤ} {l : List ℤ} {f : Kvt → ℤ → Except Fault Kvt} {c : UInt8} {bytes : List UInt8}

structure InGrid (v : Kvt) : Prop where
  cols : 1 ≤ v.cols ∧ v.cols ≤ maxCols
  rows : 1 ≤ v.rows ∧ v.rows ≤ maxRows
  top : 0 ≤ v.top ∧ v.top < vcRing
  cx : 0 ≤ v.cx ∧ v.cx < v.cols
  cy : 0 ≤ v.cy ∧ v.cy < v.rows
  nparam : 0 ≤ v.nparam ∧ v.nparam ≤ 8

/-- The call returns, inside the grid and in the parser state `p`. -/
def Ends (p : PState) (r : Except Fault Kvt) : Prop := ∃ v, r = .ok v ∧ InGrid v ∧ v.pstate = p

/-- The call returns and has only drawn. -/
def Draws (v : Kvt) (r : Except Fault Kvt) : Prop := ∃ ring, r = .ok { v with ring := ring }

theorem InGrid.draw (h : InGrid v) (ring : ℤ → ℤ → Cell) : InGrid { v with ring := ring } := { h with }

theorem Draws.ends {r : Except Fault Kvt} (h : Draws v r) (hv : InGrid v) : Ends v.pstate r := by
  obtain ⟨ring, rfl⟩ := h
  exact ⟨_, rfl, hv.draw ring, rfl⟩

theorem clampi_bounds (x : ℤ) {lo hi : ℤ} (h : lo ≤ hi) : lo ≤ clampi x lo hi ∧ clampi x lo hi ≤ hi := by
  unfold clampi
  split
  · omega
  split <;> omega

theorem mem_span {a b x : ℤ} (h : x ∈ span a b) : a ≤ x ∧ x < b := by
  obtain ⟨k, hk, rfl⟩ := mem_map.1 h
  rw [mem_range] at hk
  omega

theorem put_draws (h : InGrid v) {col : ℤ} (hr : 0 ≤ row ∧ row < v.rows) (hc : 0 ≤ col ∧ col < v.cols) (cell : Cell) :
    Draws v (v.put row col cell) := by
  have htop := h.top
  have hidx : 0 ≤ (v.top + row).tmod vcRing ∧ (v.top + row).tmod vcRing < vcRing :=
    ⟨Int.tmod_nonneg _ (by omega), Int.tmod_lt_of_pos _ (by decide)⟩
  unfold Kvt.put
  simp only [hr, hc, hidx, and_self, if_true]
  exact ⟨_, rfl⟩

theorem foldlM_draws (hf : ∀ x ∈ l, ∀ ring, Draws { v with ring := ring } (f { v with ring := ring } x)) :
    Draws v (l.foldlM f v) := by
  suffices h : ∀ ring, Draws v (l.foldlM f { v with ring := ring }) from h v.ring
  induction l with
  | nil => exact fun ring => ⟨ring, rfl⟩
  | cons x l ih =>
    intro ring
    obtain ⟨ring', hx⟩ := hf x mem_cons_self ring
    rw [foldlM_cons, hx]
    exact ih (fun y hy => hf y (mem_cons_of_mem x hy)) ring'

section Draws

variable (h : InGrid v)
include h

theorem eraseCells_draws {c0 : ℤ} (c1 : ℤ) (hr : 0 ≤ row ∧ row < v.rows) (hc : 0 ≤ c0) : Draws v (eraseCells v row c0 c1) := by
  refine foldlM_draws fun c hx ring => put_draws (h.draw ring) hr ?_ blank
  have := mem_span hx
  show 0 ≤ c ∧ c < v.cols
  omega

theorem eraseRows_draws {r0 r1 : ℤ} (h0 : 0 ≤ r0) (h1 : r1 ≤ v.rows) : Draws v (eraseRows v r0 r1) := by
  refine foldlM_draws fun r hx ring => eraseCells_draws (h.draw ring) _ ?_ (le_refl 0)
  have := mem_span hx
  show 0 ≤ r ∧ r < v.rows
  omega

theorem eraseLine_draws (mode : ℤ) : Draws v (eraseLine v mode) := by
  unfold eraseLine
  split
  · exact eraseCells_draws h _ h.cy h.cx.1
  split <;> exact eraseCells_draws h _ h.cy (le_refl 0)

theorem eraseDisplay_draws (mode : ℤ) : Draws v (eraseDisplay v mode) := by
  have hcy := h.cy
  unfold eraseDisplay
  split
  · obtain ⟨ring, hx⟩ := eraseCells_draws h v.cols h.cy h.cx.1
    rw [hx]
    exact eraseRows_draws (h.draw ring) (by simp only; omega) (le_refl _)
  split
  · obtain ⟨ring, hx⟩ := eraseRows_draws h (le_refl 0) (Int.le_of_lt h.cy.2)
    rw [hx]
    exact eraseCells_draws (h.draw ring) _ h.cy (le_refl 0)
  · exact eraseRows_draws h (le_refl 0) (le_refl _)

theorem indexDown_ends : Ends v.pstate (indexDown v) := by
  have hcy := h.cy
  unfold indexDown
  simp only
  split
  · rename_i hlt
    refine ⟨_, rfl, { h with cy := ?_ }, rfl⟩
    simp only [snapBottom] at hlt ⊢
    omega
  · have htop : 0 ≤ (v.top + 1).tmod vcRing ∧ (v.top + 1).tmod vcRing < vcRing :=
      ⟨Int.tmod_nonneg _ (by have := h.top; omega), Int.tmod_lt_of_pos _ (by decide)⟩
    have hv : InGrid { snapBottom v with
        top := (v.top + 1).tmod vcRing
        history := if v.history < scrollback then v.history + 1 else v.history } :=
      { h with top := htop }
    refine (eraseCells_draws hv v.cols ?_ (le_refl 0)).ends hv
    simp only [snapBottom]
    omega

theorem putCell_ends (c : UInt8) : Ends v.pstate (putCell v c) := by
  obtain ⟨ring, hx⟩ := put_draws h h.cy h.cx { v.pen with ch := c }
  have hcx := h.cx
  unfold putCell
  rw [hx]
  simp only [bind, Except.bind]
  split
  · exact ⟨_, rfl, { h with cx := ⟨by simp only; omega, by simp only; omega⟩ }, rfl⟩
  · exact ⟨_, rfl, { h with cx := ⟨by simp only; omega, by simp only; omega⟩ }, rfl⟩

theorem putChar_ends (c : UInt8) : Ends v.pstate (putChar v c) := by
  have hcols := h.cols
  unfold putChar
  simp only
  split
  · have h0 : InGrid { snapBottom v with cx := 0 } := { h with cx := ⟨le_refl 0, by simp only [snapBottom]; omega⟩ }
    obtain ⟨w, hw, hg, hp⟩ := indexDown_ends h0
    rw [hw, show v.pstate = w.pstate from hp.symm]
    exact putCell_ends (v := { w with wrapPending := false }) { hg with } c
  · exact putCell_ends (v := snapBottom v) { h with } c

end Draws

theorem param_ok (v : Kvt) (h : 0 ≤ i ∧ i < 8) : v.param i = .ok (v.params i) := if_pos h

section Args

variable (h : InGrid v)
include h

theorem arg_ok (hi : 0 ≤ i) (dflt : ℤ) : ∃ p, v.arg i dflt = .ok p := by
  have hn := h.nparam
  unfold Kvt.arg
  split
  · rw [param_ok v (by omega)]
    exact ⟨_, rfl⟩
  · exact ⟨_, rfl⟩

theorem InGrid.column (x : ℤ) : InGrid (v.column x) := by
  have hcols := h.cols
  have := clampi_bounds (wrap x) (show (0 : ℤ) ≤ v.cols - 1 by omega)
  exact { h with cx := ⟨this.1, by simp only [Kvt.column]; omega⟩ }

theorem InGrid.line (y : ℤ) : InGrid (v.line y) := by
  have hrows := h.rows
  have := clampi_bounds (wrap y) (show (0 : ℤ) ≤ v.rows - 1 by omega)
  exact { h with cy := ⟨this.1, by simp only [Kvt.line]; omega⟩ }

theorem foldlM_ends (hf : ∀ x ∈ l, ∀ w, InGrid w → Ends w.pstate (f w x)) : Ends v.pstate (l.foldlM f v) := by
  induction l generalizing v with
  | nil => exact ⟨v, rfl, h, rfl⟩
  | cons x l ih =>
    obtain ⟨w, hw, hg, hp⟩ := hf x mem_cons_self v h
    rw [foldlM_cons, hw, ← hp]
    exact ih hg fun y hy => hf y (mem_cons_of_mem x hy)

theorem applySgr_ends : Ends v.pstate (applySgr v) := by
  refine foldlM_ends h fun i hi w hw => ?_
  have hn := h.nparam
  have := mem_span hi
  rw [param_ok w (by split at this <;> omega)]
  exact ⟨_, rfl, { hw with }, rfl⟩

theorem cursorMode_ends (on : Bool) : Ends v.pstate (cursorMode v on) := by
  unfold cursorMode
  split
  · refine foldlM_ends h fun i hi w hw => ?_
    have hn := h.nparam
    have := mem_span hi
    rw [param_ok w (by omega)]
    simp only [bind, Except.bind]
    split
    · exact ⟨_, rfl, { hw with }, rfl⟩
    · exact ⟨w, rfl, hw, rfl⟩
  · exact ⟨v, rfl, h, rfl⟩

theorem dispatchCsi_ends (final : Char) : Ends v.pstate (dispatchCsi v final) := by
  have h' : InGrid { v with wrapPending := false } := { h with }
  obtain ⟨p, hp⟩ := arg_ok h' (le_refl 0) 1
  obtain ⟨q, hq⟩ := arg_ok h' Int.one_nonneg 1
  obtain ⟨m, hm⟩ := arg_ok h' (le_refl 0) 0
  unfold dispatchCsi
  simp only [hp, hq, hm, bind, Except.bind]
  split
  · exact ⟨_, rfl, h'.line _, rfl⟩
  · exact ⟨_, rfl, h'.line _, rfl⟩
  · exact ⟨_, rfl, h'.column _, rfl⟩
  · exact ⟨_, rfl, h'.column _, rfl⟩
  · exact ⟨_, rfl, h'.column _, rfl⟩
  · exact ⟨_, rfl, (h'.line _).column _, rfl⟩
  · exact ⟨_, rfl, (h'.line _).column _, rfl⟩
  · exact (eraseDisplay_draws h' m).ends h'
  · exact (eraseLine_draws h' m).ends h'
  · exact applySgr_ends h'
  · exact cursorMode_ends h' true
  · exact cursorMode_ends h' false
  · exact ⟨_, rfl, h', rfl⟩

end Args

theorem kvtInit_inGrid (cols rows : ℤ) : InGrid (kvtInit cols rows) := by
  have hc := clampi_bounds cols (show (1 : ℤ) ≤ maxCols by decide)
  have hr := clampi_bounds rows (show (1 : ℤ) ≤ maxRows by decide)
  refine ⟨hc, hr, ⟨le_refl 0, (by decide : 0 < vcRing)⟩, ⟨le_refl 0, ?_⟩, ⟨le_refl 0, ?_⟩,
    ⟨le_refl 0, (by decide : (0 : ℤ) ≤ 8)⟩⟩
  · simp only [kvtInit]
    omega
  · simp only [kvtInit]
    omega

/-! ## Bytes -/

/-- Where a byte takes the parser. -/
def PState.next (p : PState) (c : UInt8) : PState :=
  match p with
  | .ground => if c = 0x1b then .esc else .ground
  | .esc => if c = 0x5b then .csi else if c = 0x63 then .ground else if 0x28 ≤ c ∧ c ≤ 0x2b then .escSkip else .ground
  | .escSkip => .ground
  | .csi => if (0x30 ≤ c ∧ c ≤ 0x39) ∨ c = 0x3b ∨ c = 0x3f then .csi else .ground

/-- No control character stands inside a CSI sequence. -/
def clean : PState → List UInt8 → Bool
  | _, [] => true
  | p, c :: cs => !(decide (p = .csi) && decide (c < 0x20)) && clean (p.next c) cs

/-- A control character inside a CSI sequence: no depth is enough. -/
theorem feedByte_stuck (hp : v.pstate = .csi) (hc : c < 0x20) (depth : ℕ) : feedByte depth v c = .error .depth := by
  induction depth with
  | zero => rfl
  | succ depth ih =>
    have hlt := UInt8.lt_iff_toNat_lt.1 hc
    simp only [feedByte, hp, UInt8.le_iff_toNat_le, ← UInt8.toNat_inj] at ih ⊢
    rw [if_neg, if_neg, if_neg, if_neg, if_pos hc, ih]
    all_goals simp only [UInt8.reduceToNat] at hlt ⊢; omega

section

variable (h : InGrid v)
include h

theorem feedGround_ends (hp : v.pstate = .ground) (c : UInt8) : Ends (PState.ground.next c) (feedGround v c) := by
  have hcx := h.cx
  have htab := clampi_bounds (v.cx / 8 * 8 + 8) (show (0 : ℤ) ≤ v.cols - 1 by omega)
  unfold feedGround PState.next
  simp only
  split
  · exact ⟨_, rfl, { h with }, rfl⟩
  rw [← hp]
  split
  · exact indexDown_ends h
  split
  · exact ⟨_, rfl, { h with cx := ⟨le_refl 0, by simp only [snapBottom]; omega⟩ }, rfl⟩
  split
  · refine ⟨_, rfl, { h with cx := ?_ }, rfl⟩
    simp only [snapBottom]
    split <;> omega
  split
  · exact ⟨_, rfl, { h with cx := ⟨htab.1, by simp only [snapBottom]; omega⟩ }, rfl⟩
  split
  · exact ⟨_, rfl, { h with }, rfl⟩
  split
  · exact ⟨v, rfl, h, rfl⟩
  · exact putChar_ends h c

theorem feedDigit_ends (d : ℕ) : Ends v.pstate (feedDigit v d) := by
  have hn := h.nparam
  unfold feedDigit
  split
  · simp only [bind, Except.bind]
    rw [param_ok _ (by decide)]
    exact ⟨_, rfl, { h with nparam := ⟨Int.one_nonneg, (by decide : (1 : ℤ) ≤ 8)⟩ }, rfl⟩
  · rename_i hne
    simp only [bind, Except.bind]
    rw [param_ok _ (by omega)]
    exact ⟨_, rfl, { h with }, rfl⟩

theorem feedEsc_ends (c : UInt8) : InGrid (feedEsc v c) ∧ (feedEsc v c).pstate = PState.esc.next c := by
  unfold feedEsc PState.next
  split
  · exact ⟨{ h with nparam := ⟨le_refl 0, (by decide : (0 : ℤ) ≤ 8)⟩ }, rfl⟩
  split
  · exact ⟨kvtInit_inGrid v.cols v.rows, rfl⟩
  split
  · exact ⟨{ h with }, rfl⟩
  · exact ⟨{ h with }, rfl⟩

/-- **Every byte**, with no call of `feed_byte` to itself. -/
theorem feedByte_ends (hc : ¬ (v.pstate = .csi ∧ c < 0x20)) (depth : ℕ) :
    Ends (v.pstate.next c) (feedByte (depth + 1) v c) := by
  have hn := h.nparam
  unfold feedByte
  split <;> rename_i hp <;> rw [hp]
  · exact feedGround_ends h hp c
  · exact ⟨_, rfl, feedEsc_ends h c⟩
  · exact ⟨_, rfl, { h with }, rfl⟩
  unfold PState.next
  by_cases hd : 0x30 ≤ c ∧ c ≤ 0x39
  · simp only [if_pos hd, if_pos (Or.inl hd)]
    rw [← hp]
    exact feedDigit_ends h _
  by_cases hsemi : c = 0x3b
  · simp only [if_neg hd, if_pos hsemi, if_pos (Or.inr (Or.inl hsemi))]
    refine ⟨_, rfl, { h with nparam := ?_ }, rfl⟩
    simp only
    split <;> omega
  by_cases hq : c = 0x3f
  · simp only [if_neg hd, if_neg hsemi, if_pos hq, if_pos (Or.inr (Or.inr hq))]
    exact ⟨_, rfl, { h with }, rfl⟩
  simp only [if_neg hd, if_neg hsemi, if_neg hq, if_neg (not_or.2 ⟨hd, not_or.2 ⟨hsemi, hq⟩⟩)]
  split
  · obtain ⟨w, hw, hg, -⟩ := dispatchCsi_ends h (.ofNat c.toNat)
    rw [hw]
    exact ⟨_, rfl, { hg with }, rfl⟩
  split
  · exact absurd ⟨hp, ‹_›⟩ hc
  · exact ⟨_, rfl, { h with }, rfl⟩

/-! ## Writes -/

theorem kvtFeed_ends (hc : clean v.pstate bytes) : ∃ w, kvtFeed 1 v bytes = .ok w ∧ InGrid w := by
  induction bytes generalizing v with
  | nil => exact ⟨v, rfl, h⟩
  | cons c cs ih =>
    simp only [clean, Bool.and_eq_true, Bool.not_eq_true', Bool.and_eq_false_iff, decide_eq_false_iff_not] at hc
    obtain ⟨w, hw, hg, hp⟩ := feedByte_ends h (c := c) (fun hx => hc.1.elim (fun hy => hy hx.1) fun hy => hy hx.2) 0
    unfold kvtFeed
    rw [foldlM_cons, hw]
    exact ih hg (hp ▸ hc.2)

theorem kvtFeed_stuck (hc : clean v.pstate bytes = false) (depth : ℕ) : kvtFeed depth v bytes = .error .depth := by
  induction bytes generalizing v with
  | nil => cases hc
  | cons c cs ih =>
    unfold kvtFeed
    rw [foldlM_cons]
    by_cases hx : v.pstate = .csi ∧ c < 0x20
    · rw [feedByte_stuck hx.1 hx.2]
      rfl
    cases depth with
    | zero => rfl
    | succ depth =>
      obtain ⟨w, hw, hg, hp⟩ := feedByte_ends h hx depth
      rw [hw]
      refine ih hg ?_
      simp only [clean, Bool.and_eq_false_iff, Bool.not_eq_false', Bool.and_eq_true, decide_eq_true_eq] at hc
      rw [hp]
      exact hc.resolve_left hx

end

theorem foldlM_kvtFeed (depth : ℕ) (v : Kvt) (ws : List (List UInt8)) :
    ws.foldlM (kvtFeed depth) v = kvtFeed depth v ws.flatten := by
  induction ws generalizing v with
  | nil => rfl
  | cons w ws ih =>
    rw [foldlM_cons, flatten_cons]
    unfold kvtFeed
    rw [foldlM_append]
    exact bind_congr fun u => ih u

/-- **Every sequence of writes to a console of any size** ends without a call of `feed_byte` to itself and inside the
grid, or has a control character inside a CSI sequence and does not end. -/
theorem kvt_feed_ends (cols rows : ℤ) (ws : List (List UInt8)) :
    (clean .ground ws.flatten = true ↔ ∃ depth v, ws.foldlM (kvtFeed depth) (kvtInit cols rows) = .ok v) ∧
      (clean .ground ws.flatten = true → ∃ v, ws.foldlM (kvtFeed 1) (kvtInit cols rows) = .ok v ∧ InGrid v) := by
  have h := kvtInit_inGrid cols rows
  refine ⟨⟨fun hc => ?_, ?_⟩, fun hc => ?_⟩
  · obtain ⟨v, hv, -⟩ := kvtFeed_ends h hc
    exact ⟨1, v, (foldlM_kvtFeed 1 _ ws).trans hv⟩
  · rintro ⟨depth, v, hv⟩
    rw [foldlM_kvtFeed] at hv
    by_contra hc
    rw [kvtFeed_stuck h (Bool.eq_false_iff.2 hc)] at hv
    cases hv
  · rw [foldlM_kvtFeed]
    exact kvtFeed_ends h hc

/-- A line feed inside a CSI sequence. -/
theorem kvt_feed_runs_away : ¬ ∃ depth v, kvtFeed depth (kvtInit 80 25) [0x1b, 0x5b, 0x0a] = .ok v := by
  rintro ⟨depth, v, hv⟩
  rw [kvtFeed_stuck (kvtInit_inGrid 80 25) (by decide)] at hv
  cases hv

end NeoOS.Console
