import NeoOS.Spec.FatDir

/-!
# Long names of a FAT directory

The reader counts the slots of a run and never compares their ordinals with the count. Where each slot added
to a run has the ordinal after the one before it, a long name is the name in the slots just before the entry.
-/

namespace NeoOS.Fat

open List

variable {s : Scan} {d : Slot} {run done : List Slot}

/-! ## A run being read -/

/-- The slots of the open run, newest first: their ordinals go up to `highest` and the buffer has their
code units in that order. -/
structure Open (s : Scan) (run : List Slot) : Prop where
  seen : s.slotsSeen = run.length
  ordinals : run.map Slot.ord = List.range' (s.highest - run.length + 1) run.length
  slots : ∀ x ∈ run, x.kind = .long ∧ x.checksum = s.wantSum
  marked : ∀ x ∈ run.getLast?, x.marked
  chars : s.read (s.highest - run.length) run.length = run.flatMap Slot.lfnSlotChars

/-- The slot joins the run the reader is in. -/
def Scan.joins (s : Scan) (d : Slot) : Prop :=
  s.haveLfn ∧ d.kind = .long ∧ 1 ≤ d.ord ∧ d.ord ≤ 20 ∧ d.checksum = s.wantSum

/-- A slot that joins the run has the ordinal that is due. -/
def InOrder (s : Scan) (d : Slot) : Prop := s.joins d → d.ord + s.slotsSeen = s.highest

/-- What one slot does: it ends the run or leaves it closed, joins it, or starts one. -/
theorem next_cases (s : Scan) (d : Slot) : (s.next d).haveLfn = false ∨ (s.joins d ∧ s.next d = s.put d) ∨
      (d.kind = .long ∧ 1 ≤ d.ord ∧ d.marked ∧ s.next d = (s.begin d).put d) := by
  unfold Scan.next
  split
  · exact .inl rfl
  rename_i hk
  simp only [not_or, not_not, Nat.not_lt] at hk
  split
  · split
    · exact .inl rfl
    · rename_i hl hc
      exact .inr (.inl ⟨⟨hl, hk.1, hk.2.1, hk.2.2, of_not_not hc⟩, rfl⟩)
  · rename_i hl
    split
    · rename_i hm
      exact .inr (.inr ⟨hk.1, hk.2.1, hm, rfl⟩)
    · exact .inl (by simpa using hl)

theorem read_put (s : Scan) (d : Slot) (hpos : 1 ≤ d.ord) (n : ℕ) :
    (s.put d).read (d.ord - 1) (n + 1) = d.lfnSlotChars ++ s.read d.ord n := by
  have hlen : d.lfnSlotChars.length = 13 := rfl
  have hend : (d.ord - 1) * 13 + 13 = d.ord * 13 := by omega
  rw [Scan.read, Nat.succ_mul, Nat.add_comm, ← range'_append_1, map_append, hend]
  congr 1
  · apply ext_getElem
    · simp [hlen]
    · intro i hi _
      simp only [length_map, length_range'] at hi
      simp [Scan.put, hlen, hi]
  · apply map_congr_left
    intro i hi
    have hle := (mem_range'_1.mp hi).1
    have hout : d.lfnSlotChars.length ≤ i - (d.ord - 1) * 13 := by omega
    simp [Scan.put, getElem?_eq_none hout]

/-- The slot with the ordinal that is due keeps the run in order. -/
theorem Open.put (h : Open s run) (hk : d.kind = .long) (hc : d.checksum = s.wantSum) (hpos : 1 ≤ d.ord)
    (hdue : d.ord + s.slotsSeen = s.highest) (hm : run = [] → d.marked) : Open (s.put d) (d :: run) := by
  have hseen := h.seen
  have hord : s.highest - run.length = d.ord := by omega
  have hprev : s.highest - (run.length + 1) = d.ord - 1 := by omega
  refine ⟨congrArg (· + 1) hseen, ?_, ?_, ?_, ?_⟩
  · show d.ord :: run.map Slot.ord = List.range' (s.highest - (run.length + 1) + 1) (run.length + 1)
    rw [h.ordinals, hord, hprev, Nat.sub_add_cancel hpos]
    rfl
  · exact forall_mem_cons.mpr ⟨⟨hk, hc⟩, h.slots⟩
  · cases run with
    | nil => simpa using hm rfl
    | cons x l => simpa using h.marked
  · show (s.put d).read (s.highest - (run.length + 1)) (run.length + 1) = _
    rw [hprev, read_put s d hpos, ← hord, h.chars]
    rfl

/-- While the reader is in a run, its slots are the last ones read. -/
def Assembled (s : Scan) (done : List Slot) : Prop :=
  s.haveLfn → ∃ older run, run ≠ [] ∧ done = older ++ run.reverse ∧ Open s run

theorem Assembled.next (h : Assembled s done) (ho : InOrder s d) : Assembled (s.next d) (done ++ [d]) := by
  intro hl
  rcases next_cases s d with hn | ⟨hj, hn⟩ | ⟨hk, hpos, hm, hn⟩
  · rw [hn] at hl
    cases hl
  · obtain ⟨older, run, hne, rfl, hopen⟩ := h hj.1
    refine ⟨older, d :: run, cons_ne_nil d run, by simp, ?_⟩
    rw [hn]
    exact hopen.put hj.2.1 hj.2.2.2.2 hj.2.2.1 (ho hj) (absurd · hne)
  · have hopen : Open (s.begin d) [] := ⟨rfl, rfl, by simp, by simp, rfl⟩
    refine ⟨done, [d], cons_ne_nil d [], rfl, ?_⟩
    rw [hn]
    exact hopen.put hk rfl hpos rfl fun _ => hm

/-! ## The entry returned -/

/-- A complete long name of the entry, the slot next to it first. -/
structure LongName (d : Slot) (run : List Slot) : Prop where
  ne : run ≠ []
  ordinals : run.map Slot.ord = List.range' 1 run.length
  slots : ∀ x ∈ run, x.kind = .long ∧ x.checksum = d.lfnChecksum
  marked : ∀ x ∈ run.getLast?, x.marked

/-- The entry has its 8.3 name, or the name that the slots before it hold. -/
def Named (before : List Slot) (d : Slot) (e : Entry) : Prop :=
  e.name = d.fromFatName ∧ e.runSlots = 1 ∨ ∃ older run, before = older ++ run.reverse ∧ LongName d run ∧
      e.name = lfnName (run.flatMap Slot.lfnSlotChars) ∧ e.runSlots = run.length + 1

theorem Assembled.named (h : Assembled s done) (d : Slot) : Named done d (s.entry d) := by
  unfold Scan.entry
  split
  · rename_i hu
    obtain ⟨older, run, hne, hdone, hopen⟩ := h hu.1
    have hlen : s.highest = run.length := hu.2.1.symm.trans hopen.seen
    have hord := hopen.ordinals
    have hchars := hopen.chars
    rw [hlen, Nat.sub_self] at hord hchars
    refine .inr ⟨older, run, hdone, ⟨hne, hord, ?_, hopen.marked⟩, ?_, congrArg (· + 1) hlen⟩
    · rw [hu.2.2]
      exact hopen.slots
    · rw [hlen, hchars]
  · exact .inl ⟨rfl, rfl⟩

/-- What a call returns: the first short entry, under the state the slots before it lead to. -/
theorem fatDirNext_spec (s : Scan) (l : List Slot) : fatDirNext s l = none ∨ ∃ before d rest, l = before ++ d :: rest ∧
      fatDirNext s l = some ((Run.final Scan.next s before).entry d, rest) := by
  induction l generalizing s with
  | nil => exact .inl rfl
  | cons d ds ih =>
    by_cases hnever : d.kind = .never
    · exact .inl (by simp [fatDirNext, hnever])
    by_cases hshort : d.kind = .short
    · exact .inr ⟨[], d, ds, rfl, by simp [fatDirNext, hshort]⟩
    have hd : fatDirNext s (d :: ds) = fatDirNext (s.next d) ds := by
      cases hk : d.kind <;> simp_all [fatDirNext]
    rw [hd]
    rcases ih (s.next d) with hn | ⟨before, x, rest, rfl, hx⟩
    · exact .inl hn
    · exact .inr ⟨d :: before, x, rest, rfl, hx⟩

theorem Assembled.final (h : Assembled s done) {l : List Slot} (hv : Run.Valid Scan.next InOrder s l) :
    Assembled (Run.final Scan.next s l) (done ++ l) := by
  induction l generalizing s done with
  | nil => simpa using h
  | cons d ds ih => simpa using ih (h.next hv.1) hv.2

/-- **A long name is the name in the slots before the entry**, whatever was on the stack, if the slots of
each run have their ordinals in order. -/
theorem fatDirNext_named (junk : ℕ → UInt16) (l : List Slot) :
    fatDirNext (.start junk) l = none ∨ ∃ before d rest e, l = before ++ d :: rest ∧
    fatDirNext (.start junk) l = some (e, rest) ∧
      (Run.Valid Scan.next InOrder (.start junk) before → Named before d e) := by
  rcases fatDirNext_spec (.start junk) l with hn | ⟨before, d, rest, hl, he⟩
  · exact .inl hn
  refine .inr ⟨before, d, rest, _, hl, he, fun hv => ?_⟩
  have hstart : Assembled (.start junk) [] := fun hh => absurd hh Bool.false_ne_true
  exact (hstart.final hv).named d

def shortSlot : Slot := ⟨fun i => if i = 11 then 0x20 else 0x41, 0, 64⟩

/-- A short entry after two long-name slots that start with the character `c`. -/
def twoSlots (second c : UInt8) : List Slot :=
  let slot (order : UInt8) (off : ℕ) : Slot := ⟨fun i =>
    if i = 0 then order else if i = 1 then c else if i = 11 then 0x0F else if i = 13 then shortSlot.lfnChecksum else 0, 0, off⟩
  [slot 0x42 0, slot second 32, shortSlot]

/-- The ordinals 2 and 1: the name is the one in the slots, not what was on the stack. -/
theorem fatDirNext_named_two : ∃ e, fatDirNext (.start fun _ => 0x53) (twoSlots 0x01 0x78) = some (e, []) ∧ e.name = [0x78] ∧
    Named ((twoSlots 0x01 0x78).take 2) shortSlot e := by
  have hval : (fatDirNext (.start fun _ => 0x53) (twoSlots 0x01 0x78)).map (fun r => (r.1.name, r.2.length)) =
      some ([0x78], 0) := by
    decide
  rcases fatDirNext_named (fun _ => 0x53) (twoSlots 0x01 0x78) with hn | ⟨before, d, rest, e, hl, he, hnamed⟩
  · rw [hn] at hval
    cases hval
  rw [he] at hval
  obtain ⟨hname, hrest⟩ : e.name = [0x78] ∧ rest.length = 0 := by simpa using hval
  obtain rfl := length_eq_zero_iff.1 hrest
  obtain ⟨rfl, hd⟩ : (twoSlots 0x01 0x78).take 2 = before ∧ [shortSlot] = [d] := append_inj' hl rfl
  obtain rfl := singleton_inj.1 hd
  exact ⟨e, he, hname, hnamed ⟨fun h => absurd h.1 Bool.false_ne_true, fun _ => by decide, trivial⟩⟩

/-- The second slot of a run of two has ordinal 2 again. -/
def repeated : List Slot := twoSlots 0x02 0

/-- No slot has ordinal 1, and the name is what was on the stack. -/
theorem repeated_shows_stack : (repeated.take 2).map Slot.ord = [2, 2] ∧
    (fatDirNext (.start fun _ => 0x53) repeated).map (·.1.name) = some (List.replicate 13 0x53) := by
  decide

/-! ## Listings -/

/-- The files of a directory: the short entries before the first slot that was never used. -/
def files (slots : List Slot) : List Slot := (slots.takeWhile (·.kind ≠ .never)).filter (·.kind = .short)

theorem fatDirNext_files (s : Scan) (slots : List Slot) :
    files slots = (fatDirNext s slots).elim [] fun r => r.1.de :: files r.2 := by
  induction slots generalizing s with
  | nil => rfl
  | cons d ds ih =>
    unfold fatDirNext files
    cases hk : d.kind with
    | never => simp [hk]
    | short =>
      have hde : (s.entry d).de = d := by
        unfold Scan.entry
        split <;> rfl
      simp [hk, hde]
    | erased | long | volume =>
      refine .trans ?_ (ih (s.next d))
      simp [hk, files]

/-- **Listing a directory.** Entry `index` is that of file `index`, whatever long-name slots, erased slots and volume
labels stand between the files. -/
theorem readdir_files (junk : ℕ → ℕ → UInt16) (slots : List Slot) (index : ℕ) :
    (fatfsReaddirOp junk slots index).map Entry.de = (files slots)[index]? := by
  induction index generalizing slots with
  | zero =>
    rw [fatDirNext_files (.start (junk 0)), fatfsReaddirOp]
    cases fatDirNext (.start (junk 0)) slots <;> rfl
  | succ index ih =>
    rw [fatDirNext_files (.start (junk (index + 1))), fatfsReaddirOp]
    cases fatDirNext (.start (junk (index + 1))) slots with
    | none => rfl
    | some r => exact ih r.2

end NeoOS.Fat
