import FastLlm.Model.HeadCert
import FastLlm.Model.Session
import Mathlib.Data.List.Sort

/-!
# Answers and margins of a batch

The end of `step_batch`: for every position the lowest index of the largest logit, and the margin
to the second largest, found in one scan.  The scan runs unless the certified head is on.  Then
`margins_` is left as it is, which is empty: no call of such a decoder has filled it
(`reports_iff`).

Logits are elements of a linear order, and the margin is whatever their subtraction gives.

## Main definitions

* `scan` — the scan of one position.
* `HeadCall`, `HeadState.stepBatch`, `HeadState.run` — a call, and sequences of calls.
* `Reports` — what a call should leave in `outs` and in `margins_`.
-/

namespace FastLlm

/-! ## The scan -/

/-- `best`, `bv` and `sv`. -/
structure TopTwo (F : Type) where
  best : ℕ
  bv : F
  sv : F

section Scan
variable {F : Type} [LinearOrder F] (lg : ℕ → F)

def scanStep (t : TopTwo F) (i : ℕ) : TopTwo F :=
  if t.bv < lg i then ⟨i, lg i, t.bv⟩
  else if t.sv < lg i then { t with sv := lg i }
  else t

/-- The scan of `V` logits.  `floor` is `-1e30f`. -/
def scan (floor : F) (V : ℕ) : TopTwo F :=
  (List.range' 1 (V - 1)).foldl (scanStep lg) ⟨0, lg 0, floor⟩

/-- The logits in descending order. -/
def descending (V : ℕ) : List F := ((List.range V).map lg).mergeSort fun a b => decide (b ≤ a)

/-- After `n` logits: the lowest index of the largest, and the two largest of the logits and the
floor, the others being no larger. -/
structure Scanned (floor : F) (n : ℕ) (t : TopTwo F) : Prop where
  best : LowestMax lg {j | j < n} t.best
  bv : t.bv = lg t.best
  two : ∃ rest, (floor :: (List.range n).map lg).Perm (t.bv :: t.sv :: rest) ∧
    t.sv ≤ t.bv ∧ ∀ y ∈ rest, y ≤ t.sv

variable {lg} {floor : F} {n V : ℕ} {t : TopTwo F}

theorem Scanned.first (hfloor : floor < lg 0) : Scanned lg floor 1 ⟨0, lg 0, floor⟩ where
  best := ⟨Nat.one_pos, fun k hk => .inr ⟨congrArg lg (Nat.lt_one_iff.mp hk), Nat.zero_le k⟩⟩
  bv := rfl
  two := ⟨[], List.Perm.swap _ _ _, hfloor.le, by simp⟩

/-- One more logit. -/
theorem Scanned.step (h : Scanned lg floor n t) : Scanned lg floor (n + 1) (scanStep lg t n) := by
  obtain ⟨rest, hperm, hle, hrest⟩ := h.two
  have hnew : (floor :: (List.range (n + 1)).map lg).Perm (lg n :: t.bv :: t.sv :: rest) := by
    rw [List.range_succ, List.map_append, List.map_singleton, ← List.cons_append]
    exact (List.perm_append_singleton _ _).trans (hperm.cons _)
  have hmax (k : ℕ) (hk : k < n) : lg k ≤ t.bv := h.bv ▸ h.best.le hk
  by_cases hbv : t.bv < lg n
  · rw [scanStep, if_pos hbv]
    refine ⟨⟨Nat.lt_succ_self n, fun k hk => ?_⟩, rfl, t.sv :: rest, hnew, hbv.le, ?_⟩
    · rcases Nat.lt_succ_iff_lt_or_eq.mp hk with hlt | rfl
      · exact .inl ((hmax k hlt).trans_lt hbv)
      · exact .inr ⟨rfl, le_rfl⟩
    · rintro y (- | ⟨-, hy⟩)
      · exact hle
      · exact (hrest y hy).trans hle
  · have hbest : LowestMax lg {j | j < n + 1} t.best := by
      refine ⟨Nat.lt_succ_of_lt h.best.mem, fun k hk => ?_⟩
      rcases Nat.lt_succ_iff_lt_or_eq.mp hk with hlt | rfl
      · exact h.best.2 k hlt
      · rcases (not_lt.mp hbv).lt_or_eq with hlt | heq
        · exact .inl (h.bv ▸ hlt)
        · exact .inr ⟨h.bv ▸ heq, h.best.mem.le⟩
    rw [scanStep, if_neg hbv]
    by_cases hsv : t.sv < lg n
    · rw [if_pos hsv]
      refine ⟨hbest, h.bv, t.sv :: rest, hnew.trans (List.Perm.swap _ _ _), not_lt.mp hbv, ?_⟩
      rintro y (- | ⟨-, hy⟩)
      · exact hsv.le
      · exact (hrest y hy).trans hsv.le
    · rw [if_neg hsv]
      refine ⟨hbest, h.bv, lg n :: rest, ?_, hle, ?_⟩
      · exact hnew.trans ((List.Perm.swap _ _ _).trans ((List.Perm.swap _ _ _).cons _))
      · rintro y (- | ⟨-, hy⟩)
        · exact not_lt.mp hsv
        · exact hrest y hy

theorem scanned (hV : 1 ≤ V) (hfloor : floor < lg 0) : Scanned lg floor V (scan lg floor V) := by
  obtain ⟨n, rfl⟩ := Nat.exists_eq_add_of_le hV
  rw [scan, Nat.add_sub_cancel_left]
  induction n with
  | zero => exact Scanned.first hfloor
  | succ n ih =>
    rw [List.range'_1_concat, List.foldl_append, List.foldl_cons, List.foldl_nil]
    exact (ih (by omega)).step

omit lg floor n V t in
theorem pairwise_mergeSort_ge (l : List F) :
    (l.mergeSort fun a b => decide (b ≤ a)).Pairwise fun a b => b ≤ a := by
  have htrans : ∀ a b c : F, decide (b ≤ a) = true → decide (c ≤ b) = true →
      decide (c ≤ a) = true := fun a b c hab hbc =>
    decide_eq_true ((of_decide_eq_true hbc).trans (of_decide_eq_true hab))
  have htotal : ∀ a b : F, (decide (b ≤ a) || decide (a ≤ b)) = true := fun a b =>
    (Bool.or_eq_true _ _).mpr ((le_total b a).imp decide_eq_true decide_eq_true)
  exact (List.pairwise_mergeSort htrans htotal l).imp of_decide_eq_true

/-- Once two logits above the floor were seen, the two values are the head of the descending
order. -/
theorem Scanned.descending_eq (h : Scanned lg floor V t) (hV : 2 ≤ V)
    (hfloor : ∀ i < V, floor < lg i) : ∃ rest, descending lg V = t.bv :: t.sv :: rest := by
  obtain ⟨rest, hperm, hle, hrest⟩ := h.two
  have hmem : ∀ y ∈ (List.range V).map lg, floor < y := by
    intro y hy
    obtain ⟨i, hi, rfl⟩ := List.mem_map.mp hy
    exact hfloor i (List.mem_range.mp hi)
  have hone : (floor :: (List.range V).map lg).count floor = 1 := by
    rw [List.count_cons_self, List.count_eq_zero.mpr fun hin => lt_irrefl _ (hmem _ hin)]
  have hlen := hperm.length_eq
  simp only [List.length_cons, List.length_map, List.length_range] at hlen
  have hbv : t.bv ≠ floor := by
    rw [h.bv]
    exact (hfloor _ h.best.mem).ne'
  -- the floor is there once, so it is neither of the two
  have hsv : t.sv ≠ floor := by
    intro heq
    obtain ⟨y, ys, rfl⟩ := List.exists_cons_of_length_pos (show 0 < rest.length by omega)
    have hy : y = floor := by
      have hyin : y ∈ floor :: (List.range V).map lg := hperm.mem_iff.mpr (by simp)
      rcases List.mem_cons.mp hyin with hy | hy
      · exact hy
      · exact absurd ((hrest y (by simp)).trans heq.le) (not_le.mpr (hmem y hy))
    rw [hperm.count_eq, heq, hy] at hone
    simp only [List.count_cons, beq_self_eq_true, if_true] at hone
    omega
  have hin : floor ∈ rest := by
    have : floor ∈ t.bv :: t.sv :: rest := hperm.mem_iff.mp List.mem_cons_self
    simpa [hbv.symm, hsv.symm] using this
  have hlogits : ((List.range V).map lg).Perm (t.bv :: t.sv :: rest.erase floor) := by
    refine List.Perm.cons_inv (hperm.trans ?_)
    have := (List.perm_cons_erase hin).cons t.sv |>.cons t.bv
    exact this.trans (((List.Perm.swap _ _ _).cons _).trans (List.Perm.swap _ _ _))
  refine ⟨(rest.erase floor).mergeSort fun a b => decide (b ≤ a), ?_⟩
  apply @List.Perm.eq_of_pairwise F fun a b => b ≤ a
  · exact fun a b _ _ hab hba => le_antisymm hba hab
  · exact pairwise_mergeSort_ge _
  · have hbelow : ∀ y ∈ (rest.erase floor).mergeSort fun a b => decide (b ≤ a), y ≤ t.sv :=
      fun y hy => hrest y (List.mem_of_mem_erase (List.mem_mergeSort.mp hy))
    refine List.pairwise_cons.mpr
      ⟨fun y hy => ?_, List.pairwise_cons.mpr ⟨hbelow, pairwise_mergeSort_ge _⟩⟩
    rcases List.mem_cons.mp hy with rfl | hy
    · exact hle
    · exact (hbelow y hy).trans hle
  · exact (List.mergeSort_perm _ _).trans
      (hlogits.trans ((((List.mergeSort_perm _ _).symm).cons _).cons _))

end Scan

/-! ## Calls -/

/-- A batch: the tokens, the logits of every position, and what `hc_.argmax` answers at a position
for a hint. -/
structure HeadCall (F : Type) where
  toks : List Token
  logits : ℕ → ℕ → F
  cert : ℕ → Token → ℕ

/-- What a caller asks of the decoder. -/
inductive HeadOp (F : Type)
  | batch (c : HeadCall F)
  | rewind (pos : ℤ)
  | reset

/-- What is fixed when the decoder is created.  `sub` subtracts floats, `floor` is `-1e30f`, and
`warn` says that a failed audit does not abort. -/
structure HeadConfig (F : Type) where
  mode : HcMode
  warn : Bool
  nVocab : UInt32
  maxBatch : ℕ
  maxKv : ℤ
  sub : F → F → F
  floor : F

/-- `n_past_` and `margins_`. -/
structure HeadState (F : Type) where
  nPast : ℕ
  margins : List F

inductive HeadAbort
  | call (a : Abort)
  | auditMismatch (pos : ℕ) (engine : Token) (cert : ℕ)
  deriving DecidableEq, Repr

namespace HeadState
variable {F : Type} [LinearOrder F] (C : HeadConfig F)

/-- The scan of position `p`. -/
def scanAt (c : HeadCall F) (p : ℕ) : TopTwo F := scan (c.logits p) C.floor C.nVocab.toNat

/-- The first position where the certificate answers another row than the scan. -/
def mismatch (c : HeadCall F) : Option ℕ :=
  (List.range c.toks.length).find? fun p =>
    decide (int32Of (c.cert p (Session.hint c.toks p)) ≠ int32Of (scanAt C c p).best)

/-- `step_batch`, from the argmax on. -/
def stepBatch (s : HeadState F) (c : HeadCall F) : Except HeadAbort (List Token × HeadState F) :=
  let m := c.toks.length
  if m < 1 ∨ C.maxBatch < m then .error (.call (.badBatch m C.maxBatch))
  else if C.maxKv < (s.nPast : ℤ) + m then .error (.call (.kvFull s.nPast m C.maxKv))
  else if C.mode = .on then
    .ok ((List.range m).map fun p => int32Of (c.cert p (Session.hint c.toks p)),
      { s with nPast := s.nPast + m })
  else
    let outs := (List.range m).map fun p => int32Of (scanAt C c p).best
    let margins := (List.range m).map fun p => C.sub (scanAt C c p).bv (scanAt C c p).sv
    match mismatch C c with
    | some p =>
      if C.mode = .audit ∧ C.warn = false then
        .error (.auditMismatch (s.nPast + p) (outs.getD p 0) (c.cert p (Session.hint c.toks p)))
      else .ok (outs, ⟨s.nPast + m, margins⟩)
    | none => .ok (outs, ⟨s.nPast + m, margins⟩)

def op (s : HeadState F) : HeadOp F → Except HeadAbort (HeadState F)
  | .batch c => (s.stepBatch C c).map Prod.snd
  | .rewind pos =>
    if pos < 0 ∨ (s.nPast : ℤ) < pos then .error (.call (.badRewind pos s.nPast))
    else .ok { s with nPast := pos.toNat }
  | .reset => .ok { s with nPast := 0 }

/-- A sequence of calls. -/
def run (s : HeadState F) : List (HeadOp F) → Except HeadAbort (HeadState F)
  | [] => .ok s
  | o :: os => s.op C o >>= fun t => run t os

end HeadState

/-- What a call on `c` should leave: for every position the lowest index of its largest logit, and
the largest logit minus the second in descending order. -/
structure Reports {F : Type} [LinearOrder F] (C : HeadConfig F) (c : HeadCall F)
    (outs : List Token) (margins : List F) : Prop where
  outs : ∀ p < c.toks.length, ∃ j, LowestMax (c.logits p) {j | j < C.nVocab.toNat} j ∧
    outs[p]? = some (int32Of j)
  margins : ∀ p < c.toks.length, ∃ top second rest,
    descending (c.logits p) C.nVocab.toNat = top :: second :: rest ∧
      margins[p]? = some (C.sub top second)

section Run
variable {F : Type} [LinearOrder F] {C : HeadConfig F} {s t : HeadState F} {c : HeadCall F}
  {outs : List Token}

namespace HeadState

/-- A call of a decoder whose certified head is on leaves the margins alone. -/
theorem margins_of_on (hon : C.mode = .on) (h : s.stepBatch C c = .ok (outs, t)) :
    t.margins = s.margins := by
  simp only [stepBatch, if_pos hon] at h
  split_ifs at h
  obtain ⟨-, rfl⟩ := Prod.mk.inj (Except.ok.inj h)
  rfl

theorem length_of_ok (h : s.stepBatch C c = .ok (outs, t)) : 1 ≤ c.toks.length := by
  by_contra hm
  simp only [stepBatch, if_pos (Or.inl (Nat.lt_of_not_le hm))] at h
  cases h

/-- Any other call stores what the scans found. -/
theorem scans_of_not_on (hon : C.mode ≠ .on) (h : s.stepBatch C c = .ok (outs, t)) :
    outs = ((List.range c.toks.length).map fun p => int32Of (scanAt C c p).best) ∧
      t.margins =
        (List.range c.toks.length).map fun p => C.sub (scanAt C c p).bv (scanAt C c p).sv := by
  simp only [stepBatch, if_neg hon] at h
  split_ifs at h
  · -- an audit that aborts on a mismatch
    split at h
    · cases h
    · obtain ⟨rfl, rfl⟩ := Prod.mk.inj (Except.ok.inj h)
      exact ⟨rfl, rfl⟩
  · split at h
    all_goals
      obtain ⟨rfl, rfl⟩ := Prod.mk.inj (Except.ok.inj h)
      exact ⟨rfl, rfl⟩

theorem op_margins_of_on (hon : C.mode = .on) {o : HeadOp F} (h : s.op C o = .ok t) :
    t.margins = s.margins := by
  cases o with
  | batch c =>
    cases hstep : s.stepBatch C c with
    | error e => simp [op, hstep, Except.map] at h
    | ok r =>
      obtain rfl : r.2 = t := by simpa [op, hstep, Except.map] using h
      exact margins_of_on hon hstep
  | rewind pos =>
    simp only [op] at h
    split_ifs at h
    rw [← Except.ok.inj h]
  | reset => rw [← Except.ok.inj h]

/-- No sequence of calls fills the margins of such a decoder. -/
theorem run_margins_of_on (hon : C.mode = .on) {os : List (HeadOp F)} (h : s.run C os = .ok t) :
    t.margins = s.margins := by
  induction os generalizing s with
  | nil => rw [← Except.ok.inj h]
  | cons o os ih =>
    simp only [run, bind, Except.bind] at h
    split at h
    · cases h
    · rename_i u hu
      rw [ih h, op_margins_of_on hon hu]

/-- The scans report. -/
theorem reports_of_not_on (hon : C.mode ≠ .on) (hV : 2 ≤ C.nVocab.toNat)
    (hfloor : ∀ p < c.toks.length, ∀ i < C.nVocab.toNat, C.floor < c.logits p i)
    (h : s.stepBatch C c = .ok (outs, t)) : Reports C c outs t.margins := by
  obtain ⟨rfl, hmargins⟩ := scans_of_not_on hon h
  have hscan (p : ℕ) (hp : p < c.toks.length) :
      Scanned (c.logits p) C.floor C.nVocab.toNat (scanAt C c p) :=
    scanned (by omega) (hfloor p hp 0 (by omega))
  constructor
  · intro p hp
    exact ⟨(scanAt C c p).best, (hscan p hp).best, by simp [hp]⟩
  · intro p hp
    obtain ⟨rest, hrest⟩ := (hscan p hp).descending_eq hV (hfloor p hp)
    exact ⟨_, _, rest, hrest, by simp [hmargins, hp]⟩

end HeadState

/-- **When a call reports.**  After any calls of a fresh decoder, a batch leaves the lowest index
of the largest logit and the margin to the second largest, for every position, if and only if the
certified head is not on. -/
theorem reports_iff {os : List (HeadOp F)} (hrun : HeadState.run C ⟨0, []⟩ os = .ok s)
    (hcall : s.stepBatch C c = .ok (outs, t)) (hV : 2 ≤ C.nVocab.toNat)
    (hfloor : ∀ p < c.toks.length, ∀ i < C.nVocab.toNat, C.floor < c.logits p i) :
    Reports C c outs t.margins ↔ C.mode ≠ .on := by
  constructor
  · intro h hon
    have hempty : t.margins = [] := by
      rw [HeadState.margins_of_on hon hcall, HeadState.run_margins_of_on hon hrun]
    obtain ⟨_, _, _, -, hsome⟩ := h.margins 0 (HeadState.length_of_ok hcall)
    simp [hempty] at hsome
  · intro hon
    exact HeadState.reports_of_not_on hon hV hfloor hcall

end Run

/-! ## Two positions over three tokens -/

/-- A decoder of three tokens. -/
def threeTokens (mode : HcMode) : HeadConfig ℤ := ⟨mode, false, 3, 4, 16, (· - ·), -1000⟩

/-- Logits `5 7 7` and `4 1 3`, the certificate answering as it should. -/
def twoPositions : HeadCall ℤ where
  toks := [0, 1]
  logits p i := (if p = 0 then [5, 7, 7] else [4, 1, 3]).getD i 0
  cert p _ := if p = 0 then 1 else 0

theorem reports_iff_audit :
    Reports (threeTokens .audit) twoPositions [1, 0] [0, 1] ↔ (threeTokens .audit).mode ≠ .on :=
  have hrun : HeadState.run (threeTokens .audit) ⟨0, []⟩ [] = .ok ⟨0, []⟩ := rfl
  have hcall : HeadState.stepBatch (threeTokens .audit) ⟨0, []⟩ twoPositions =
      .ok ([1, 0], ⟨2, [0, 1]⟩) := rfl
  reports_iff hrun hcall (by decide) (by decide)

theorem no_margins_when_on : ¬ ∀ outs t, HeadState.stepBatch (threeTokens .on) ⟨0, []⟩ twoPositions =
    .ok (outs, t) → Reports (threeTokens .on) twoPositions outs t.margins := by
  intro h
  have hcall : HeadState.stepBatch (threeTokens .on) ⟨0, []⟩ twoPositions = .ok ([1, 0], ⟨2, []⟩) :=
    rfl
  obtain ⟨_, _, _, -, hsome⟩ := (h _ _ hcall).margins 0 (by decide)
  cases hsome

end FastLlm
