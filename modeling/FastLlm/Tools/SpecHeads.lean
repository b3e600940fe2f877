import FastLlm.Tools.PlainRun

/-!
# The heads of the speculative loop

At a head the decoder should hold the prompt followed by what was emitted, and
the suffix index the same stream.  A pass whose margin gate stays quiet restores
this.  A truncated pass does not: it emits the last accepted draft, rewinds to the
position before it and makes it the pending token again, so the next head emits it
a second time.  Each truncation leaves one emitted token more than is held, and
nothing makes up for it later.

## Main definitions

* `HeadInv` — held tokens, emitted tokens and indexed tokens agree.
* `headInv_iff` — it holds at a head exactly when no earlier pass was truncated.
-/

namespace FastLlm

/-- What a head of the loop should satisfy: positions `0 .. n_past - 1` hold the
prompt and the emitted tokens, the index holds the same stream, and the pending
token is the one of position `n_past` once it is emitted. -/
structure HeadInv (ids : List Token) (s : LoopState) : Prop where
  held : s.dec.held = ids ++ s.out
  indexed : s.idx.toks = ids ++ s.out
  pending : (ids ++ (s.out ++ [s.nextTok]))[s.dec.nPast]? = some s.nextTok

theorem HeadInv.of_eq {ids : List Token} {s : LoopState} (hheld : s.dec.held = ids ++ s.out)
    (hidx : s.idx.toks = ids ++ s.out) : HeadInv ids s where
  held := hheld
  indexed := hidx
  pending := by
    rw [Dec.nPast, hheld, ← List.append_assoc, List.getElem?_concat_length]

section Heads
variable {F : Type} (E : Env F) (o : Opts F)
variable [LT F] [LE F] [Zero F] [DecidableLT F] [DecidableLE F]

/-- Heads are reached one pass at a time. -/
theorem headAt_succ {s t : LoopState} {k : ℕ} (h : headAt E o s (k + 1) = some t) :
    ∃ u, headAt E o s k = some u ∧ (u.out.length : ℤ) + 1 < o.nGen ∧ Fits E o u ∧
      t = nextHead E o u := by
  simp only [headAt, Option.bind_eq_some_iff] at h
  obtain ⟨u, hu, hsucc⟩ := h
  rw [succHead_eq] at hsucc
  split at hsucc
  · rename_i hc
    exact ⟨u, hu, hc.1, hc.2, (Option.some.inj hsucc).symm⟩
  · simp at hsucc

/-- Before the output is complete, a pass emits all its accepted drafts. -/
theorem emitted_of_lt (s : LoopState) (h : ((nextHead E o s).out.length : ℤ) < o.nGen) :
    emitted E o s = (passDraft E o s).take (passGate E o s).1 := by
  have hle := passGate_le E o s
  simp only [nextHead, List.length_append, List.length_cons, emitted, List.length_take] at h
  rw [emitted, Nat.min_eq_left (by omega)]

/-- A pass with a quiet gate restores the head invariant. -/
theorem headInv_nextHead {ids : List Token} {s : LoopState} (hinv : HeadInv ids s)
    (hquiet : (passGate E o s).2 = false)
    (hlt : ((nextHead E o s).out.length : ℤ) < o.nGen) : HeadInv ids (nextHead E o s) := by
  have hemit := emitted_of_lt E o s hlt
  refine HeadInv.of_eq ?_ ?_
  · simp [nextHead, hquiet, hemit, hinv.held, passToks]
  · simp [nextHead, hemit, hinv.indexed]

/-- **The deficit.**  Held and truncated together make up prompt and output: every
truncation holds back one emitted token, and no pass repays it. -/
theorem held_add_trunc {ids : List Token} {s t : LoopState} {k : ℕ}
    (h0 : s.dec.held.length + s.stats.trunc = ids.length + s.out.length)
    (h : headAt E o s k = some t) (hlt : (t.out.length : ℤ) < o.nGen) :
    t.dec.held.length + t.stats.trunc = ids.length + t.out.length := by
  induction k generalizing t with
  | zero =>
      obtain rfl : s = t := by simpa [headAt] using h
      exact h0
  | succ k ih =>
      obtain ⟨u, hu, hult, -, rfl⟩ := headAt_succ E o h
      have hu' := ih hu (by omega)
      have hemit := emitted_of_lt E o u hlt
      have hle := passGate_le E o u
      have hpos := marginGate_pos o.approxTau
        (E.margins u.dec.calls u.dec.held (passToks E o u))
        (acceptedLen (passDraft E o u) (passOuts E o u))
      simp only [nextHead, hemit, passToks, List.length_append, List.length_cons,
        List.length_take]
      cases htr : (passGate E o u).2
      · simp only [Bool.false_eq_true, if_false]
        omega
      · have := hpos htr
        simp only [if_true]
        simp only [passGate] at this hle ⊢
        omega

/-- The truncation counter is zero exactly while every gate was quiet. -/
theorem trunc_eq_zero_iff {s t : LoopState} {k : ℕ} (h0 : s.stats.trunc = 0)
    (h : headAt E o s k = some t) :
    t.stats.trunc = 0 ↔
      ∀ j < k, ∀ u, headAt E o s j = some u → (passGate E o u).2 = false := by
  induction k generalizing t with
  | zero =>
      obtain rfl : s = t := by simpa [headAt] using h
      simp [h0]
  | succ k ih =>
      obtain ⟨u, hu, -, -, rfl⟩ := headAt_succ E o h
      have ihu := ih hu
      constructor
      · intro hz j hj v hv
        simp only [nextHead] at hz
        rcases Nat.lt_succ_iff_lt_or_eq.mp hj with hjk | rfl
        · exact ihu.mp (by omega) j hjk v hv
        · obtain rfl : u = v := by simpa [hu] using hv
          cases htr : (passGate E o u).2
          · rfl
          · simp [htr] at hz
      · intro hall
        have hquiet := hall k (Nat.lt_succ_self k) u hu
        have hzero := ihu.mpr fun j hj => hall j (by omega)
        simp [nextHead, hquiet, hzero]

/-- While every gate was quiet the head invariant holds. -/
theorem headInv_of_quiet {ids : List Token} {s t : LoopState} {k : ℕ} (h0 : HeadInv ids s)
    (h : headAt E o s k = some t) (hlt : (t.out.length : ℤ) < o.nGen)
    (hquiet : ∀ j < k, ∀ u, headAt E o s j = some u → (passGate E o u).2 = false) :
    HeadInv ids t := by
  induction k generalizing t with
  | zero =>
      obtain rfl : s = t := by simpa [headAt] using h
      exact h0
  | succ k ih =>
      obtain ⟨u, hu, hult, -, rfl⟩ := headAt_succ E o h
      exact headInv_nextHead E o (ih hu (by omega) fun j hj => hquiet j (by omega))
        (hquiet k (Nat.lt_succ_self k) u hu) hlt

/-- **The head invariant, exactly.**  In every run, at every head with tokens
still to emit, held, emitted and indexed tokens agree if and only if no earlier
pass was truncated by the margin gate. -/
theorem headInv_iff (ids : List Token) (d : Dec) (s t : LoopState) (k : ℕ)
    (hs : firstHead E o ids d = .ok s) (ht : headAt E o s k = some t)
    (hlt : (t.out.length : ℤ) < o.nGen) :
    HeadInv ids t ↔
      ∀ j < k, ∀ u, headAt E o s j = some u → (passGate E o u).2 = false := by
  obtain ⟨hheld, hidx, hout, htrunc⟩ := firstHead_fields E o hs
  constructor
  · intro hinv
    have h0 : s.dec.held.length + s.stats.trunc = ids.length + s.out.length := by
      simp [hheld, hout, htrunc]
    have hdef := held_add_trunc E o h0 ht hlt
    have hlen : t.dec.held.length = ids.length + t.out.length := by simp [hinv.held]
    exact (trunc_eq_zero_iff E o htrunc ht).mp (by omega)
  · exact headInv_of_quiet E o (HeadInv.of_eq (by simp [hheld, hout]) (by simp [hidx, hout])) ht hlt

end Heads

/-! ## A truncated run

A periodic stream, the suffix index as the drafter, and margins that never exceed
the threshold: the first pass accepts four drafts and is cut after the first. -/

/-- The answers of a decoder that continues `1 2 3 4 1 2 ...`. -/
def cycle (pre : List Token) : Token := if pre.getLast? = some 4 then 1 else pre.getLastD 0 + 1

/-- Periodic answers, zero margins, a controller that asks for seven tokens, and
the suffix index as the drafter. -/
def cycleEnv : Env ℤ where
  outs _ held fed p := cycle (held ++ fed.take (p + 1))
  margins _ _ _ _ := 0
  choose _ := 7
  draft _ idx want := idx.draft want
  length_draft_le _ idx want := idx.length_draft_le want

/-- Options of the example runs. -/
def cycleOpts (nGen maxKv tau : ℤ) : Opts ℤ := ⟨nGen, maxKv, 7, -1, 3, 64, tau⟩

/-- The prompt of the example runs. -/
def cyclePrompt : List Token := [1, 2, 3, 4, 1, 2, 3]

/-- The first head of the example runs. -/
def cycleHead : LoopState :=
  ⟨⟨cyclePrompt, 1⟩, cyclePrompt.foldl SuffixIndex.push (SuffixIndex.init 64 3), [], 4,
    ⟨0, 0, 0, 0⟩⟩

theorem firstHead_cycle (nGen maxKv tau : ℤ) (hkv : 7 ≤ maxKv) :
    firstHead cycleEnv (cycleOpts nGen maxKv tau) cyclePrompt ⟨[], 0⟩ = .ok cycleHead := by
  have hstep := Dec.stepBatch_ok cycleEnv (d := ⟨[], 0⟩) (show 1 ≤ cyclePrompt.length by decide)
    (show cyclePrompt.length ≤ 8 by decide) (show (0 : ℤ) + 7 ≤ maxKv by omega)
  have hpre : prefillBatch cycleEnv (cycleOpts nGen maxKv tau) cyclePrompt (⟨[], 0⟩, 0) =
      .ok (⟨cyclePrompt, 1⟩, 4) := by
    rw [prefillBatch, if_neg (by decide)]
    change (Dec.stepBatch cycleEnv 8 maxKv ⟨[], 0⟩ cyclePrompt >>= _) = _
    rw [hstep]
    change prefillBatch cycleEnv (cycleOpts nGen maxKv tau) [] (⟨cyclePrompt, 1⟩, 4) = _
    rw [prefillBatch]
    rfl
  rw [firstHead, Dec.reset, hpre]
  rfl

/-- The options under which the gate cuts the first pass. -/
def truncOpts : Opts ℤ := cycleOpts 8 64 1

/-- The head after the truncated pass. -/
def truncHead : LoopState := nextHead cycleEnv truncOpts cycleHead

theorem headAt_truncHead : headAt cycleEnv truncOpts cycleHead 1 = some truncHead := by
  rw [headAt, headAt, Option.bind_some, succHead_eq, if_pos (by decide +kernel)]
  rfl

/-- The truncated pass leaves `4 1` emitted and `1` pending, with only `4` held
behind the prompt: `1` is emitted again. -/
theorem headInv_fails :
    ¬ ∀ s k t, firstHead cycleEnv truncOpts cyclePrompt ⟨[], 0⟩ = .ok s →
      headAt cycleEnv truncOpts s k = some t → (t.out.length : ℤ) < truncOpts.nGen →
      HeadInv cyclePrompt t := by
  intro h
  have hinv := h cycleHead 1 truncHead (firstHead_cycle 8 64 1 (by decide)) headAt_truncHead
    (by decide +kernel)
  have hne : truncHead.dec.held ≠ cyclePrompt ++ truncHead.out := by decide +kernel
  exact hne hinv.held

theorem headInv_iff_truncHead :
    HeadInv cyclePrompt truncHead ↔
      ∀ j < 1, ∀ u, headAt cycleEnv truncOpts cycleHead j = some u →
        (passGate cycleEnv truncOpts u).2 = false :=
  headInv_iff cycleEnv truncOpts cyclePrompt ⟨[], 0⟩ cycleHead truncHead 1
    (firstHead_cycle 8 64 1 (by decide)) headAt_truncHead (by decide +kernel)

end FastLlm
