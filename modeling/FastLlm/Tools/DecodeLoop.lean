import FastLlm.Spec.SuffixIndex
import Mathlib.Tactic.Linarith

/-!
# The decode driver

`runOnce` is the driver's generation run: prefill, then either the plain greedy
loop or the speculative loop with suffix drafts, a draft-length controller and
the margin gate.

The decoder is seen through its contract.  It holds a list of tokens, one per KV
position; `stepBatch` appends a batch and answers one token and one margin per
position, `rewindTo` drops a tail, and both abort as the decoder does.  What it
answers, which drafts come back and which lengths the controller asks for are the
`Env`: arbitrary functions, so that a statement over every `Env` is a statement
over every decoder, drafter and controller.

## Main definitions

* `Dec`, `Dec.stepBatch`, `Dec.rewindTo` — the decoder's sequence state.
* `plainLoop` — `--spec off`.
* `specPass`, `specLoop` — one pass, and the loop, of `--spec on`.
* `headAt` — the state at the `k`-th head of the speculative loop.
-/

namespace FastLlm

/-- The ways a decoder call aborts the process. -/
inductive Abort
  /-- A batch outside `1..max_batch`. -/
  | badBatch (m max : ℕ)
  /-- The batch does not fit in the KV cache. -/
  | kvFull (nPast m : ℕ) (maxKv : ℤ)
  /-- A rewind outside `0..n_past`. -/
  | badRewind (pos : ℤ) (nPast : ℕ)
  deriving DecidableEq, Repr

/-- Everything the driver does not compute itself.  `outs` and `margins` are the
decoder's answers at a call number, for the tokens held before the call, the
tokens fed and a position; `choose` is the controller's answer at a pass, `draft`
the drafter's for the indexed stream and the requested length. -/
structure Env (F : Type) where
  outs : ℕ → List Token → List Token → ℕ → Token
  margins : ℕ → List Token → List Token → ℕ → F
  choose : ℕ → ℤ
  draft : ℕ → SuffixIndex → ℕ → List Token
  /-- The drafter's contract: never more tokens than requested. -/
  length_draft_le : ∀ pass idx want, (draft pass idx want).length ≤ want

/-- The decoder answers from the logical prefix alone. -/
def Env.OfPrefix {F : Type} (E : Env F) (f : List Token → Token) : Prop :=
  ∀ call held fed p, p < fed.length → E.outs call held fed p = f (held ++ fed.take (p + 1))

/-- The decoder's sequence state: the token held at each KV position. -/
structure Dec where
  held : List Token
  calls : ℕ
  deriving DecidableEq, Repr

namespace Dec

/-- The number of KV positions in use. -/
def nPast (d : Dec) : ℕ := d.held.length

/-- Discard the whole sequence. -/
def reset (d : Dec) : Dec := { d with held := [] }

/-- Feed a batch at positions `n_past ..`; the answers come back per position. -/
def stepBatch {F : Type} (E : Env F) (maxBatch : ℕ) (maxKv : ℤ) (d : Dec) (toks : List Token) :
    Except Abort (List Token × Dec) :=
  if toks.length < 1 ∨ maxBatch < toks.length then .error (.badBatch toks.length maxBatch)
  else if maxKv < (d.nPast : ℤ) + toks.length then .error (.kvFull d.nPast toks.length maxKv)
  else
    .ok ((List.range toks.length).map (E.outs d.calls d.held toks),
      ⟨d.held ++ toks, d.calls + 1⟩)

/-- Drop the KV tail from `pos` on. -/
def rewindTo (d : Dec) (pos : ℤ) : Except Abort Dec :=
  if pos < 0 ∨ (d.nPast : ℤ) < pos then .error (.badRewind pos d.nPast)
  else .ok { d with held := d.held.take pos.toNat }

/-- A batch that fits is held after the call. -/
theorem stepBatch_ok {F : Type} (E : Env F) {maxBatch : ℕ} {maxKv : ℤ} {d : Dec}
    {toks : List Token} (hpos : 1 ≤ toks.length) (hmax : toks.length ≤ maxBatch)
    (hkv : (d.nPast : ℤ) + toks.length ≤ maxKv) :
    d.stepBatch E maxBatch maxKv toks =
      .ok ((List.range toks.length).map (E.outs d.calls d.held toks),
        ⟨d.held ++ toks, d.calls + 1⟩) := by
  rw [stepBatch, if_neg (by omega), if_neg (by omega)]

/-- A batch that does not fit in the KV room aborts. -/
theorem stepBatch_kvFull {F : Type} (E : Env F) {maxBatch : ℕ} {maxKv : ℤ} {d : Dec}
    {toks : List Token} (hpos : 1 ≤ toks.length) (hmax : toks.length ≤ maxBatch)
    (hkv : maxKv < (d.nPast : ℤ) + toks.length) :
    d.stepBatch E maxBatch maxKv toks = .error (.kvFull d.nPast toks.length maxKv) := by
  rw [stepBatch, if_neg (by omega), if_pos hkv]

/-- Rewinding into the batch just fed keeps a prefix of it. -/
theorem rewindTo_append (held toks : List Token) (calls k : ℕ) (hk : k ≤ toks.length) :
    rewindTo ⟨held ++ toks, calls⟩ ((held.length : ℤ) + k) = .ok ⟨held ++ toks.take k, calls⟩ := by
  have hlen : (nPast ⟨held ++ toks, calls⟩ : ℤ) = held.length + toks.length := by simp [nPast]
  have htoNat : ((held.length : ℤ) + k).toNat = held.length + k := by omega
  rw [rewindTo, if_neg (by omega), htoNat, List.take_append, List.take_of_length_le (by omega)]
  simp

end Dec

/-- The driver's options. -/
structure Opts (F : Type) where
  nGen : ℤ
  maxKv : ℤ
  specMax : ℤ
  specFixed : ℤ
  specMin : ℕ
  specChain : ℕ
  approxTau : F

namespace Opts
variable {F : Type}

/-- `spec_max` after the driver's adjustments: raised to a fixed draft length,
then clamped to `1..15`. -/
def draftMax (o : Opts F) : ℕ :=
  let raised := if 0 ≤ o.specFixed ∧ o.specMax < o.specFixed then o.specFixed else o.specMax
  if raised < 1 then 1 else if 15 < raised then 15 else raised.toNat

/-- The largest batch of a speculative run. -/
def maxBatch (o : Opts F) : ℕ := o.draftMax + 1

/-- The draft length asked for at a pass, given the controller's answer. -/
def want (o : Opts F) (choice : ℤ) : ℕ :=
  let w := if 0 ≤ o.specFixed then o.specFixed else choice
  (if (o.draftMax : ℤ) < w then (o.draftMax : ℤ) else w).toNat

theorem want_le (o : Opts F) (choice : ℤ) : o.want choice ≤ o.draftMax := by
  simp only [want]
  generalize (if 0 ≤ o.specFixed then o.specFixed else choice) = w
  split <;> omega

end Opts

/-- Driver counters that the loop keeps per run. -/
structure SpecStats where
  passes : ℕ
  drafted : ℕ
  accepted : ℕ
  trunc : ℕ
  deriving DecidableEq, Repr

/-- The state at a head of the speculative loop: `nextTok` is not yet emitted and
not yet fed. -/
structure LoopState where
  dec : Dec
  idx : SuffixIndex
  out : List Token
  nextTok : Token
  stats : SpecStats

/-! ## Prefill and the plain loop -/

section Loops
variable {F : Type} (E : Env F) (o : Opts F)

/-- Feed one token; the answer is the next token. -/
def step (maxKv : ℤ) (d : Dec) (t : Token) : Except Abort (Token × Dec) := do
  let (outs, d') ← d.stepBatch E 1 maxKv [t]
  pure (outs.getD 0 0, d')

/-- Prefill of `--spec off`: one token at a time. -/
def prefillPlain : List Token → Dec × Token → Except Abort (Dec × Token)
  | [], s => pure s
  | t :: ts, s => do
      let (next, d) ← step E o.maxKv s.1 t
      prefillPlain ts (d, next)

/-- Prefill of `--spec on`: chunks of the largest batch, keeping the answer of the
last position of each chunk. -/
def prefillBatch (ids : List Token) (s : Dec × Token) : Except Abort (Dec × Token) :=
  if ids = [] then pure s
  else do
    let chunk := ids.take o.maxBatch
    let (outs, d) ← s.1.stepBatch E o.maxBatch o.maxKv chunk
    prefillBatch (ids.drop o.maxBatch) (d, outs.getD (chunk.length - 1) 0)
  termination_by ids.length
  decreasing_by
    rename_i h
    have : 0 < ids.length := List.length_pos_iff.mpr h
    simp only [Opts.maxBatch, List.length_drop]
    omega

/-- The loop of `--spec off`: emit, then feed what was emitted. -/
def plainLoop : ℕ → Dec → Token → List Token → Except Abort (List Token)
  | 0, _, _, out => pure out
  | n + 1, d, next, out => do
      let (next', d') ← step E o.maxKv d next
      plainLoop n d' next' (out ++ [next])

/-! ## The speculative pass -/

/-- The length of the draft prefix the pass's answers agree with. -/
def acceptedLen : List Token → List Token → ℕ
  | d :: ds, o :: os => if o = d then acceptedLen ds os + 1 else 0
  | _, _ => 0

/-- Emit accepted drafts until `n_gen` tokens are out. -/
def emitDrafts (nGen : ℤ) : List Token → List Token × SuffixIndex → List Token × SuffixIndex
  | [], s => s
  | d :: ds, s => if (s.1.length : ℤ) < nGen then emitDrafts nGen ds (s.1 ++ [d], s.2.push d) else s

variable [LT F] [LE F] [Zero F] [DecidableLT F] [DecidableLE F]

/-- The margin gate: cut the accepted length at the first position past 0 whose
margin is not above `tau`; the flag says whether it fired. -/
def marginGate (tau : F) (mg : ℕ → F) (a : ℕ) : ℕ × Bool :=
  if 0 < tau ∧ 0 < a then
    match (List.range' 1 (a - 1)).find? (fun p => decide (mg p ≤ tau)) with
    | some p => (p, true)
    | none => (a, false)
  else (a, false)

/-- The draft of the pass that starts at `s`, whose pending token is indexed
first. -/
def passDraft (s : LoopState) : List Token :=
  let want := o.want (E.choose s.stats.passes)
  if 0 < want then E.draft s.stats.passes (s.idx.push s.nextTok) want else []

/-- The batch fed by the pass that starts at `s`. -/
def passToks (s : LoopState) : List Token := s.nextTok :: passDraft E o s

/-- The answers of that batch. -/
def passOuts (s : LoopState) : List Token :=
  (List.range (passToks E o s).length).map
    (E.outs s.dec.calls s.dec.held (passToks E o s))

/-- The accepted length of that pass and whether the margin gate fired. -/
def passGate (s : LoopState) : ℕ × Bool :=
  marginGate o.approxTau (E.margins s.dec.calls s.dec.held (passToks E o s))
    (acceptedLen (passDraft E o s) (passOuts E o s))

/-- One turn of the speculative loop from a head with tokens still to emit:
either the output is complete (`inr`) or the next head (`inl`). -/
def specPass (s : LoopState) : Except Abort (LoopState ⊕ List Token) :=
  let out := s.out ++ [s.nextTok]
  if o.nGen ≤ (out.length : ℤ) then pure (.inr out)
  else do
    let draft := passDraft E o s
    let base := s.dec.nPast
    let (outs, d) ← s.dec.stepBatch E o.maxBatch o.maxKv (passToks E o s)
    let (a, trunc) := passGate E o s
    let (out, idx) := emitDrafts o.nGen (draft.take a) (out, s.idx.push s.nextTok)
    let stats : SpecStats :=
      ⟨s.stats.passes + 1, s.stats.drafted + draft.length, s.stats.accepted + a,
        s.stats.trunc + if trunc then 1 else 0⟩
    if trunc then
      -- position `a` is re-decided as position 0 of the next pass
      let d ← d.rewindTo (base + a)
      pure (.inl ⟨d, idx, out, draft.getD (a - 1) 0, stats⟩)
    else
      let d ← d.rewindTo (base + a + 1)
      pure (.inl ⟨d, idx, out, outs.getD a 0, stats⟩)

/-! ## What a pass does

One inversion for the whole pass: it completes the output, or it aborts because
the batch does not fit, or it leads to the next head.  The other aborts cannot
happen, since the batch and both rewind targets are in range. -/

theorem acceptedLen_le : ∀ ds os : List Token, acceptedLen ds os ≤ ds.length
  | [], os => by cases os <;> simp [acceptedLen]
  | d :: ds, [] => by simp [acceptedLen]
  | d :: ds, o :: os => by
      have ih := acceptedLen_le ds os
      simp only [acceptedLen, List.length_cons]
      split <;> omega

theorem marginGate_le (tau : F) (mg : ℕ → F) (a : ℕ) : (marginGate tau mg a).1 ≤ a := by
  simp only [marginGate]
  split
  · split
    · rename_i p hp
      have hmem := List.mem_of_find?_eq_some hp
      simp only [List.mem_range'_1] at hmem
      omega
    · exact le_rfl
  · exact le_rfl

theorem marginGate_pos (tau : F) (mg : ℕ → F) (a : ℕ) (h : (marginGate tau mg a).2 = true) :
    0 < (marginGate tau mg a).1 := by
  unfold marginGate at h ⊢
  by_cases hc : 0 < tau ∧ 0 < a
  · rw [if_pos hc] at h ⊢
    split at h
    · rename_i p hp
      have hmem := List.mem_of_find?_eq_some hp
      simp only [List.mem_range'_1] at hmem
      exact hmem.1
    · simp at h
  · simp [hc] at h

/-- The drafts a pass emits: the accepted ones, as far as `n_gen` allows. -/
def emitted (s : LoopState) : List Token :=
  (passDraft E o s).take
    (min (passGate E o s).1 (o.nGen - (s.out.length + 1)).toNat)

omit [LT F] [LE F] [Zero F] [DecidableLT F] [DecidableLE F] in
theorem emitDrafts_eq (nGen : ℤ) (ds out : List Token) (idx : SuffixIndex) :
    emitDrafts nGen ds (out, idx) =
      (out ++ ds.take (nGen - out.length).toNat,
        (ds.take (nGen - out.length).toNat).foldl SuffixIndex.push idx) := by
  induction ds generalizing out idx with
  | nil => simp [emitDrafts]
  | cons d ds ih =>
      by_cases h : (out.length : ℤ) < nGen
      · have hk : (nGen - out.length).toNat = (nGen - (out ++ [d]).length).toNat + 1 := by
          simp only [List.length_append, List.length_singleton]
          omega
        simp only [emitDrafts, if_pos h, ih, hk, List.take_succ_cons, List.foldl_cons,
          List.append_assoc, List.singleton_append]
      · have hk : (nGen - out.length).toNat = 0 := by omega
        simp [emitDrafts, h, hk]

omit [LT F] [LE F] [Zero F] [DecidableLT F] [DecidableLE F] in
theorem length_passDraft_le (s : LoopState) : (passDraft E o s).length ≤ o.draftMax := by
  simp only [passDraft]
  split
  · exact (E.length_draft_le _ _ _).trans (o.want_le _)
  · simp

theorem passGate_le (s : LoopState) : (passGate E o s).1 ≤ (passDraft E o s).length :=
  (marginGate_le _ _ _).trans (acceptedLen_le _ _)

/-- The head a completed pass leads to. -/
def nextHead (s : LoopState) : LoopState where
  dec :=
    ⟨s.dec.held ++ (passToks E o s).take
        ((passGate E o s).1 + if (passGate E o s).2 then 0 else 1), s.dec.calls + 1⟩
  idx := (s.nextTok :: emitted E o s).foldl SuffixIndex.push s.idx
  out := s.out ++ s.nextTok :: emitted E o s
  nextTok :=
    if (passGate E o s).2 then (passDraft E o s).getD ((passGate E o s).1 - 1) 0
    else (passOuts E o s).getD (passGate E o s).1 0
  stats :=
    ⟨s.stats.passes + 1, s.stats.drafted + (passDraft E o s).length,
      s.stats.accepted + (passGate E o s).1,
      s.stats.trunc + if (passGate E o s).2 then 1 else 0⟩

/-- **One pass.**  It ends the output when a single token was missing, aborts
exactly when the batch exceeds the KV room, and otherwise moves to `nextHead`. -/
theorem specPass_eq (s : LoopState) :
    specPass E o s =
      if o.nGen ≤ (s.out.length : ℤ) + 1 then .ok (.inr (s.out ++ [s.nextTok]))
      else if o.maxKv < (s.dec.nPast : ℤ) + (passToks E o s).length then
        .error (.kvFull s.dec.nPast (passToks E o s).length o.maxKv)
      else .ok (.inl (nextHead E o s)) := by
  have hlen : ((s.out ++ [s.nextTok]).length : ℤ) = (s.out.length : ℤ) + 1 := by simp
  by_cases hdone : o.nGen ≤ (s.out.length : ℤ) + 1
  · simp [specPass, hdone]
    rfl
  have hpos : 1 ≤ (passToks E o s).length := by simp [passToks]
  have hmax : (passToks E o s).length ≤ o.maxBatch := by
    have := length_passDraft_le E o s
    simp only [passToks, List.length_cons, Opts.maxBatch]
    omega
  by_cases hfull : o.maxKv < (s.dec.nPast : ℤ) + (passToks E o s).length
  · simp only [specPass, hlen, if_neg hdone, Dec.stepBatch_kvFull E hpos hmax hfull, if_pos hfull]
    rfl
  have hstep := Dec.stepBatch_ok E hpos hmax (not_lt.mp hfull)
  have hgate : (passGate E o s).1 + 1 ≤ (passToks E o s).length := by
    simpa [passToks] using passGate_le E o s
  have hemit : ((passDraft E o s).take (passGate E o s).1).take
      (o.nGen - ((s.out ++ [s.nextTok]).length : ℤ)).toNat = emitted E o s := by
    rw [List.take_take, emitted, hlen, Nat.min_comm]
  simp only [specPass, hlen, if_neg hdone, if_neg hfull, hstep, emitDrafts_eq]
  simp only [← hlen, hemit]
  cases htr : (passGate E o s).2
  · have hrw := Dec.rewindTo_append s.dec.held (passToks E o s) (s.dec.calls + 1) _ hgate
    push_cast at hrw
    rw [← add_assoc] at hrw
    simp only [bind, Except.bind, Dec.nPast, Bool.false_eq_true, if_false, hrw, nextHead, htr]
    simp [passOuts, pure, Except.pure]
  · have hrw := Dec.rewindTo_append s.dec.held (passToks E o s) (s.dec.calls + 1)
      (passGate E o s).1 (by omega)
    simp only [bind, Except.bind, Dec.nPast, if_true, hrw, nextHead, htr]
    simp [pure, Except.pure]

theorem length_out_lt_nextHead (s : LoopState) : s.out.length < (nextHead E o s).out.length := by
  simp [nextHead]

theorem inl_of_specPass {s s' : LoopState} (h : specPass E o s = .ok (.inl s')) :
    s' = nextHead E o s ∧ (s.out.length : ℤ) + 1 < o.nGen := by
  rw [specPass_eq] at h
  split at h
  · simp at h
  · split at h
    · simp at h
    · simp only [Except.ok.injEq, Sum.inl.injEq] at h
      exact ⟨h.symm, by omega⟩

/-! ## The loop and the run -/

/-- The speculative loop. -/
def specLoop (s : LoopState) : Except Abort (List Token) :=
  if (s.out.length : ℤ) < o.nGen then
    match _h : specPass E o s with
    | .error e => .error e
    | .ok (.inr out) => .ok out
    | .ok (.inl s') => specLoop s'
  else .ok s.out
  termination_by (o.nGen - s.out.length).toNat
  decreasing_by
    obtain ⟨rfl, hlt⟩ := inl_of_specPass E o _h
    have := length_out_lt_nextHead E o s
    omega

/-- The head after `s`, unless the loop ends or aborts there. -/
def succHead (s : LoopState) : Option LoopState :=
  if (s.out.length : ℤ) < o.nGen then
    match specPass E o s with
    | .ok (.inl s') => some s'
    | _ => none
  else none

/-- The state at the `k`-th head after `s`, if the loop gets there. -/
def headAt (s : LoopState) : ℕ → Option LoopState
  | 0 => some s
  | k + 1 => (headAt s k).bind (succHead E o)

/-- The first head of the speculative loop, after prefill. -/
def firstHead (ids : List Token) (d : Dec) : Except Abort LoopState := do
  let (d, next) ← prefillBatch E o ids (d.reset, 0)
  pure ⟨d, ids.foldl SuffixIndex.push (SuffixIndex.init o.specChain o.specMin), [], next,
    ⟨0, 0, 0, 0⟩⟩

/-- One generation run on the prompt `ids`, with speculation on or off, from
whatever the decoder holds. -/
def runOnce (spec : Bool) (ids : List Token) (d : Dec) : Except Abort (List Token) :=
  if spec then do
    let s ← firstHead E o ids d
    specLoop E o s
  else do
    let (d, next) ← prefillPlain E o ids (d.reset, 0)
    plainLoop E o o.nGen.toNat d next []

/-- The batch of the pass at `s` fits in the KV room. -/
def Fits (s : LoopState) : Prop := (s.dec.nPast : ℤ) + (passToks E o s).length ≤ o.maxKv

instance (s : LoopState) : Decidable (Fits E o s) :=
  inferInstanceAs (Decidable ((s.dec.nPast : ℤ) + (passToks E o s).length ≤ o.maxKv))

theorem succHead_eq (s : LoopState) :
    succHead E o s =
      if (s.out.length : ℤ) + 1 < o.nGen ∧ Fits E o s then some (nextHead E o s) else none := by
  by_cases hdone : o.nGen ≤ (s.out.length : ℤ) + 1
  · rw [if_neg (by omega), succHead, specPass_eq, if_pos hdone]
    split <;> rfl
  · rw [succHead, if_pos (by omega), specPass_eq, if_neg hdone]
    by_cases hfit : o.maxKv < (s.dec.nPast : ℤ) + (passToks E o s).length
    · rw [if_pos hfit, if_neg (by simp only [Fits]; omega)]
    · rw [if_neg hfit, if_pos (by simp only [Fits]; omega)]

theorem specLoop_eq (s : LoopState) :
    specLoop E o s =
      if o.nGen ≤ (s.out.length : ℤ) then .ok s.out
      else if o.nGen ≤ (s.out.length : ℤ) + 1 then .ok (s.out ++ [s.nextTok])
      else if Fits E o s then specLoop E o (nextHead E o s)
      else .error (.kvFull s.dec.nPast (passToks E o s).length o.maxKv) := by
  rw [specLoop]
  by_cases hdone : o.nGen ≤ (s.out.length : ℤ)
  · rw [if_neg (by omega), if_pos hdone]
  rw [if_pos (by omega), if_neg hdone]
  have hpass := specPass_eq E o s
  by_cases hlast : o.nGen ≤ (s.out.length : ℤ) + 1
  · rw [if_pos hlast] at hpass ⊢
    split <;> simp_all
  rw [if_neg hlast] at hpass ⊢
  by_cases hfit : Fits E o s
  · rw [if_neg (by simpa [Fits] using hfit)] at hpass
    rw [if_pos hfit]
    split <;> simp_all
  · rw [if_pos (by simpa [Fits] using hfit)] at hpass
    rw [if_neg hfit]
    split <;> simp_all

/-- **Induction along the loop**: from the next head to this one. -/
theorem specLoop_induction {P : LoopState → Prop}
    (h : ∀ s, ((s.out.length : ℤ) + 1 < o.nGen → P (nextHead E o s)) → P s) (s : LoopState) :
    P s := by
  generalize hn : (o.nGen - s.out.length).toNat = n
  induction n using Nat.strong_induction_on generalizing s with
  | _ n ih =>
      refine h s fun hlt => ih _ ?_ _ rfl
      have := length_out_lt_nextHead E o s
      omega

end Loops
end FastLlm
