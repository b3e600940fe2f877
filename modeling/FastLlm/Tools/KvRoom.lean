import FastLlm.Tools.SpecHeads

/-!
# KV room of the speculative run

The plain run needs one KV position per prompt token and per emitted token.  A
speculative pass needs one more than its draft on top of what is held, and nothing
shortens the draft to the room that is left, so a long draft near the end of the
cache aborts a run that would have completed without speculation.

## Main definitions

* `spec_on_completes_iff` — the speculative run completes exactly when every
  draft fits in the room left at its pass.
* `spec_on_completes_of_room` — a cache with room for one more full draft is
  always large enough.
-/

namespace FastLlm

section Room
variable {F : Type} (E : Env F) (o : Opts F)
variable [LT F] [LE F] [Zero F] [DecidableLT F] [DecidableLE F]

/-- The heads after a completed pass are the heads of the run shifted by one. -/
theorem headAt_nextHead {s : LoopState} (hlt : (s.out.length : ℤ) + 1 < o.nGen)
    (hfit : Fits E o s) (k : ℕ) : headAt E o s (k + 1) = headAt E o (nextHead E o s) k := by
  induction k with
  | zero => simp [headAt, succHead_eq, hlt, hfit]
  | succ k ih => rw [headAt, ih, headAt]

/-- The speculative loop completes exactly when every pass on its way fits. -/
theorem specLoop_completes_iff (s : LoopState) :
    (∃ out, specLoop E o s = .ok out) ↔
      ∀ k t, headAt E o s k = some t → (t.out.length : ℤ) + 1 < o.nGen → Fits E o t := by
  induction s using specLoop_induction E o with
  | h s ih =>
    by_cases hlt : (s.out.length : ℤ) + 1 < o.nGen
    · by_cases hfit : Fits E o s
      · rw [specLoop_eq, if_neg (by omega), if_neg (by omega), if_pos hfit, ih hlt]
        constructor
        · intro h k t ht hlt'
          cases k with
          | zero =>
              obtain rfl : s = t := by simpa [headAt] using ht
              exact hfit
          | succ k => exact h k t (by rwa [← headAt_nextHead E o hlt hfit]) hlt'
        · intro h k t ht hlt'
          exact h (k + 1) t (by rwa [headAt_nextHead E o hlt hfit]) hlt'
      · rw [specLoop_eq, if_neg (by omega), if_neg (by omega), if_neg hfit]
        constructor
        · simp
        · intro h
          exact absurd (h 0 s rfl hlt) hfit
    · constructor
      · intro _ k t ht hlt'
        cases k with
        | zero =>
            obtain rfl : s = t := by simpa [headAt] using ht
            exact absurd hlt' hlt
        | succ k =>
            -- a loop that stops at `s` has no later head
            exfalso
            have hnone : ∀ j, headAt E o s (j + 1) = none := by
              intro j
              induction j with
              | zero => simp [headAt, succHead_eq, hlt]
              | succ j ihj => rw [headAt, ihj]; rfl
            simp [hnone k] at ht
      · intro _
        rw [specLoop_eq]
        by_cases hdone : o.nGen ≤ (s.out.length : ℤ)
        · exact ⟨s.out, by rw [if_pos hdone]⟩
        · exact ⟨s.out ++ [s.nextTok], by rw [if_neg hdone, if_pos (by omega)]⟩

/-- What a completed plain run needs of the cache. -/
theorem noKvFull_of_ok {α : Type} {r : Except Abort α} (h : ∃ a, r = .ok a) : NoKvFull r := by
  obtain ⟨a, rfl⟩ := h
  intro n m k
  simp

/-- **When speculation completes.**  If the plain run completes, the speculative
run on the same prompt, `n_gen` and `max_kv` completes if and only if at every
pass the pending token and the draft fit behind the tokens held. -/
theorem spec_on_completes_iff (ids : List Token) (d : Dec)
    (hoff : ∃ out, runOnce E o false ids d = .ok out) :
    (∃ out, runOnce E o true ids d = .ok out) ↔
      ∀ s k t, firstHead E o ids d = .ok s → headAt E o s k = some t →
        (t.out.length : ℤ) + 1 < o.nGen →
        (t.dec.nPast : ℤ) + 1 + (passDraft E o t).length ≤ o.maxKv := by
  obtain ⟨hpre, -⟩ := room_of_plain E o ids d (noKvFull_of_ok hoff)
  obtain ⟨s, hs, -⟩ := firstHead_ok E o ids d hpre
  have hfits : ∀ t, Fits E o t ↔
      (t.dec.nPast : ℤ) + 1 + (passDraft E o t).length ≤ o.maxKv := by
    intro t
    simp only [Fits, passToks, List.length_cons]
    push_cast
    omega
  simp only [runOnce, if_true, hs, bind, Except.bind, specLoop_completes_iff, hfits,
    Except.ok.injEq]
  constructor
  · rintro h _ k t rfl ht hlt
    exact h k t ht hlt
  · intro h k t ht hlt
    exact h s k t rfl ht hlt

/-- A cache with room for the prompt, the output and one more full draft never
aborts the speculative run. -/
theorem spec_on_completes_of_room (ids : List Token) (d : Dec)
    (hids : (ids.length : ℤ) ≤ o.maxKv)
    (hroom : (ids.length : ℤ) + o.nGen + o.draftMax ≤ o.maxKv + 1) :
    ∃ out, runOnce E o true ids d = .ok out := by
  obtain ⟨s, hs, -⟩ := firstHead_ok E o ids d (Or.inr hids)
  obtain ⟨hheld, -, hout, htrunc⟩ := firstHead_fields E o hs
  simp only [runOnce, if_true, hs, bind, Except.bind]
  refine (specLoop_completes_iff E o s).mpr fun k t ht hlt => ?_
  have h0 : s.dec.held.length + s.stats.trunc = ids.length + s.out.length := by
    simp [hheld, hout, htrunc]
  have hdef := held_add_trunc E o h0 ht (by omega)
  have hdraft := length_passDraft_le E o t
  simp only [Fits, passToks, Dec.nPast, List.length_cons]
  push_cast
  omega

end Room

/-! ## A run that only speculation aborts

The prompt and two tokens fill the cache exactly; the first draft has four. -/

/-- Two tokens to generate, nine KV positions. -/
def tightOpts : Opts ℤ := cycleOpts 2 9 0

theorem plain_tight : runOnce cycleEnv tightOpts false cyclePrompt ⟨[], 0⟩ = .ok [4, 1] := by
  rfl

theorem spec_tight_aborts :
    ¬ ((∃ out, runOnce cycleEnv tightOpts false cyclePrompt ⟨[], 0⟩ = .ok out) →
      ∃ out, runOnce cycleEnv tightOpts true cyclePrompt ⟨[], 0⟩ = .ok out) := by
  intro h
  obtain ⟨out, hon⟩ := h ⟨_, plain_tight⟩
  have hhead : firstHead cycleEnv tightOpts cyclePrompt ⟨[], 0⟩ = .ok cycleHead :=
    firstHead_cycle 2 9 0 (by decide)
  rw [runOnce, if_pos rfl, hhead] at hon
  change specLoop cycleEnv tightOpts cycleHead = _ at hon
  rw [specLoop_eq, if_neg (by decide), if_neg (by decide), if_neg (by decide +kernel)] at hon
  simp at hon

theorem spec_on_completes_iff_tight :
    (∃ out, runOnce cycleEnv tightOpts true cyclePrompt ⟨[], 0⟩ = .ok out) ↔
      ∀ s k t, firstHead cycleEnv tightOpts cyclePrompt ⟨[], 0⟩ = .ok s →
        headAt cycleEnv tightOpts s k = some t → (t.out.length : ℤ) + 1 < tightOpts.nGen →
        (t.dec.nPast : ℤ) + 1 + (passDraft cycleEnv tightOpts t).length ≤ tightOpts.maxKv :=
  spec_on_completes_iff cycleEnv tightOpts cyclePrompt ⟨[], 0⟩ ⟨_, plain_tight⟩

end FastLlm
