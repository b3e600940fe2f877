import FastLlm.Tools.KvRoom

/-!
# Losslessness of the speculative loop

For a decoder that answers from the logical prefix, both loops emit the greedy
continuation of the prompt.  The plain loop does so by definition; a speculative
pass extends the greedy continuation by the pending token and the accepted
drafts, since a draft is accepted only where it agrees with the answer at its own
position.

## Main definitions

* `greedy f pre t n` — the first `n` tokens of the continuation of `pre` that
  starts with `t` and follows the answers of `f`.
* `spec_on_eq_spec_off` — the two runs emit the same list.
-/

namespace FastLlm

/-- The greedy continuation of `pre` from the pending token `t`. -/
def greedy (f : List Token → Token) : List Token → Token → ℕ → List Token
  | _, _, 0 => []
  | pre, t, n + 1 => t :: greedy f (pre ++ [t]) (f (pre ++ [t])) n

@[simp] theorem greedy_zero (f : List Token → Token) (pre : List Token) (t : Token) :
    greedy f pre t 0 = [] := rfl

@[simp] theorem greedy_succ (f : List Token → Token) (pre : List Token) (t : Token) (n : ℕ) :
    greedy f pre t (n + 1) = t :: greedy f (pre ++ [t]) (f (pre ++ [t])) n := rfl

/-- Every draft agrees with the answer at the position before it. -/
def Agrees (f : List Token → Token) : List Token → List Token → Prop
  | _, [] => True
  | pre, d :: ds => d = f pre ∧ Agrees f (pre ++ [d]) ds

theorem Agrees.take {f : List Token → Token} {pre ds : List Token} (h : Agrees f pre ds) (k : ℕ) :
    Agrees f pre (ds.take k) := by
  induction ds generalizing pre k with
  | nil => simpa using h
  | cons d ds ih =>
      cases k with
      | zero => simp [Agrees]
      | succ k => exact ⟨h.1, ih h.2 k⟩

/-- A pass's tokens are a prefix of the greedy continuation, which goes on from
the answer after the last of them. -/
theorem greedy_append_agrees (f : List Token → Token) (pre ds : List Token) (t : Token) (n : ℕ)
    (h : Agrees f (pre ++ [t]) ds) :
    greedy f pre t (ds.length + 1 + n) =
      (t :: ds) ++ greedy f (pre ++ t :: ds) (f (pre ++ t :: ds)) n := by
  induction ds generalizing pre t with
  | nil => simp [Nat.add_comm 1 n]
  | cons d ds ih =>
      have hd : f (pre ++ [t]) = d := h.1.symm
      have hn : (d :: ds).length + 1 + n = (ds.length + 1 + n) + 1 := by
        simp only [List.length_cons]
        omega
      rw [hn, greedy_succ, hd, ih (pre ++ [t]) d h.2]
      simp

/-- The accepted drafts agree with answers taken from the logical prefix. -/
theorem agrees_take_acceptedLen (f : List Token → Token) (pre : List Token) :
    ∀ ds os : List Token,
      (∀ p, p < os.length → os.getD p 0 = f (pre ++ ds.take p)) →
      Agrees f pre (ds.take (acceptedLen ds os))
  | [], os, _ => by simp [Agrees]
  | d :: ds, [], _ => by simp [acceptedLen, Agrees]
  | d :: ds, o :: os, h => by
      by_cases heq : o = d
      · have ho : o = f pre := by simpa using h 0 (by simp)
        have ih := agrees_take_acceptedLen f (pre ++ [d]) ds os (by
          intro p hp
          simpa using h (p + 1) (by simpa using hp))
        simp only [acceptedLen, if_pos heq, List.take_succ_cons]
        exact ⟨heq ▸ ho, ih⟩
      · simp [acceptedLen, heq, Agrees]

section Runs
variable {F : Type} (E : Env F) (o : Opts F)

/-- The plain loop succeeds exactly when every token fits. -/
theorem plainLoop_ok {f : List Token → Token} (hf : E.OfPrefix f) (n : ℕ) (d : Dec) (t : Token)
    (out : List Token) (hkv : n = 0 ∨ (d.nPast : ℤ) + n ≤ o.maxKv) :
    plainLoop E o n d t out = .ok (out ++ greedy f d.held t n) := by
  induction n generalizing d t out with
  | zero => simp [plainLoop, pure, Except.pure]
  | succ n ih =>
      have hfit : (d.nPast : ℤ) + (n + 1) ≤ o.maxKv := by simpa using hkv
      have hroom : ¬ o.maxKv < (d.nPast : ℤ) + 1 := by omega
      have hans : E.outs d.calls d.held [t] 0 = f (d.held ++ [t]) := by
        simpa using hf d.calls d.held [t] 0 (by simp)
      simp only [plainLoop, step_eq, if_neg hroom, bind, Except.bind]
      rw [ih]
      · simp [hans]
      · right
        simp only [Dec.nPast, List.length_append, List.length_singleton] at hfit ⊢
        push_cast
        omega

/-! ## The speculative loop emits the greedy continuation -/

variable [LT F] [LE F] [Zero F] [DecidableLT F] [DecidableLE F]

theorem passGate_of_off (htau : ¬ 0 < o.approxTau) (s : LoopState) :
    passGate E o s = (acceptedLen (passDraft E o s) (passOuts E o s), false) := by
  simp [passGate, marginGate, htau]

omit [LT F] [LE F] [Zero F] [DecidableLT F] [DecidableLE F] in
/-- The answer at each position of a pass, from the logical prefix. -/
theorem passOuts_getD {f : List Token → Token} (hf : E.OfPrefix f) (s : LoopState) (p : ℕ)
    (hp : p < (passOuts E o s).length) :
    (passOuts E o s).getD p 0 =
      f (s.dec.held ++ [s.nextTok] ++ (passDraft E o s).take p) := by
  have hp' : p < (passToks E o s).length := by simpa [passOuts] using hp
  rw [passOuts, getD_map_range _ hp', hf s.dec.calls s.dec.held (passToks E o s) p hp']
  simp [passToks, List.append_assoc]

/-- With the gate off, the speculative loop completes the greedy continuation
unless a pass does not fit in the cache. -/
theorem specLoop_greedy {f : List Token → Token} (hf : E.OfPrefix f)
    (htau : ¬ 0 < o.approxTau) (s : LoopState) (hroom : NoKvFull (specLoop E o s)) :
    specLoop E o s =
      .ok (s.out ++ greedy f s.dec.held s.nextTok (o.nGen - s.out.length).toNat) := by
  induction s using specLoop_induction E o with
  | h s ih =>
    rw [specLoop_eq] at hroom ⊢
    by_cases hdone : o.nGen ≤ (s.out.length : ℤ)
    · have : (o.nGen - s.out.length).toNat = 0 := by omega
      simp [hdone, this]
    by_cases hlast : o.nGen ≤ (s.out.length : ℤ) + 1
    · have : (o.nGen - s.out.length).toNat = 1 := by omega
      simp [hdone, hlast, this]
    by_cases hfit : Fits E o s
    swap
    · simp only [if_neg hdone, if_neg hlast, if_neg hfit] at hroom
      exact absurd rfl (hroom _ _ _)
    simp only [if_neg hdone, if_neg hlast, if_pos hfit] at hroom ⊢
    set a := acceptedLen (passDraft E o s) (passOuts E o s) with ha
    have hgate := passGate_of_off E o htau s
    have haLe : a ≤ (passDraft E o s).length := acceptedLen_le _ _
    have hagree : Agrees f (s.dec.held ++ [s.nextTok]) ((passDraft E o s).take a) :=
      agrees_take_acceptedLen f _ _ _ (fun p hp => passOuts_getD E o hf s p hp)
    obtain ⟨r, hr⟩ : ∃ r : ℕ, (o.nGen - s.out.length).toNat = r + 1 :=
      ⟨(o.nGen - s.out.length).toNat - 1, by omega⟩
    have hrem : (o.nGen - (s.out.length + 1)).toNat = r := by omega
    have hemit : emitted E o s = (passDraft E o s).take (min a r) := by
      simp only [emitted, hgate, hrem, ← ha]
    have hout : (nextHead E o s).out = s.out ++ s.nextTok :: (passDraft E o s).take (min a r) := by
      simp [nextHead, hemit]
    rw [hr]
    by_cases hcut : a ≤ r
    · -- every accepted draft is emitted, and the next head continues after them
      rw [Nat.min_eq_left hcut] at hout
      have hnext : (nextHead E o s).nextTok =
          f (s.dec.held ++ s.nextTok :: (passDraft E o s).take a) := by
        have h1 : a < (passOuts E o s).length := by simp [passOuts, passToks]; omega
        have h2 := passOuts_getD E o hf s a h1
        simpa [nextHead, hgate, ← ha, List.append_assoc] using h2
      have hheld : (nextHead E o s).dec.held =
          s.dec.held ++ s.nextTok :: (passDraft E o s).take a := by
        simp [nextHead, hgate, passToks, ← ha]
      have hlen : ((passDraft E o s).take a).length = a := List.length_take_of_le haLe
      have hrest : (o.nGen - (nextHead E o s).out.length).toNat = r - a := by
        rw [hout]
        simp only [List.length_append, List.length_cons, hlen]
        omega
      have hsplit := greedy_append_agrees f s.dec.held _ s.nextTok (r - a) hagree
      rw [hlen, show a + 1 + (r - a) = r + 1 by omega] at hsplit
      rw [ih (by omega) hroom, hrest, hout, hnext, hheld, hsplit]
      simp
    · -- the output completes in the middle of the accepted drafts
      rw [Nat.min_eq_right (by omega)] at hout
      have hagree' : Agrees f (s.dec.held ++ [s.nextTok]) ((passDraft E o s).take r) := by
        have := hagree.take r
        rwa [List.take_take, Nat.min_eq_left (by omega)] at this
      have hlen : ((passDraft E o s).take r).length = r := List.length_take_of_le (by omega)
      have hsplit := greedy_append_agrees f s.dec.held _ s.nextTok 0 hagree'
      rw [hlen, Nat.add_zero] at hsplit
      have hfull : o.nGen ≤ ((nextHead E o s).out.length : ℤ) := by
        rw [hout]
        simp only [List.length_append, List.length_cons, hlen]
        omega
      rw [specLoop_eq, if_pos hfull, hout, hsplit]
      simp

/-! ## The two runs -/

/-- **Losslessness.**  For a decoder that answers from the logical prefix, with
the margin gate off and no KV-full abort, the speculative run completes and emits
exactly the list the plain run emits. -/
theorem spec_on_eq_spec_off (f : List Token → Token) (hf : E.OfPrefix f)
    (htau : ¬ 0 < o.approxTau) (ids : List Token) (d : Dec)
    (hoff : NoKvFull (runOnce E o false ids d)) (hon : NoKvFull (runOnce E o true ids d)) :
    ∃ out, runOnce E o true ids d = .ok out ∧ runOnce E o false ids d = .ok out := by
  obtain ⟨hpre, hgen⟩ := room_of_plain E o ids d hoff
  obtain ⟨calls, next, hplain, hnext⟩ := prefillPlain_ok E o ids d.reset 0 (by
    simpa [Dec.reset, Dec.nPast] using hpre)
  obtain ⟨s, hs, hsnext⟩ := firstHead_ok E o ids d hpre
  obtain ⟨hheld, -, hout, -⟩ := firstHead_fields E o hs
  refine ⟨greedy f ids next o.nGen.toNat, ?_, ?_⟩
  · simp only [runOnce, if_true, hs, bind, Except.bind] at hon ⊢
    have hstart : s.nextTok = next := by
      rw [hsnext f hf, hnext f hf]
      rfl
    rw [specLoop_greedy E o hf htau s hon, hheld, hout, hstart]
    simp
  · simp only [Dec.reset, List.nil_append] at hplain
    simp only [runOnce, Bool.false_eq_true, if_false, Dec.reset, hplain, bind, Except.bind]
    rw [plainLoop_ok E o hf]
    · rfl
    · simp only [Dec.nPast]
      omega

end Runs

theorem spec_on_eq_spec_off_cycle :
    ∃ out, runOnce cycleEnv (cycleOpts 8 64 0) true cyclePrompt ⟨[], 0⟩ = .ok out ∧
      runOnce cycleEnv (cycleOpts 8 64 0) false cyclePrompt ⟨[], 0⟩ = .ok out :=
  spec_on_eq_spec_off cycleEnv (cycleOpts 8 64 0) cycle (fun _ _ _ _ _ => rfl) (by decide)
    cyclePrompt ⟨[], 0⟩ (noKvFull_of_ok ⟨[4, 1, 2, 3, 4, 1, 2, 3], rfl⟩)
    (noKvFull_of_ok (spec_on_completes_of_room cycleEnv (cycleOpts 8 64 0) cyclePrompt ⟨[], 0⟩
      (by decide) (by decide)))

end FastLlm
