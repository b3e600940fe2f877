import FastLlm.Tools.DecodeLoop

/-!
# Prefill and the plain run

Both prefills leave the prompt at the KV positions and the same pending token,
and abort exactly on a prompt that does not fit.  The plain run needs room for
the prompt and for every token it emits, since it feeds the last one too.
-/

namespace FastLlm

theorem getD_map_range (g : ℕ → Token) {n p : ℕ} (hp : p < n) :
    ((List.range n).map g).getD p 0 = g p := by
  simp [List.getD, hp]

section Runs
variable {F : Type} (E : Env F) (o : Opts F)

/-- The run does not end in the decoder's KV-full abort. -/
def NoKvFull {α : Type} (r : Except Abort α) : Prop :=
  ∀ n m k, r ≠ .error (.kvFull n m k)

/-- Feeding one token aborts exactly when the cache is full. -/
theorem step_eq (d : Dec) (t : Token) :
    step E o.maxKv d t =
      if o.maxKv < (d.nPast : ℤ) + 1 then .error (.kvFull d.nPast 1 o.maxKv)
      else .ok (E.outs d.calls d.held [t] 0, ⟨d.held ++ [t], d.calls + 1⟩) := by
  by_cases h : o.maxKv < (d.nPast : ℤ) + 1
  · rw [if_pos h, step, Dec.stepBatch_kvFull E (by simp) (by simp) (by simpa using h)]
    rfl
  · rw [if_neg h, step, Dec.stepBatch_ok E (by simp) (by simp) (by simpa using h)]
    rfl

/-- The answer after a prefill: the last position's, or the pending token when
nothing was fed. -/
def answerAfter (f : List Token → Token) (held ids : List Token) (t : Token) : Token :=
  if ids = [] then t else f (held ++ ids)

/-- A prompt that fits is held after the plain prefill. -/
theorem prefillPlain_ok (ids : List Token) (d : Dec) (t : Token)
    (hkv : ids = [] ∨ (d.nPast : ℤ) + ids.length ≤ o.maxKv) :
    ∃ calls next, prefillPlain E o ids (d, t) = .ok (⟨d.held ++ ids, calls⟩, next) ∧
      ∀ f, E.OfPrefix f → next = answerAfter f d.held ids t := by
  induction ids generalizing d t with
  | nil => exact ⟨d.calls, t, by simp [prefillPlain, pure, Except.pure], fun f _ => rfl⟩
  | cons a ids ih =>
      have hfit : (d.nPast : ℤ) + (ids.length + 1) ≤ o.maxKv := by simpa using hkv
      have hroom : ¬ o.maxKv < (d.nPast : ℤ) + 1 := by omega
      obtain ⟨calls, next, hc, hnext⟩ :=
        ih ⟨d.held ++ [a], d.calls + 1⟩ (E.outs d.calls d.held [a] 0) (by
          right
          simp only [Dec.nPast, List.length_append, List.length_singleton] at hfit ⊢
          push_cast
          omega)
      refine ⟨calls, next, ?_, fun f hf => ?_⟩
      · simp only [prefillPlain, step_eq, if_neg hroom, bind, Except.bind, hc,
          List.append_assoc, List.singleton_append]
      · have hans : E.outs d.calls d.held [a] 0 = f (d.held ++ [a]) := by
          simpa using hf d.calls d.held [a] 0 (by simp)
        rw [hnext f hf, hans]
        by_cases hids : ids = [] <;> simp [answerAfter, hids]

/-- The plain prefill aborts on a prompt that does not fit. -/
theorem prefillPlain_kvFull (ids : List Token) (d : Dec) (t : Token)
    (h : NoKvFull (prefillPlain E o ids (d, t))) :
    ids = [] ∨ (d.nPast : ℤ) + ids.length ≤ o.maxKv := by
  induction ids generalizing d t with
  | nil => exact Or.inl rfl
  | cons a ids ih =>
      right
      by_cases hroom : o.maxKv < (d.nPast : ℤ) + 1
      · simp only [prefillPlain, step_eq, if_pos hroom, bind, Except.bind] at h
        exact absurd rfl (h _ _ _)
      · simp only [prefillPlain, step_eq, if_neg hroom, bind, Except.bind] at h
        have := ih _ _ h
        simp only [Dec.nPast, List.length_append, List.length_cons] at this ⊢
        push_cast at this ⊢
        rcases this with rfl | this
        · simp only [Dec.nPast] at hroom
          simp
          omega
        · omega

/-- A prompt that fits is held after the batched prefill too. -/
theorem prefillBatch_ok (ids : List Token) (d : Dec) (t : Token)
    (hkv : ids = [] ∨ (d.nPast : ℤ) + ids.length ≤ o.maxKv) :
    ∃ calls next, prefillBatch E o ids (d, t) = .ok (⟨d.held ++ ids, calls⟩, next) ∧
      ∀ f, E.OfPrefix f → next = answerAfter f d.held ids t := by
  generalize hn : ids.length = n
  induction n using Nat.strong_induction_on generalizing ids d t with
  | _ n ih =>
    rw [prefillBatch]
    by_cases hids : ids = []
    · exact ⟨d.calls, t, by simp [hids, pure, Except.pure], fun f _ => by simp [answerAfter, hids]⟩
    have hpos : 0 < ids.length := List.length_pos_iff.mpr hids
    have hfit : (d.nPast : ℤ) + ids.length ≤ o.maxKv := hkv.resolve_left hids
    have hmax : 0 < o.maxBatch := Nat.succ_pos _
    set chunk := ids.take o.maxBatch with hchunk
    have hclen : chunk.length = min o.maxBatch ids.length := by simp [hchunk]
    have hstep : d.stepBatch E o.maxBatch o.maxKv chunk = .ok
        ((List.range chunk.length).map (E.outs d.calls d.held chunk),
          ⟨d.held ++ chunk, d.calls + 1⟩) :=
      Dec.stepBatch_ok E (by omega) (by omega) (by omega)
    set last := ((List.range chunk.length).map (E.outs d.calls d.held chunk)).getD
      (chunk.length - 1) 0 with hlast
    obtain ⟨calls, next, hc, hnext⟩ :=
      ih (ids.drop o.maxBatch).length (by simp only [List.length_drop]; omega)
        (ids.drop o.maxBatch) ⟨d.held ++ chunk, d.calls + 1⟩ last (by
          right
          simp only [Dec.nPast, List.length_append, List.length_drop] at hfit ⊢
          omega) rfl
    have hjoin : chunk ++ ids.drop o.maxBatch = ids := List.take_append_drop _ _
    refine ⟨calls, next, ?_, fun f hf => ?_⟩
    · rw [if_neg hids]
      simp only [hstep, bind, Except.bind, ← hlast, hc, List.append_assoc, hjoin]
    · have hp : chunk.length - 1 < chunk.length := by omega
      have hans := hf d.calls d.held chunk (chunk.length - 1) hp
      rw [Nat.sub_add_cancel (by omega), List.take_length] at hans
      have hlastf : last = f (d.held ++ chunk) := by rw [hlast, getD_map_range _ hp, hans]
      rw [hnext f hf, hlastf]
      by_cases hrest : ids.drop o.maxBatch = []
      · have hall : chunk = ids := by simpa [hrest] using hjoin
        simp [answerAfter, hrest, hall, hids]
      · simp [answerAfter, hrest, hids, hjoin, List.append_assoc]

/-- The plain loop aborts when it would feed more tokens than fit. -/
theorem plainLoop_kvFull (n : ℕ) (d : Dec) (t : Token) (out : List Token)
    (h : NoKvFull (plainLoop E o n d t out)) : n = 0 ∨ (d.nPast : ℤ) + n ≤ o.maxKv := by
  induction n generalizing d t out with
  | zero => exact Or.inl rfl
  | succ n ih =>
      right
      by_cases hroom : o.maxKv < (d.nPast : ℤ) + 1
      · simp only [plainLoop, step_eq, if_pos hroom, bind, Except.bind] at h
        exact absurd rfl (h _ _ _)
      · simp only [plainLoop, step_eq, if_neg hroom, bind, Except.bind] at h
        have := ih _ _ _ h
        simp only [Dec.nPast, List.length_append, List.length_singleton] at this hroom ⊢
        push_cast at this ⊢
        omega

/-- Whatever the batched prefill answers, it holds the prompt. -/
theorem held_of_prefillBatch (ids : List Token) (d d' : Dec) (t t' : Token)
    (h : prefillBatch E o ids (d, t) = .ok (d', t')) : d'.held = d.held ++ ids := by
  generalize hn : ids.length = n
  induction n using Nat.strong_induction_on generalizing ids d t with
  | _ n ih =>
    rw [prefillBatch] at h
    by_cases hids : ids = []
    · simp only [if_pos hids, pure, Except.pure, Except.ok.injEq, Prod.mk.injEq] at h
      simp [← h.1, hids]
    rw [if_neg hids] at h
    have hpos : 0 < ids.length := List.length_pos_iff.mpr hids
    have hmax : 0 < o.maxBatch := Nat.succ_pos _
    have hone : 1 ≤ (ids.take o.maxBatch).length := by simp only [List.length_take]; omega
    have hle : (ids.take o.maxBatch).length ≤ o.maxBatch := List.length_take_le _ _
    by_cases hfull : o.maxKv < (d.nPast : ℤ) + (ids.take o.maxBatch).length
    · simp only [Dec.stepBatch_kvFull E hone hle hfull, bind, Except.bind] at h
      simp at h
    · simp only [Dec.stepBatch_ok E hone hle (not_lt.mp hfull), bind, Except.bind] at h
      have := ih (ids.drop o.maxBatch).length (by simp only [List.length_drop]; omega) _ _ _ h rfl
      rw [this, List.append_assoc, List.take_append_drop]

/-- The first head, whenever there is one: the prompt is held and indexed, and
nothing is emitted. -/
theorem firstHead_fields {ids : List Token} {d : Dec} {s : LoopState}
    (h : firstHead E o ids d = .ok s) :
    s.dec.held = ids ∧ s.idx.toks = ids ∧ s.out = [] ∧ s.stats.trunc = 0 := by
  simp only [firstHead, bind, Except.bind] at h
  split at h
  · simp at h
  · rename_i v hv
    have hheld := held_of_prefillBatch E o ids d.reset v.1 0 v.2 hv
    simp only [pure, Except.pure, Except.ok.injEq] at h
    subst h
    simpa [Dec.reset] using hheld

/-- The first head of a prompt that fits. -/
theorem firstHead_ok (ids : List Token) (d : Dec) (hkv : ids = [] ∨ (ids.length : ℤ) ≤ o.maxKv) :
    ∃ s, firstHead E o ids d = .ok s ∧
      ∀ f, E.OfPrefix f → s.nextTok = answerAfter f [] ids 0 := by
  obtain ⟨calls, next, hc, hnext⟩ := prefillBatch_ok E o ids d.reset 0 (by
    simpa [Dec.reset, Dec.nPast] using hkv)
  simp only [Dec.reset] at hc hnext
  simp only [firstHead, Dec.reset, hc, bind, Except.bind, pure, Except.pure]
  exact ⟨_, rfl, hnext⟩

variable [LT F] [LE F] [Zero F] [DecidableLT F] [DecidableLE F]

/-- What the plain run needs of the cache: room for the prompt, and for every
emitted token. -/
theorem room_of_plain (ids : List Token) (d : Dec) (h : NoKvFull (runOnce E o false ids d)) :
    (ids = [] ∨ (ids.length : ℤ) ≤ o.maxKv) ∧
      (o.nGen ≤ 0 ∨ (ids.length : ℤ) + o.nGen ≤ o.maxKv) := by
  simp only [runOnce, Bool.false_eq_true, if_false] at h
  have hpre : ids = [] ∨ ((d.reset.nPast : ℕ) : ℤ) + ids.length ≤ o.maxKv := by
    refine prefillPlain_kvFull E o ids d.reset 0 fun n m k hk => h n m k ?_
    rw [hk]
    rfl
  obtain ⟨calls, next, hc, -⟩ := prefillPlain_ok E o ids d.reset 0 hpre
  rw [hc] at h
  have hloop := plainLoop_kvFull E o _ _ _ _ h
  simp only [Dec.reset, Dec.nPast, List.nil_append, List.length_nil] at hpre hloop
  refine ⟨by simpa using hpre, ?_⟩
  omega

end Runs
end FastLlm
