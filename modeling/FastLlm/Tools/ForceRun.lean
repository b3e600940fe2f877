import FastLlm.Tools.SpecHeads

/-!
# The teacher-forced calibration run

With a file of forced tokens the driver does not decode: it feeds the pending
token and the forced list in windows of a pass width, dumps a row per position and
carries the last token of a window over as the head of the next one.  The carried
token is already held, and the rewind between two windows goes to the end of the
sequence, so every window after the first one feeds a token a second time.

## Main definitions

* `forcePass`, `forceLoop`, `forceRun` — one window, the loop, and the run.
* `windows` — the tokens the loop feeds, as a function of the forced list.
* `Calibrates` — what the calibration needs of a finished run.
* `forceRun_calibrates_iff` — it holds exactly when one window takes the list.
-/

namespace FastLlm

/-- A line of the calibration dump. -/
structure CalRow (F : Type) where
  pos : ℕ
  inter : Bool
  argmax : Token
  margin : F
  deriving DecidableEq

/-- The variables of the loop: the next forced index, the head of the next window,
the rows dumped and the tokens recorded. -/
structure ForceState (F : Type) where
  dec : Dec
  fi : ℕ
  cur : Token
  rows : List (CalRow F)
  out : List Token
  deriving DecidableEq

namespace Opts

/-- The pass width of the calibration run. -/
def passWidth {F : Type} (o : Opts F) : ℕ :=
  if 0 ≤ o.specFixed then (o.specFixed + 1).toNat else o.draftMax + 1

/-- The largest batch the decoder was created with. -/
def batchOf {F : Type} (o : Opts F) (spec : Bool) : ℕ := if spec then o.maxBatch else 1

end Opts

section Force
variable {F : Type} (E : Env F) (maxBatch : ℕ) (maxKv : ℤ) (mw : ℕ) (forced : List Token)

/-- The batch of the next window. -/
def windowToks (s : ForceState F) : List Token :=
  let m := min mw (forced.length - s.fi + 1)
  s.cur :: (forced.drop s.fi).take (m - 1)

/-- The rows a window dumps, from its position and answers. -/
def windowRows (d : Dec) (toks outs : List Token) : List (CalRow F) :=
  (List.range toks.length).map fun p =>
    ⟨d.nPast + p, decide (p + 1 < toks.length), outs.getD p 0, E.margins d.calls d.held toks p⟩

/-- One turn of the loop; the flag says whether the loop goes on. -/
def forcePass (s : ForceState F) : Except Abort (ForceState F × Bool) := do
  let toks := windowToks mw forced s
  let m := toks.length
  let base := s.dec.nPast
  let r ← s.dec.stepBatch E maxBatch maxKv toks
  let rows := s.rows ++ windowRows E s.dec toks r.1
  let adv := m - 1
  if adv = 0 then pure ({ s with dec := r.2, rows := rows }, false)
  else do
    let cur := forced.getD (s.fi + adv - 1) 0
    let d ← r.2.rewindTo ((base : ℤ) + m)
    pure (⟨d, s.fi + adv, cur, rows, s.out ++ [cur]⟩, true)

/-! ## What a window does -/

/-- A batch that did not abort is held after the call. -/
theorem Dec.ok_of_stepBatch {maxBatch : ℕ} {maxKv : ℤ} {d : Dec} {toks : List Token}
    {r : List Token × Dec} (h : d.stepBatch E maxBatch maxKv toks = .ok r) :
    r = ((List.range toks.length).map (E.outs d.calls d.held toks),
      ⟨d.held ++ toks, d.calls + 1⟩) := by
  rw [Dec.stepBatch] at h
  split at h
  · cases h
  · split at h
    · cases h
    · exact (Except.ok.inj h).symm

/-- The state after a window that did not abort. -/
def forceNext (s : ForceState F) : ForceState F where
  dec := ⟨s.dec.held ++ windowToks mw forced s, s.dec.calls + 1⟩
  fi := s.fi + ((windowToks mw forced s).length - 1)
  cur :=
    if (windowToks mw forced s).length - 1 = 0 then s.cur
    else forced.getD (s.fi + ((windowToks mw forced s).length - 1) - 1) 0
  rows := s.rows ++ windowRows E s.dec (windowToks mw forced s)
    ((List.range (windowToks mw forced s).length).map
      (E.outs s.dec.calls s.dec.held (windowToks mw forced s)))
  out :=
    if (windowToks mw forced s).length - 1 = 0 then s.out
    else s.out ++ [forced.getD (s.fi + ((windowToks mw forced s).length - 1) - 1) 0]

theorem length_windowToks (s : ForceState F) :
    (windowToks mw forced s).length = min (mw - 1) (forced.length - s.fi) + 1 := by
  simp only [windowToks, List.length_cons, List.length_take, List.length_drop]
  omega

/-- The rewind of a window drops nothing: its target is the end of the batch. -/
theorem rewind_window (held toks : List Token) (calls : ℕ) :
    Dec.rewindTo ⟨held ++ toks, calls⟩ ((held.length : ℤ) + toks.length) =
      .ok ⟨held ++ toks, calls⟩ := by
  rw [Dec.rewindTo_append held toks calls toks.length le_rfl, List.take_length]

/-- **One window.**  When it does not abort it leads to `forceNext`, and the loop
goes on exactly when it fed a forced token. -/
theorem forcePass_ok {s : ForceState F} {r : ForceState F × Bool}
    (h : forcePass E maxBatch maxKv mw forced s = .ok r) :
    r = (forceNext E mw forced s, decide ((windowToks mw forced s).length - 1 ≠ 0)) := by
  cases hstep : s.dec.stepBatch E maxBatch maxKv (windowToks mw forced s) with
  | error e =>
      simp only [forcePass, hstep, bind, Except.bind] at h
      cases h
  | ok v =>
  obtain rfl := Dec.ok_of_stepBatch E hstep
  simp only [forcePass, hstep, bind, Except.bind] at h
  by_cases hadv : (windowToks mw forced s).length - 1 = 0
  · simp only [if_pos hadv, pure, Except.pure, Except.ok.injEq] at h
    rw [← h]
    simp [forceNext, hadv]
  · simp only [if_neg hadv, Dec.nPast, rewind_window, pure, Except.pure, Except.ok.injEq] at h
    rw [← h]
    simp [forceNext, hadv]

/-! ## The loop and the run -/

/-- The loop over the forced list. -/
def forceLoop (s : ForceState F) : Except Abort (ForceState F) :=
  if s.fi < forced.length then
    match _h : forcePass E maxBatch maxKv mw forced s with
    | .error e => .error e
    | .ok (s', true) => forceLoop s'
    | .ok (s', false) => .ok s'
  else .ok s
  termination_by forced.length - s.fi
  decreasing_by
    have hnext := forcePass_ok E maxBatch maxKv mw forced _h
    simp only [Prod.mk.injEq, eq_comm (a := true), decide_eq_true_eq] at hnext
    rw [hnext.1]
    simp only [forceNext]
    omega

/-- The prefill of a run, with speculation on or off. -/
def prefill (o : Opts F) (spec : Bool) (ids : List Token) (d : Dec) : Except Abort (Dec × Token) :=
  if spec then prefillBatch E o ids (d.reset, 0) else prefillPlain E o ids (d.reset, 0)

/-- The calibration run on the prompt `ids`, from whatever the decoder holds. -/
def forceRun (o : Opts F) (spec : Bool) (ids forced : List Token) (d : Dec) :
    Except Abort (ForceState F) := do
  let r ← prefill E o spec ids d
  forceLoop E (o.batchOf spec) o.maxKv o.passWidth forced ⟨r.1, 0, r.2, [], []⟩

/-- The tokens the loop feeds when `rest` is still to be forced and `cur` is the
head of the next window. -/
def windows (cur : Token) (rest : List Token) : List Token :=
  if rest = [] then []
  else if mw ≤ 1 then [cur]
  else
    cur :: rest.take (mw - 1) ++
      windows ((rest.take (mw - 1)).getLastD cur) (rest.drop (mw - 1))
  termination_by rest.length
  decreasing_by
    have : 0 < rest.length := List.length_pos_iff.mpr ‹_›
    simp only [List.length_drop]
    omega

/-! ## What the loop feeds -/

theorem windows_nil (cur : Token) : windows mw cur [] = [] := by
  rw [windows, if_pos rfl]

theorem windows_narrow (hmw : mw ≤ 1) (cur : Token) {rest : List Token} (hrest : rest ≠ []) :
    windows mw cur rest = [cur] := by
  rw [windows, if_neg hrest, if_pos hmw]

theorem windows_wide (hmw : ¬ mw ≤ 1) (cur : Token) {rest : List Token} (hrest : rest ≠ []) :
    windows mw cur rest = cur :: rest.take (mw - 1) ++
      windows mw ((rest.take (mw - 1)).getLastD cur) (rest.drop (mw - 1)) := by
  rw [windows, if_neg hrest, if_neg hmw]

/-- Windows of two or more feed every forced token and at least one head. -/
theorem length_lt_windows (hmw : ¬ mw ≤ 1) (cur : Token) {rest : List Token} (hrest : rest ≠ []) :
    rest.length < (windows mw cur rest).length := by
  generalize hn : rest.length = n
  induction n using Nat.strong_induction_on generalizing cur rest with
  | _ n ih =>
    have hpos : 0 < rest.length := List.length_pos_iff.mpr hrest
    have hlen : (windows mw cur rest).length = 1 + min (mw - 1) rest.length +
        (windows mw ((rest.take (mw - 1)).getLastD cur) (rest.drop (mw - 1))).length := by
      rw [windows_wide mw hmw cur hrest]
      simp
      omega
    by_cases htail : rest.drop (mw - 1) = []
    · have hall : rest.length ≤ mw - 1 := List.drop_eq_nil_iff.mp htail
      omega
    · have hrec := ih (rest.drop (mw - 1)).length (by simp only [List.length_drop]; omega)
        ((rest.take (mw - 1)).getLastD cur) htail rfl
      simp only [List.length_drop] at hrec
      omega

/-- **The list goes through unrepeated exactly in one window.** -/
theorem windows_eq_iff (cur : Token) (rest : List Token) :
    windows mw cur rest = cur :: rest ↔ rest ≠ [] ∧ rest.length < mw := by
  by_cases hrest : rest = []
  · simp [hrest, windows_nil]
  by_cases hmw : mw ≤ 1
  · have hpos : 0 < rest.length := List.length_pos_iff.mpr hrest
    simp only [windows_narrow mw hmw cur hrest, List.cons.injEq, true_and, ne_eq, hrest,
      not_false_eq_true, eq_comm (a := []), false_iff]
    omega
  rw [windows_wide mw hmw cur hrest]
  by_cases hfit : rest.length < mw
  · simp [List.take_of_length_le (show rest.length ≤ mw - 1 by omega),
      List.drop_of_length_le (show rest.length ≤ mw - 1 by omega), windows_nil, hrest, hfit]
  · -- a second window feeds its own head besides what is left
    have htail : rest.drop (mw - 1) ≠ [] := by
      rw [ne_eq, List.drop_eq_nil_iff]
      omega
    have hmore := length_lt_windows mw hmw ((rest.take (mw - 1)).getLastD cur) htail
    simp only [hfit, and_false, iff_false]
    intro heq
    have hlen := congrArg List.length heq
    simp only [List.length_append, List.length_cons, List.length_take, List.length_drop]
      at hlen hmore
    omega

theorem windowToks_eq (s : ForceState F) :
    windowToks mw forced s = s.cur :: (forced.drop s.fi).take (mw - 1) := by
  simp only [windowToks, List.cons.injEq, true_and]
  rw [List.take_eq_take_iff, List.length_drop]
  omega

/-- What is left of the list after a window. -/
theorem drop_forceNext (s : ForceState F) :
    forced.drop (forceNext E mw forced s).fi = (forced.drop s.fi).drop (mw - 1) := by
  have hfi : (forceNext E mw forced s).fi = s.fi + min (mw - 1) (forced.length - s.fi) := by
    simp only [forceNext, length_windowToks]
    omega
  rw [hfi, List.drop_drop]
  by_cases hle : mw - 1 ≤ forced.length - s.fi
  · rw [Nat.min_eq_left hle]
  · rw [List.drop_of_length_le (by omega), List.drop_of_length_le (by omega)]

/-- The head carried over is the last token of the window. -/
theorem cur_forceNext (s : ForceState F) :
    (forceNext E mw forced s).cur = ((forced.drop s.fi).take (mw - 1)).getLastD s.cur := by
  have hlen : ((forced.drop s.fi).take (mw - 1)).length = (windowToks mw forced s).length - 1 := by
    rw [windowToks_eq, List.length_cons, Nat.add_sub_cancel]
  simp only [forceNext]
  rw [← hlen]
  by_cases hnil : (forced.drop s.fi).take (mw - 1) = []
  · simp [hnil]
  · have hpos : 0 < ((forced.drop s.fi).take (mw - 1)).length := List.length_pos_iff.mpr hnil
    rw [if_neg (by omega), List.getLastD_eq_getLast?, List.getLast?_eq_getElem?,
      List.getElem?_take_of_lt (by simp only [List.length_take] at hpos ⊢; omega),
      List.getElem?_drop, ← Nat.add_sub_assoc hpos]
    have hin : s.fi + ((forced.drop s.fi).take (mw - 1)).length - 1 < forced.length := by
      simp only [List.length_take, List.length_drop] at hpos ⊢
      omega
    rw [List.getD, List.getElem?_eq_getElem hin, Option.getD_some, Option.getD_some]

/-- **The loop feeds its windows.** -/
theorem forceLoop_held {s s' : ForceState F}
    (h : forceLoop E maxBatch maxKv mw forced s = .ok s') :
    s'.dec.held = s.dec.held ++ windows mw s.cur (forced.drop s.fi) := by
  fun_induction forceLoop E maxBatch maxKv mw forced s with
  | case1 s hlt e herr => cases h
  | case2 s hlt t hpass ih =>
      have hnext := forcePass_ok E maxBatch maxKv mw forced hpass
      simp only [Prod.mk.injEq, eq_comm (a := true), decide_eq_true_eq] at hnext
      have hrest : forced.drop s.fi ≠ [] := by simpa using hlt
      have hmw : ¬ mw ≤ 1 := by
        have := hnext.2
        rw [length_windowToks] at this
        omega
      rw [ih h, hnext.1, drop_forceNext, cur_forceNext, windows_wide mw hmw s.cur hrest]
      simp [forceNext, windowToks_eq]
  | case3 s hlt t hpass =>
      have hnext := forcePass_ok E maxBatch maxKv mw forced hpass
      simp only [Prod.mk.injEq, eq_comm (a := false), decide_eq_false_iff_not, not_not] at hnext
      have hrest : forced.drop s.fi ≠ [] := by simpa using hlt
      have hmw : mw ≤ 1 := by
        have := hnext.2
        rw [length_windowToks] at this
        omega
      obtain rfl := Except.ok.inj h
      rw [hnext.1, windows_narrow mw hmw s.cur hrest]
      simp [forceNext, windowToks_eq, Nat.sub_eq_zero_of_le hmw]
  | case4 s hdone =>
      obtain rfl := Except.ok.inj h
      rw [List.drop_of_length_le (by omega), windows_nil, List.append_nil]

/-! ## What the rows refer to -/

/-- A row reports the answer and the margin of one position of `seq`: the position
it names is the one where the token was fed, after the prefix held before. -/
def CalRow.RefersTo (row : CalRow F) (seq : List Token) : Prop :=
  ∃ call held fed p, p < fed.length ∧ held ++ fed <+: seq ∧ row.pos = held.length + p ∧
    row.argmax = E.outs call held fed p ∧ row.margin = E.margins call held fed p

theorem CalRow.RefersTo.mono {row : CalRow F} {seq seq' : List Token}
    (h : row.RefersTo E seq) (hle : seq <+: seq') : row.RefersTo E seq' := by
  obtain ⟨call, held, fed, p, hp, hpre, hrow⟩ := h
  exact ⟨call, held, fed, p, hp, hpre.trans hle, hrow⟩

/-- The rows of a window refer to what is held after it. -/
theorem windowRows_refer (d : Dec) (toks : List Token) {row : CalRow F}
    (hrow : row ∈ windowRows E d toks
      ((List.range toks.length).map (E.outs d.calls d.held toks))) :
    row.RefersTo E (d.held ++ toks) := by
  simp only [windowRows, List.mem_map, List.mem_range] at hrow
  obtain ⟨p, hp, rfl⟩ := hrow
  exact ⟨d.calls, d.held, toks, p, hp, List.prefix_refl _, rfl, getD_map_range _ hp, rfl⟩

/-- The rows dumped so far refer to what is held. -/
def RowsRefer (s : ForceState F) : Prop := ∀ row ∈ s.rows, row.RefersTo E s.dec.held

theorem RowsRefer.next {s : ForceState F} (h : RowsRefer E s) :
    RowsRefer E (forceNext E mw forced s) := by
  intro row hrow
  rcases List.mem_append.mp hrow with hold | hnew
  · exact (h row hold).mono E (List.prefix_append _ _)
  · exact windowRows_refer E s.dec _ hnew

theorem RowsRefer.loop {s s' : ForceState F} (hs : RowsRefer E s)
    (h : forceLoop E maxBatch maxKv mw forced s = .ok s') : RowsRefer E s' := by
  fun_induction forceLoop E maxBatch maxKv mw forced s with
  | case1 s hlt e herr => cases h
  | case2 s hlt t hpass ih =>
      have hnext := forcePass_ok E maxBatch maxKv mw forced hpass
      rw [Prod.mk.injEq] at hnext
      exact ih (hnext.1 ▸ hs.next E mw forced) h
  | case3 s hlt t hpass =>
      have hnext := forcePass_ok E maxBatch maxKv mw forced hpass
      rw [Prod.mk.injEq] at hnext
      obtain rfl := Except.ok.inj h
      exact hnext.1 ▸ hs.next E mw forced
  | case4 s hdone =>
      obtain rfl := Except.ok.inj h
      exact hs

/-! ## The calibration -/

/-- What a finished calibration run should have done: the KV positions hold the
prompt, the first predicted token and the forced list, each token once, and every
row dumped refers to that sequence. -/
structure Calibrates (ids : List Token) (first : Token) (forced : List Token)
    (s : ForceState F) : Prop where
  held : s.dec.held = ids ++ first :: forced
  rows : ∀ row ∈ s.rows, row.RefersTo E (ids ++ first :: forced)

/-- Whatever the plain prefill answers, it holds the prompt. -/
theorem held_of_prefillPlain (o : Opts F) (ids : List Token) {d d' : Dec} {t t' : Token}
    (h : prefillPlain E o ids (d, t) = .ok (d', t')) : d'.held = d.held ++ ids := by
  by_cases hkv : ids = [] ∨ (d.nPast : ℤ) + ids.length ≤ o.maxKv
  · obtain ⟨calls, next, hc, -⟩ := prefillPlain_ok E o ids d t hkv
    rw [hc] at h
    obtain ⟨rfl, -⟩ := Prod.mk.inj (Except.ok.inj h)
    rfl
  · refine absurd (prefillPlain_kvFull E o ids d t fun n m k hk => ?_) hkv
    rw [hk] at h
    cases h

theorem held_of_prefill (o : Opts F) {spec : Bool} {ids : List Token} {d d' : Dec} {t : Token}
    (h : prefill E o spec ids d = .ok (d', t)) : d'.held = ids := by
  rw [prefill] at h
  split at h
  · exact held_of_prefillBatch E o ids d.reset d' 0 t h
  · exact held_of_prefillPlain E o ids h

/-- **When the calibration run is faithful.**  A run that finishes has fed the
prompt, the first predicted token and the forced list, each once, if and only if
the list is not empty and fits in one window behind that token. -/
theorem forceRun_calibrates_iff (o : Opts F) (spec : Bool) (ids forced : List Token) (d : Dec)
    {d' : Dec} {first : Token} {s : ForceState F} (hfirst : prefill E o spec ids d = .ok (d', first))
    (hrun : forceRun E o spec ids forced d = .ok s) :
    Calibrates E ids first forced s ↔ forced ≠ [] ∧ forced.length < o.passWidth := by
  simp only [forceRun, hfirst, bind, Except.bind] at hrun
  have hheld := forceLoop_held E _ _ _ forced hrun
  have hrows : RowsRefer E s :=
    RowsRefer.loop E _ _ _ forced (s := ⟨d', 0, first, [], []⟩) (by simp [RowsRefer]) hrun
  simp only [held_of_prefill E o hfirst, List.drop_zero] at hheld
  rw [← windows_eq_iff o.passWidth first forced]
  constructor
  · intro h
    exact List.append_cancel_left (hheld.symm.trans h.held)
  · intro h
    rw [h] at hheld
    exact ⟨hheld, hheld ▸ hrows⟩

end Force

/-! ## Forced tokens in windows of two

The forced list `1` fits in one window; `1 2` needs two, and its `1` is held twice. -/

/-- One draft per pass. -/
def pairOpts : Opts ℤ := ⟨8, 64, 7, 1, 3, 64, 0⟩

theorem prefill_pair :
    prefill cycleEnv pairOpts true [1, 2, 3] ⟨[], 0⟩ = .ok (⟨[1, 2, 3], 1⟩, 4) := by
  decide +kernel

/-- The end of the run that forces `1`. -/
def oneWindow : ForceState ℤ :=
  ⟨⟨[1, 2, 3, 4, 1], 2⟩, 1, 1, [⟨3, true, 1, 0⟩, ⟨4, false, 2, 0⟩], [1]⟩

/-- The end of the run that forces `1 2`. -/
def twoWindows : ForceState ℤ :=
  ⟨⟨[1, 2, 3, 4, 1, 1, 2], 3⟩, 2, 2,
    [⟨3, true, 1, 0⟩, ⟨4, false, 2, 0⟩, ⟨5, true, 2, 0⟩, ⟨6, false, 3, 0⟩], [1, 2]⟩

theorem forceRun_calibrates_iff_one :
    Calibrates cycleEnv [1, 2, 3] 4 [1] oneWindow ↔
      ([1] : List Token) ≠ [] ∧ ([1] : List Token).length < pairOpts.passWidth :=
  forceRun_calibrates_iff cycleEnv pairOpts true [1, 2, 3] [1] ⟨[], 0⟩ prefill_pair
    (show forceRun cycleEnv pairOpts true [1, 2, 3] [1] ⟨[], 0⟩ = .ok oneWindow by
      decide +kernel)

theorem forced_token_held_twice :
    ¬ ∀ d' first s, prefill cycleEnv pairOpts true [1, 2, 3] ⟨[], 0⟩ = .ok (d', first) →
      forceRun cycleEnv pairOpts true [1, 2, 3] [1, 2] ⟨[], 0⟩ = .ok s →
      Calibrates cycleEnv [1, 2, 3] first [1, 2] s := by
  intro h
  have hcal := h _ _ twoWindows prefill_pair (by decide +kernel)
  have hne : twoWindows.dec.held ≠ [1, 2, 3] ++ 4 :: [1, 2] := by decide +kernel
  exact hne hcal.held

end FastLlm
