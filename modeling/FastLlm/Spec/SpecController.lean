import FastLlm.Lib.ArgMax
import FastLlm.Lib.Loop
import Mathlib.Algebra.Order.Field.Basic
import Mathlib.Data.Rat.Defs
import Mathlib.Algebra.Order.Ring.Rat
import Mathlib.Tactic.Linarith
import Mathlib.Tactic.Positivity

/-!
# The draft-length controller

`spec_controller.h`: per round the draft length with the best expected number of tokens per
millisecond, from a running estimate of the acceptance rate and one of the latency of every batch
bucket.  Arithmetic is exact.

A bucket is measured when its latency is not negative.  As long as bucket 0 is not measured the
controller drafts in full, whatever the other buckets say; from then on it takes the argmax, and
after `probe_iv` rounds without a draft it probes.

## Main definitions

* `SpecCfg`, `SpecController` — the configuration and the state.
* `latEst`, `expectedEmitted`, `choose`, `observe` — the controller.
* `Event`, `run` — a sequence of calls.
* `run_ok`, `choose_argmax` — what holds after every sequence.
-/

namespace FastLlm

/-- `SpecController::Cfg`. -/
structure SpecCfg where
  nMax : ℤ := 7
  alpha0 : ℚ := 0.75
  alphaDecay : ℚ := 0.90
  latDecay : ℚ := 0.80
  probeIv : ℤ := 16
  probeN : ℤ := 2
  seedSlope : ℚ := 0.15

structure SpecController where
  c : SpecCfg
  alpha : ℚ
  latMs : ℕ → ℚ
  zeroStreak : ℤ

namespace SpecController

def kMaxN : ℕ := 15

def init (c : SpecCfg) : SpecController := ⟨c, c.alpha0, fun _ => -1, 0⟩

def bucket (n : ℤ) : ℕ := if n < 0 then 0 else if (kMaxN : ℤ) < n then kMaxN else n.toNat

variable (s : SpecController)

/-- An unmeasured bucket `b` from a measured one at distance `d`. -/
def seed (b d : ℕ) : Option ℚ :=
  if d ≤ b ∧ 0 ≤ s.latMs (b - d) then some (s.latMs (b - d) * (1 + s.c.seedSlope * d))
  else if b + d ≤ kMaxN ∧ 0 ≤ s.latMs (b + d) then
    some (s.latMs (b + d) / (1 + s.c.seedSlope * d))
  else none

def latEst (n : ℤ) : ℚ :=
  if 0 ≤ s.latMs (bucket n) then s.latMs (bucket n)
  else ((List.range kMaxN).findSome? fun i => s.seed (bucket n) (i + 1)).getD 1

/-- `1 + alpha + … + alpha ^ n`. -/
def expectedEmitted (n : ℕ) : ℚ :=
  (iter (n + 1) ((0 : ℚ), (1 : ℚ)) fun _ a => (a.1 + a.2, a.2 * s.alpha)).1

def rate (n : ℕ) : ℚ := s.expectedEmitted n / s.latEst n

/-- The argmax loop: `best_n` and `best_rate`. -/
def best : ℕ × ℚ :=
  iter s.c.nMax.toNat (0, 1 / s.latEst 0) fun i b =>
    if b.2 < s.rate (i + 1) then (i + 1, s.rate (i + 1)) else b

def choose : ℤ × SpecController :=
  if s.latMs 0 < 0 then (s.c.nMax, s)
  else if s.best.1 = 0 then
    if s.c.probeIv ≤ s.zeroStreak + 1 then (s.c.probeN, { s with zeroStreak := 0 })
    else (s.best.1, { s with zeroStreak := s.zeroStreak + 1 })
  else (s.best.1, { s with zeroStreak := 0 })

/-- The clamp of `alpha_`. -/
def clamp (a : ℚ) : ℚ :=
  let a := if a < 0.02 then 0.02 else a
  if 0.98 < a then 0.98 else a

def observe (nDrafted nAccepted : ℤ) (passMs : ℚ) : SpecController :=
  let b := bucket nDrafted
  let lat := if s.latMs b < 0 then passMs
    else s.c.latDecay * s.latMs b + (1 - s.c.latDecay) * passMs
  let alpha := if 0 < nDrafted then
      clamp (s.c.alphaDecay * s.alpha + (1 - s.c.alphaDecay) * (nAccepted / nDrafted))
    else s.alpha
  { s with latMs := Function.update s.latMs b lat, alpha := alpha }

/-! ## Runs -/

inductive Event
  | choose
  | observe (nDrafted nAccepted : ℤ) (passMs : ℚ)

/-- A pass takes time. -/
def Event.Timed : Event → Prop
  | choose => True
  | observe _ _ passMs => 0 < passMs

/-- One call, with what it returns. -/
def step (s : SpecController) : Event → List ℤ × SpecController
  | .choose => ([s.choose.1], s.choose.2)
  | .observe d a ms => ([], s.observe d a ms)

/-- A sequence of calls, with what the calls of `choose()` return. -/
def run (s : SpecController) : List Event → List ℤ × SpecController
  | [] => ([], s)
  | e :: es => ((s.step e).1 ++ (run (s.step e).2 es).1, (run (s.step e).2 es).2)

@[simp] theorem step_c (e : Event) : (s.step e).2.c = s.c := by
  cases e with
  | choose =>
    rw [step, choose]
    split_ifs <;> rfl
  | observe d a ms => rfl

@[simp] theorem run_c (es : List Event) : (s.run es).2.c = s.c := by
  induction es generalizing s with
  | nil => rfl
  | cons e es ih => exact (ih _).trans (s.step_c e)

/-! ## What `choose` returns -/

/-- The best draft length is one of `0`, …, `n_max`, the lowest with the best rate. -/
theorem best_lowestMax :
    LowestMax s.rate {n | n ≤ s.c.nMax.toNat} s.best.1 ∧ s.best.2 = s.rate s.best.1 := by
  rw [best]
  apply iter_induction (P := fun k (b : ℕ × ℚ) =>
    LowestMax s.rate {n | n ≤ k} b.1 ∧ b.2 = s.rate b.1)
  · refine ⟨⟨Nat.le_refl 0, fun k hk => .inr ?_⟩, ?_⟩
    · have hk0 : k = 0 := Nat.le_zero.mp hk
      exact ⟨by rw [hk0], Nat.zero_le k⟩
    · have hone : s.expectedEmitted 0 = 1 := by simp [expectedEmitted]
      rw [rate, hone]
      rfl
  · intro i _ b ⟨hmax, hb⟩
    rw [hb]
    split_ifs with hlt
    · refine ⟨⟨Nat.le_refl (i + 1), fun k hk => ?_⟩, rfl⟩
      rcases Nat.of_le_succ hk with hk | rfl
      · exact .inl ((hmax.le hk).trans_lt hlt)
      · exact .inr ⟨rfl, le_rfl⟩
    · refine ⟨⟨Nat.le_succ_of_le hmax.mem, fun k hk => ?_⟩, hb⟩
      rcases Nat.of_le_succ hk with hk | rfl
      · exact hmax.2 k hk
      · rcases lt_or_eq_of_le (not_lt.mp hlt) with h | h
        · exact .inl h
        · exact .inr ⟨h, Nat.le_succ_of_le hmax.mem⟩

/-- The draft lengths a controller may ask for. -/
def Asks (c : SpecCfg) (n : ℤ) : Prop := (0 ≤ n ∧ n ≤ c.nMax) ∨ n = c.probeN

theorem choose_asks (hmax : 0 ≤ s.c.nMax) : Asks s.c s.choose.1 := by
  have hbest : s.best.1 ≤ s.c.nMax.toNat := s.best_lowestMax.1.mem
  rw [choose]
  split_ifs
  · exact .inl ⟨hmax, le_rfl⟩
  · exact .inr rfl
  · exact .inl (by dsimp only; omega)
  · exact .inl (by dsimp only; omega)

/-- A round without a draft is counted, and a count that reaches `probe_iv` forces a draft. -/
theorem choose_eq_zero (hmax : 1 ≤ s.c.nMax) (hprobe : 1 ≤ s.c.probeN) (h : s.choose.1 = 0) :
    s.choose.2.zeroStreak = s.zeroStreak + 1 ∧ s.zeroStreak + 1 < s.c.probeIv := by
  rw [choose] at h ⊢
  split_ifs at h ⊢ with hcold hbest hiv
  · dsimp only at h
    omega
  · dsimp only at h
    omega
  · exact ⟨rfl, not_le.mp hiv⟩
  · dsimp only at h
    omega

theorem step_zeroStreak (e : Event) (h : 0 ≤ s.zeroStreak) : 0 ≤ (s.step e).2.zeroStreak := by
  cases e with
  | choose =>
    rw [step, choose]
    split_ifs
    · exact h
    · exact le_rfl
    · exact Int.add_nonneg h Int.one_nonneg
    · exact le_rfl
  | observe d a ms => exact h

theorem run_asks (es : List Event) (hmax : 0 ≤ s.c.nMax) :
    ∀ n ∈ (s.run es).1, Asks s.c n := by
  induction es generalizing s with
  | nil => simp [run]
  | cons e es ih =>
    intro n hn
    rw [run, List.mem_append] at hn
    rcases hn with hn | hn
    · cases e with
      | choose =>
        rw [List.mem_singleton.mp hn]
        exact s.choose_asks hmax
      | observe d a ms => exact absurd hn List.not_mem_nil
    · have h := ih (s.step e).2 (by rw [step_c]; exact hmax) n hn
      rw [step_c] at h
      exact h

section
variable (hmax : 1 ≤ s.c.nMax) (hprobe : 1 ≤ s.c.probeN) (es : List Event)
include hmax hprobe

/-- The zeros a run starts with continue the streak. -/
theorem run_prefix (w : List ℤ) (hw : w <+: (s.run es).1) (hzero : ∀ n ∈ w, n = 0) (hne : w ≠ []) :
    s.zeroStreak + w.length < s.c.probeIv := by
  induction es generalizing s w with
  | nil => exact absurd (List.prefix_nil.mp hw) hne
  | cons e es ih =>
    have hih := ih (s.step e).2 (by rw [step_c]; exact hmax) (by rw [step_c]; exact hprobe)
    rw [step_c] at hih
    cases e with
    | choose =>
      obtain ⟨n, w, rfl⟩ := List.exists_cons_of_ne_nil hne
      have hn : n = s.choose.1 ∧ w <+: ((s.step .choose).2.run es).1 := List.cons_prefix_cons.mp hw
      obtain ⟨hstreak, hlt⟩ := s.choose_eq_zero hmax hprobe (hn.1 ▸ hzero n List.mem_cons_self)
      by_cases hw0 : w = []
      · rw [hw0]
        exact hlt
      · have h := hih w hn.2 (fun k hk => hzero k (List.mem_cons_of_mem n hk)) hw0
        have hstreak' : (s.step .choose).2.zeroStreak = s.zeroStreak + 1 := hstreak
        rw [hstreak'] at h
        rw [List.length_cons]
        omega
    | observe d a ms => exact hih w hw hzero hne

/-- No window of `probe_iv` calls stays without a draft. -/
theorem run_infix (hstreak : 0 ≤ s.zeroStreak) (w : List ℤ) (hw : w <:+: (s.run es).1)
    (hlen : s.c.probeIv ≤ w.length) (hne : w ≠ []) : ∃ n ∈ w, n ≠ 0 := by
  induction es generalizing s with
  | nil => exact absurd (List.infix_nil.mp hw) hne
  | cons e es ih =>
    have hih := ih (s.step e).2 (by rw [step_c]; exact hmax) (by rw [step_c]; exact hprobe)
      (s.step_zeroStreak e hstreak)
    rw [step_c] at hih
    cases e with
    | choose =>
      rcases List.infix_cons_iff.mp hw with hw | hw
      · by_contra hall
        push Not at hall
        have h := s.run_prefix hmax hprobe (.choose :: es) w hw hall hne
        omega
      · exact hih hw hlen
    | observe d a ms => exact hih hw hlen

end

/-! ## Estimates -/

theorem clamp_mem (a : ℚ) : 0.02 ≤ clamp a ∧ clamp a ≤ 0.98 := by
  rw [clamp]
  split_ifs with h1 h2 h2
  · norm_num at h2
  · norm_num
  · norm_num
  · exact ⟨not_lt.mp h1, not_lt.mp h2⟩

theorem observe_alpha {d : ℤ} (hd : 0 < d) (a : ℤ) (ms : ℚ) :
    0.02 ≤ (s.observe d a ms).alpha ∧ (s.observe d a ms).alpha ≤ 0.98 := by
  have heq : (s.observe d a ms).alpha = if 0 < d then
      clamp (s.c.alphaDecay * s.alpha + (1 - s.c.alphaDecay) * (a / d)) else s.alpha := rfl
  rw [heq, if_pos hd]
  exact clamp_mem _

/-- Averages are averages, and an extrapolation keeps the sign. -/
structure Sane (c : SpecCfg) : Prop where
  decay_nonneg : 0 ≤ c.latDecay
  decay_le : c.latDecay ≤ 1
  slope : -1 < 15 * c.seedSlope

theorem Sane.factor_pos {c : SpecCfg} (h : Sane c) {d : ℕ} (hd : d ≤ kMaxN) :
    0 < 1 + c.seedSlope * d := by
  have hd' : (d : ℚ) ≤ 15 := by exact_mod_cast hd
  have hd0 : (0 : ℚ) ≤ d := Nat.cast_nonneg d
  have hslope := h.slope
  by_cases hs : 0 ≤ c.seedSlope
  · have hmul := mul_nonneg hs hd0
    linarith
  · have hmul := mul_le_mul_of_nonpos_left hd' (not_le.mp hs).le
    linarith

/-- A measured latency is positive. -/
def Measures (s : SpecController) : Prop := ∀ b, 0 ≤ s.latMs b → 0 < s.latMs b

theorem Measures.init (c : SpecCfg) : Measures (init c) := by
  intro b hb
  exact absurd hb (by norm_num [SpecController.init])

variable {s}

theorem Measures.observe (h : Measures s) (hc : Sane s.c) {d a : ℤ} {ms : ℚ} (hms : 0 < ms) :
    Measures (s.observe d a ms) ∧ 0 < (s.observe d a ms).latMs (bucket d) := by
  have hlat (b : ℕ) : (s.observe d a ms).latMs b = if b = bucket d then
      (if s.latMs (bucket d) < 0 then ms
        else s.c.latDecay * s.latMs (bucket d) + (1 - s.c.latDecay) * ms) else s.latMs b := by
    by_cases hb : b = bucket d <;> simp [SpecController.observe, hb]
  have hnew : 0 < (s.observe d a ms).latMs (bucket d) := by
    rw [hlat, if_pos rfl]
    split_ifs with hneg
    · exact hms
    · have hpos := h _ (not_lt.mp hneg)
      have h0 := hc.decay_nonneg
      have h1 := hc.decay_le
      rcases h0.eq_or_lt with heq | hlt
      · rw [← heq]
        linarith
      · have hmul1 := mul_pos hlt hpos
        have hmul2 := mul_nonneg (sub_nonneg.mpr h1) hms.le
        linarith
  refine ⟨fun b hb => ?_, hnew⟩
  by_cases hbd : b = bucket d
  · rw [hbd]
    exact hnew
  · rw [hlat, if_neg hbd] at hb ⊢
    exact h b hb

theorem Measures.step (h : Measures s) (hc : Sane s.c) {e : Event} (he : e.Timed) :
    Measures (s.step e).2 := by
  cases e with
  | choose =>
    rw [SpecController.step, choose]
    split_ifs <;> exact h
  | observe d a ms => exact (h.observe hc he).1

theorem Measures.run (h : Measures s) (hc : Sane s.c) {es : List Event}
    (hes : ∀ e ∈ es, e.Timed) : Measures (s.run es).2 := by
  induction es generalizing s with
  | nil => exact h
  | cons e es ih =>
    exact ih (h.step hc (hes e List.mem_cons_self)) (by rw [step_c]; exact hc)
      fun k hk => hes k (List.mem_cons_of_mem e hk)

theorem Measures.latEst_pos (h : Measures s) (hc : Sane s.c) (n : ℤ) : 0 < s.latEst n := by
  rw [latEst]
  split_ifs with hb
  · exact h _ hb
  · cases hf : (List.range kMaxN).findSome? fun i => s.seed (bucket n) (i + 1) with
    | none => exact one_pos
    | some r =>
      obtain ⟨i, hi, hr⟩ := List.exists_of_findSome?_eq_some hf
      have hfac := hc.factor_pos (Nat.succ_le_of_lt (List.mem_range.mp hi))
      rw [seed] at hr
      split_ifs at hr with h1 h2
      · rw [← Option.some.inj hr]
        exact mul_pos (h _ h1.2) hfac
      · rw [← Option.some.inj hr]
        exact div_pos (h _ h2.2) hfac

/-- Bucket 0 is measured by a round without a draft, and stays measured. -/
theorem Measures.run_measured (h : Measures s) (hc : Sane s.c) {es : List Event}
    (hes : ∀ e ∈ es, e.Timed)
    (h0 : 0 < s.latMs 0 ∨ ∃ d a ms, Event.observe d a ms ∈ es ∧ d ≤ 0) :
    0 < (s.run es).2.latMs 0 := by
  induction es generalizing s with
  | nil =>
    rcases h0 with h0 | ⟨d, a, ms, hmem, -⟩
    · exact h0
    · exact absurd hmem List.not_mem_nil
  | cons e es ih =>
    apply ih (h.step hc (hes e List.mem_cons_self)) (by rw [step_c]; exact hc)
      fun k hk => hes k (List.mem_cons_of_mem e hk)
    have hkeep : 0 < s.latMs 0 → 0 < (s.step e).2.latMs 0 := by
      intro hpos
      cases e with
      | choose =>
        rw [SpecController.step, choose]
        split_ifs <;> exact hpos
      | observe d a ms =>
        have hobs := h.observe hc (d := d) (a := a) (hes _ List.mem_cons_self : 0 < ms)
        by_cases hb : bucket d = 0
        · rw [← hb]
          exact hobs.2
        · have heq : (s.observe d a ms).latMs 0 = s.latMs 0 :=
            Function.update_of_ne (Ne.symm hb) ..
          exact heq ▸ hpos
    rcases h0 with h0 | ⟨d, a, ms, hmem, hd⟩
    · exact .inl (hkeep h0)
    · rcases List.mem_cons.mp hmem with rfl | hmem
      · left
        have hobs := h.observe hc (d := d) (a := a) (hes _ List.mem_cons_self : 0 < ms)
        have hb : bucket d = 0 := by
          rw [bucket]
          split_ifs <;> omega
        rw [hb] at hobs
        exact hobs.2
      · exact .inr ⟨d, a, ms, hmem, hd⟩

/-- No round without a draft: bucket 0 is as it was. -/
theorem run_unmeasured {es : List Event} (hes : ∀ d a ms, Event.observe d a ms ∈ es → 0 < d) :
    (s.run es).2.latMs 0 = s.latMs 0 := by
  induction es generalizing s with
  | nil => rfl
  | cons e es ih =>
    refine (ih fun d a ms hmem => hes d a ms (List.mem_cons_of_mem e hmem)).trans ?_
    cases e with
    | choose =>
      rw [SpecController.step, choose]
      split_ifs <;> rfl
    | observe d a ms =>
      have hd := hes d a ms List.mem_cons_self
      have hb : bucket d ≠ 0 := by
        rw [bucket]
        split_ifs <;> simp [kMaxN] <;> omega
      exact Function.update_of_ne (Ne.symm hb) ..

/-! ## Every sequence of calls -/

/-- After every sequence of calls: what was returned, and the estimates. -/
theorem run_ok {c : SpecCfg} (hmax : 1 ≤ c.nMax) (hprobe : 1 ≤ c.probeN) (hiv : 1 ≤ c.probeIv)
    {es : List Event} (hes : ∀ e ∈ es, e.Timed) :
    (∀ n ∈ ((init c).run es).1, (0 ≤ n ∧ n ≤ c.nMax) ∨ n = c.probeN) ∧
    (∀ d a ms, 0 < d → 0.02 ≤ (((init c).run es).2.observe d a ms).alpha ∧
      (((init c).run es).2.observe d a ms).alpha ≤ 0.98) ∧
    (Sane c → ∀ n, 0 < ((init c).run es).2.latEst n) ∧
    ∀ w, w <:+: ((init c).run es).1 → c.probeIv ≤ w.length → ∃ n ∈ w, n ≠ 0 := by
  refine ⟨run_asks (init c) es (by exact le_trans zero_le_one hmax),
    fun d a ms hd => observe_alpha _ hd a ms, fun hc n => ?_, fun w hw hlen => ?_⟩
  · exact ((Measures.init c).run hc hes).latEst_pos (by rw [run_c]; exact hc) n
  · refine run_infix (init c) hmax hprobe es le_rfl w hw hlen ?_
    rintro rfl
    exact absurd (hiv.trans hlen) (by simp)

theorem run_ok_two :
    (∀ n ∈ ((init {}).run [.choose, .observe 7 3 20, .choose]).1, (0 ≤ n ∧ n ≤ 7) ∨ n = 2) ∧
    (∀ d a ms, 0 < d →
      0.02 ≤ (((init {}).run [.choose, .observe 7 3 20, .choose]).2.observe d a ms).alpha ∧
      (((init {}).run [.choose, .observe 7 3 20, .choose]).2.observe d a ms).alpha ≤ 0.98) ∧
    (Sane {} → ∀ n, 0 < ((init {}).run [.choose, .observe 7 3 20, .choose]).2.latEst n) ∧
    ∀ w, w <:+: ((init {}).run [.choose, .observe 7 3 20, .choose]).1 → (16 : ℤ) ≤ w.length →
      ∃ n ∈ w, n ≠ 0 := by
  refine run_ok (c := {}) (by decide) (by decide) (by decide) ?_
  intro e he
  simp only [List.mem_cons, List.not_mem_nil, or_false] at he
  rcases he with rfl | rfl | rfl
  · trivial
  · exact (by norm_num : (0 : ℚ) < 20)
  · trivial

/-- With a decay above one the average of two latencies need not be positive. -/
theorem latEst_eq_zero :
    ((init { latDecay := 2 }).run [.observe 0 0 10, .observe 0 0 20]).2.latEst 0 = 0 := by
  decide +kernel

/-- Once a round without a draft was observed, `choose()` probes or takes the argmax; before that
it drafts in full. -/
theorem choose_argmax {c : SpecCfg} (hc : Sane c) {es : List Event} (hes : ∀ e ∈ es, e.Timed) :
    ((∃ d a ms, Event.observe d a ms ∈ es ∧ d ≤ 0) →
      (((init c).run es).2.choose.1 = c.probeN ∧
        c.probeIv ≤ ((init c).run es).2.zeroStreak + 1 ∧
        LowestMax ((init c).run es).2.rate {n | n ≤ c.nMax.toNat} 0) ∨
      ∃ n : ℕ, ((init c).run es).2.choose.1 = n ∧
        LowestMax ((init c).run es).2.rate {n | n ≤ c.nMax.toNat} n) ∧
    ((∀ d a ms, Event.observe d a ms ∈ es → 0 < d) → ((init c).run es).2.choose.1 = c.nMax) := by
  have hrc : ((init c).run es).2.c = c := run_c ..
  constructor
  · intro h0
    have hpos := (Measures.init c).run_measured hc hes (.inr h0)
    have hbest := ((init c).run es).2.best_lowestMax.1
    rw [hrc] at hbest
    rw [choose, if_neg (not_lt.mpr hpos.le), hrc]
    split_ifs with hzero hiv
    · rw [hzero] at hbest
      exact .inl ⟨rfl, hiv, hbest⟩
    · exact .inr ⟨_, rfl, hbest⟩
    · exact .inr ⟨_, rfl, hbest⟩
  · intro h0
    have hneg : ((init c).run es).2.latMs 0 < 0 := by
      rw [run_unmeasured h0]
      norm_num [init]
    rw [choose, if_pos hneg, hrc]

/-- A draft of four tokens and a round without one. -/
theorem choose_argmax_two :
    ((∃ d a ms, Event.observe d a ms ∈ [Event.observe 4 2 12, .observe 0 0 10] ∧ d ≤ 0) →
      (((init {}).run [.observe 4 2 12, .observe 0 0 10]).2.choose.1 = 2 ∧
        (16 : ℤ) ≤ ((init {}).run [.observe 4 2 12, .observe 0 0 10]).2.zeroStreak + 1 ∧
        LowestMax ((init {}).run [.observe 4 2 12, .observe 0 0 10]).2.rate
          {n | n ≤ (7 : ℤ).toNat} 0) ∨
      ∃ n : ℕ, ((init {}).run [.observe 4 2 12, .observe 0 0 10]).2.choose.1 = n ∧
        LowestMax ((init {}).run [.observe 4 2 12, .observe 0 0 10]).2.rate
          {n | n ≤ (7 : ℤ).toNat} n) ∧
    ((∀ d a ms, Event.observe d a ms ∈ [Event.observe 4 2 12, .observe 0 0 10] → 0 < d) →
      ((init {}).run [.observe 4 2 12, .observe 0 0 10]).2.choose.1 = 7) := by
  refine choose_argmax (c := {}) ⟨?_, ?_, ?_⟩ ?_
  · norm_num
  · norm_num
  · norm_num
  · intro e he
    simp only [List.mem_cons, List.not_mem_nil, or_false] at he
    rcases he with rfl | rfl
    · exact (by norm_num : (0 : ℚ) < 12)
    · exact (by norm_num : (0 : ℚ) < 10)

/-- Four drafts, all rejected: the controller still drafts in full, although four drafts have the
better rate. -/
theorem choose_cold :
    ((init {}).run [.observe 4 0 12]).2.choose.1 = 7 ∧
      ((init {}).run [.observe 4 0 12]).2.zeroStreak + 1 < 16 ∧
      ((init {}).run [.observe 4 0 12]).2.rate 7 < ((init {}).run [.observe 4 0 12]).2.rate 4 := by
  decide +kernel

end SpecController
end FastLlm
