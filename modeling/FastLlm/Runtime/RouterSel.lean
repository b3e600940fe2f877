import FastLlm.Lib.Loop
import FastLlm.Lib.Ranking
import Mathlib.Algebra.BigOperators.Field
import Mathlib.Algebra.Order.BigOperators.Group.Finset
import Mathlib.Algebra.Order.Field.Basic
import Mathlib.Analysis.SpecialFunctions.Exp
import Mathlib.Order.Monotone.Defs

/-!
# The router in exact arithmetic

`fl_op_router_sel` over an ordered field, with an exponential that is positive, strictly increasing
and turns differences into quotients.  The experts selected are the head of the stable descending
sort of the logits, and their gates the softmax weights, renormalized when `norm` asks for it, and
scaled (`routerSel_routes`).

## Main definitions

* `RouterIn`, `routerSel` — the parameter block and the operation.
* `softmax` — the weight of an expert.
* `Routes` — what the operation should write.
-/

namespace FastLlm

/-- `RouterP`, with the logits behind its pointer. -/
structure RouterIn (K : Type) where
  logits : ℕ → K
  nExpert : ℕ
  topK : ℕ
  norm : Bool
  scale : K

/-- The two outputs, and `tsum`. -/
structure RouterState (K : Type) where
  ids : ℕ → ℕ
  gates : ℕ → K
  tsum : K

/-- Is expert `i` among the first `k` ids written? -/
def routed (ids : ℕ → ℕ) (k i : ℕ) : Bool :=
  iter k false fun k2 taken => if taken then taken else decide (ids k2 = i)

section
variable {K : Type} [Field K] [LinearOrder K]

/-- The expert of the largest weight that is not among the first `k` ids, and its weight. -/
def nextExpert (w : ℕ → K) (n : ℕ) (ids : ℕ → ℕ) (k : ℕ) : ℕ × K :=
  iter n (0, -1) fun i b => if routed ids k i = false ∧ b.2 < w i then (i, w i) else b

/-- One turn of the selection. -/
def selectStep (w : ℕ → K) (n k : ℕ) (s : RouterState K) : RouterState K :=
  let b := nextExpert w n s.ids k
  ⟨Function.update s.ids k b.1, Function.update s.gates k b.2, s.tsum + b.2⟩

/-- One turn of the scaling. -/
def scaleStep (norm : Bool) (tsum scale : K) (k : ℕ) (gates : ℕ → K) : ℕ → K :=
  let gates := if norm then Function.update gates k (gates k / tsum) else gates
  Function.update gates k (gates k * scale)

/-- `fl_op_router_sel`.  `low` is `-1e30f`; `ids` and `gates` are what the outputs held before.
The weights are kept in an array of 256 entries, so that the behaviour is undefined when there are
more experts. -/
def routerSel (exp : K → K) (low : K) (p : RouterIn K) (ids : ℕ → ℕ) (gates : ℕ → K) :
    Option ((ℕ → ℕ) × (ℕ → K)) :=
  if p.nExpert ≤ 256 then
    let mx := iter p.nExpert low fun i mx => if mx < p.logits i then p.logits i else mx
    let sum := iter p.nExpert 0 fun i sum => sum + exp (p.logits i - mx)
    let w (i : ℕ) : K := exp (p.logits i - mx) / sum
    let s := iter p.topK ⟨ids, gates, 0⟩ (selectStep w p.nExpert)
    some (s.ids, iter p.topK s.gates (scaleStep p.norm s.tsum p.scale))
  else none

/-- The softmax weight of expert `i`. -/
def softmax (exp : K → K) (p : RouterIn K) (i : ℕ) : K :=
  exp (p.logits i) / ∑ j ∈ Finset.range p.nExpert, exp (p.logits j)

/-- The gate of rank `k` before scaling: the softmax weight, divided by the sum of those selected
if `norm` is set. -/
def unscaled (exp : K → K) (p : RouterIn K) (ids : ℕ → ℕ) (k : ℕ) : K :=
  softmax exp p (ids k) /
    if p.norm then ∑ q ∈ Finset.range p.topK, softmax exp p (ids q) else 1

/-- What the operation should write. -/
structure Routes (exp : K → K) (p : RouterIn K) (ids : ℕ → ℕ) (gates : ℕ → K) : Prop where
  /-- The ids are the head of the stable descending sort of the logits. -/
  order : (List.range p.topK).map ids = (ranking p.logits p.nExpert).take p.topK
  lt : ∀ k < p.topK, ids k < p.nExpert
  distinct : ∀ k < p.topK, ∀ k2 < k, ids k2 ≠ ids k
  gate : ∀ k < p.topK, gates k = unscaled exp p ids k * p.scale
  descending : ∀ k < p.topK, ∀ k2 ≤ k, unscaled exp p ids k ≤ unscaled exp p ids k2
  /-- Renormalized gates sum up to the scale. -/
  sum : p.norm = true → 0 < p.topK → ∑ k ∈ Finset.range p.topK, gates k = p.scale
  /-- Wherever the list is cut, no expert that is left out weighs more than one that is kept. -/
  cut : ∀ k < p.topK, ∀ i < p.nExpert, (∀ k2 < k, ids k2 ≠ i) →
    softmax exp p i ≤ softmax exp p (ids k)

/-! ## The selection -/

theorem routed_iff (ids : ℕ → ℕ) (k i : ℕ) : routed ids k i = true ↔ ∃ k2 < k, ids k2 = i := by
  induction k with
  | zero => simp [routed]
  | succ k ih =>
    rw [routed, iter_succ, ← routed]
    by_cases h : routed ids k i = true
    · obtain ⟨k2, hk2, heq⟩ := ih.mp h
      rw [if_pos h]
      exact iff_of_true h ⟨k2, by omega, heq⟩
    · rw [if_neg h, decide_eq_true_eq]
      constructor
      · exact fun heq => ⟨k, by omega, heq⟩
      · rintro ⟨k2, hk2, heq⟩
        rcases Nat.lt_succ_iff_lt_or_eq.mp hk2 with hlt | rfl
        · exact absurd (ih.mpr ⟨k2, hlt, heq⟩) h
        · exact heq

theorem not_routed_iff (ids : ℕ → ℕ) (k i : ℕ) :
    routed ids k i = false ↔ ∀ k2 < k, ids k2 ≠ i := by
  rw [← Bool.not_eq_true, routed_iff]
  simp

/-- The experts left after `k` ids. -/
def unrouted (n : ℕ) (ids : ℕ → ℕ) (k : ℕ) : Set ℕ := {i | i < n ∧ ∀ k2 < k, ids k2 ≠ i}

/-- What the scan has found after `m` experts: nothing, or the lowest one of the largest weight
among those left. -/
theorem nextExpert_cases {w : ℕ → K} {m : ℕ} (ids : ℕ → ℕ) (k : ℕ) (hw : ∀ i < m, -1 < w i) :
    unrouted m ids k = ∅ ∧ nextExpert w m ids k = (0, -1) ∨
      LowestMax w (unrouted m ids k) (nextExpert w m ids k).1 ∧
        (nextExpert w m ids k).2 = w (nextExpert w m ids k).1 := by
  induction m with
  | zero => exact .inl ⟨by ext i; simp [unrouted], by rw [nextExpert, iter_zero]⟩
  | succ m ih =>
    have hstep : nextExpert w (m + 1) ids k =
        if routed ids k m = false ∧ (nextExpert w m ids k).2 < w m then (m, w m)
        else nextExpert w m ids k := by
      rw [nextExpert, iter_succ, ← nextExpert]
    rw [hstep]
    have ih := ih fun i hi => hw i (by omega)
    by_cases hfree : routed ids k m = false
    · have hset : unrouted (m + 1) ids k = insert m (unrouted m ids k) := by
        ext i
        simp only [unrouted, Set.mem_ofPred_eq, Set.mem_insert_iff, Nat.lt_succ_iff_lt_or_eq]
        constructor
        · rintro ⟨hi | rfl, hi'⟩
          · exact .inr ⟨hi, hi'⟩
          · exact .inl rfl
        · rintro (rfl | ⟨hi, hi'⟩)
          · exact ⟨.inr rfl, (not_routed_iff ids k i).mp hfree⟩
          · exact ⟨.inl hi, hi'⟩
      rw [hset]
      right
      rcases ih with ⟨hnone, heq⟩ | ⟨hmax, heq⟩
      · rw [if_pos ⟨hfree, by rw [heq]; exact hw m (by omega)⟩, hnone]
        refine ⟨⟨Set.mem_insert m ∅, fun i hi => ?_⟩, rfl⟩
        obtain rfl : i = m := by simpa using hi
        exact .inr ⟨rfl, le_rfl⟩
      · by_cases hlt : (nextExpert w m ids k).2 < w m
        · rw [if_pos ⟨hfree, hlt⟩]
          refine ⟨⟨Set.mem_insert m _, fun i hi => ?_⟩, rfl⟩
          rcases Set.mem_insert_iff.mp hi with rfl | hi
          · exact .inr ⟨rfl, le_rfl⟩
          · exact .inl ((hmax.le hi).trans_lt (heq ▸ hlt))
        · rw [if_neg fun h => hlt h.2]
          refine ⟨⟨Set.mem_insert_of_mem m hmax.mem, fun i hi => ?_⟩, heq⟩
          rcases Set.mem_insert_iff.mp hi with rfl | hi
          · rcases (not_lt.mp hlt).lt_or_eq with hlt' | heq'
            · exact .inl (heq ▸ hlt')
            · exact .inr ⟨heq ▸ heq', hmax.mem.1.le⟩
          · exact hmax.2 i hi
    · have hset : unrouted (m + 1) ids k = unrouted m ids k := by
        ext i
        simp only [unrouted, Set.mem_ofPred_eq, Nat.lt_succ_iff_lt_or_eq]
        constructor
        · rintro ⟨hi | rfl, hi'⟩
          · exact ⟨hi, hi'⟩
          · exact absurd ((not_routed_iff ids k i).mpr hi') hfree
        · exact fun hi => ⟨.inl hi.1, hi.2⟩
      rw [hset, if_neg fun h => hfree h.1]
      exact ih

/-- After `m` turns: each id the lowest one of the largest weight among those left before it, each
gate the weight of its expert, and the sum of the gates. -/
structure Selected (w : ℕ → K) (n m : ℕ) (s : RouterState K) : Prop where
  max : ∀ k < m, LowestMax w (unrouted n s.ids k) (s.ids k)
  gate : ∀ k < m, s.gates k = w (s.ids k)
  tsum : s.tsum = ∑ k ∈ Finset.range m, w (s.ids k)

theorem unrouted_update {n k m : ℕ} (hk : k ≤ m) (ids : ℕ → ℕ) (j : ℕ) :
    unrouted n (Function.update ids m j) k = unrouted n ids k := by
  ext i
  have hsame : ∀ k2 < k, Function.update ids m j k2 = ids k2 := fun k2 hk2 =>
    Function.update_of_ne (by omega) _ _
  simp only [unrouted, Set.mem_ofPred_eq]
  exact and_congr_right fun _ => forall₂_congr fun k2 hk2 => by rw [hsame k2 hk2]

/-- Fewer ids than experts leave an expert. -/
theorem unrouted_nonempty {n k : ℕ} (hk : k < n) (ids : ℕ → ℕ) : (unrouted n ids k).Nonempty := by
  by_contra hnone
  have hsub : Finset.range n ⊆ (Finset.range k).image ids := by
    intro i hi
    by_contra hin
    refine hnone ⟨i, Finset.mem_range.mp hi, fun k2 hk2 heq => hin ?_⟩
    exact Finset.mem_image.mpr ⟨k2, Finset.mem_range.mpr hk2, heq⟩
  have hcard := (Finset.card_le_card hsub).trans Finset.card_image_le
  rw [Finset.card_range, Finset.card_range] at hcard
  omega

theorem Selected.step {w : ℕ → K} {n m : ℕ} {s : RouterState K} (hw : ∀ i < n, -1 < w i)
    (hm : m < n) (h : Selected w n m s) : Selected w n (m + 1) (selectStep w n m s) := by
  have hnext : LowestMax w (unrouted n s.ids m) (nextExpert w n s.ids m).1 ∧
      (nextExpert w n s.ids m).2 = w (nextExpert w n s.ids m).1 := by
    rcases nextExpert_cases s.ids m hw with ⟨hnone, -⟩ | hnext
    · exact absurd hnone (unrouted_nonempty hm s.ids).ne_empty
    · exact hnext
  have hold : ∀ k < m, (selectStep w n m s).ids k = s.ids k := fun k hk =>
    Function.update_of_ne (by omega) _ _
  have hnew : (selectStep w n m s).ids m = (nextExpert w n s.ids m).1 := Function.update_self _ _ _
  constructor
  · intro k hk
    have hset : unrouted n (selectStep w n m s).ids k = unrouted n s.ids k :=
      unrouted_update (by omega) _ _
    rw [hset]
    rcases Nat.lt_succ_iff_lt_or_eq.mp hk with hlt | rfl
    · rw [hold k hlt]
      exact h.max k hlt
    · rw [hnew]
      exact hnext.1
  · intro k hk
    rcases Nat.lt_succ_iff_lt_or_eq.mp hk with hlt | rfl
    · rw [hold k hlt, ← h.gate k hlt]
      exact Function.update_of_ne (by omega) _ _
    · rw [hnew, ← hnext.2]
      exact Function.update_self _ _ _
  · have hsum : ∑ k ∈ Finset.range m, w ((selectStep w n m s).ids k) =
        ∑ k ∈ Finset.range m, w (s.ids k) :=
      Finset.sum_congr rfl fun k hk => by rw [hold k (Finset.mem_range.mp hk)]
    rw [Finset.sum_range_succ, hsum, hnew, ← hnext.2, ← h.tsum]
    rfl

theorem selected {w : ℕ → K} {n m : ℕ} (hw : ∀ i < n, -1 < w i) (hm : m ≤ n) (ids : ℕ → ℕ)
    (gates : ℕ → K) : Selected w n m (iter m ⟨ids, gates, 0⟩ (selectStep w n)) := by
  refine iter_induction (P := Selected w n) ⟨by simp, by simp, by simp⟩ fun k hk s hs => ?_
  exact hs.step hw (by omega)

/-! ## The scaling -/

/-- Every gate is divided, if `norm` is set, and multiplied. -/
theorem scaled (norm : Bool) (tsum scale : K) (m : ℕ) (gates : ℕ → K) {k : ℕ} (hk : k < m) :
    iter m gates (scaleStep norm tsum scale) k =
      gates k / (if norm then tsum else 1) * scale := by
  have hstep : ∀ i < m, ∀ g : ℕ → K, scaleStep norm tsum scale i g =
      Function.update g i (g i / (if norm then tsum else 1) * scale) := by
    intro i hi g
    cases norm <;> simp [scaleStep]
  rw [iter_congr hstep, iter_modify m gates (fun _ x => x / (if norm then tsum else 1) * scale) k,
    if_pos hk]

variable [IsStrictOrderedRing K] {exp : K → K}

/-- Subtracting a common value from the logits does not change the softmax. -/
theorem softmax_shift (hpos : ∀ x, 0 < exp x) (hsub : ∀ a b, exp (a - b) = exp a / exp b)
    (p : RouterIn K) (mx : K) (i : ℕ) :
    exp (p.logits i - mx) / ∑ j ∈ Finset.range p.nExpert, exp (p.logits j - mx) =
      softmax exp p i := by
  simp only [hsub, ← Finset.sum_div]
  exact div_div_div_cancel_right₀ (hpos mx).ne' _ _

/-- **The router in exact arithmetic.** -/
theorem routerSel_routes (hpos : ∀ x, 0 < exp x) (hmono : StrictMono exp)
    (hsub : ∀ a b, exp (a - b) = exp a / exp b) (low : K) (p : RouterIn K)
    (hn : p.nExpert ≤ 256) (hk : p.topK ≤ p.nExpert) (ids : ℕ → ℕ) (gates : ℕ → K) :
    ∃ ids' gates', routerSel exp low p ids gates = some (ids', gates') ∧
      Routes exp p ids' gates' := by
  rw [routerSel, if_pos hn]
  simp only [iter_sum, zero_add, softmax_shift hpos hsub]
  refine ⟨_, _, rfl, ?_⟩
  set s := iter p.topK ⟨ids, gates, 0⟩ (selectStep (softmax exp p) p.nExpert) with hs
  have htotal (i : ℕ) (hi : i < p.nExpert) :
      0 < ∑ j ∈ Finset.range p.nExpert, exp (p.logits j) :=
    Finset.sum_pos (fun j _ => hpos _) ⟨i, Finset.mem_range.mpr hi⟩
  have hweight (i : ℕ) (hi : i < p.nExpert) : 0 < softmax exp p i :=
    div_pos (hpos _) (htotal i hi)
  have hsel : Selected (softmax exp p) p.nExpert p.topK s :=
    selected (fun i hi => by linarith [hweight i hi]) hk ids gates
  have hlt (k : ℕ) (hkt : k < p.topK) : s.ids k < p.nExpert := (hsel.max k hkt).mem.1
  have hunit : (if p.norm = true then s.tsum else 1) =
      if p.norm = true then ∑ q ∈ Finset.range p.topK, softmax exp p (s.ids q) else 1 := by
    rw [hsel.tsum]
  have hgate (k : ℕ) (hkt : k < p.topK) :
      iter p.topK s.gates (scaleStep p.norm s.tsum p.scale) k =
        unscaled exp p s.ids k * p.scale := by
    rw [scaled p.norm s.tsum p.scale p.topK s.gates hkt, hsel.gate k hkt, hunit, unscaled]
  have hchosen (k : ℕ) (hkt : k < p.topK) :
      0 < ∑ q ∈ Finset.range p.topK, softmax exp p (s.ids q) :=
    Finset.sum_pos (fun q hq => hweight _ (hlt q (Finset.mem_range.mp hq)))
      ⟨k, Finset.mem_range.mpr hkt⟩
  have hcut (k : ℕ) (hkt : k < p.topK) (i : ℕ) (hi : i < p.nExpert)
      (hleft : ∀ k2 < k, s.ids k2 ≠ i) : softmax exp p i ≤ softmax exp p (s.ids k) :=
    (hsel.max k hkt).le ⟨hi, hleft⟩
  constructor
  · apply map_eq_ranking_take
    intro k hkt
    have hscale : StrictMono fun x => exp x / ∑ j ∈ Finset.range p.nExpert, exp (p.logits j) :=
      fun a b hab => div_lt_div_of_pos_right (hmono hab) (htotal _ (hlt k hkt))
    exact LowestMax.of_strictMono hscale (hsel.max k hkt)
  · exact hlt
  · intro k hkt k2 hk2
    exact (hsel.max k hkt).mem.2 k2 hk2
  · exact hgate
  · intro k hkt k2 hk2
    have hunitpos : 0 < if p.norm = true then
        ∑ q ∈ Finset.range p.topK, softmax exp p (s.ids q) else 1 := by
      split
      · exact hchosen k hkt
      · exact one_pos
    refine div_le_div_of_nonneg_right (hcut k2 (by omega) _ (hlt k hkt) fun k3 hk3 => ?_)
      hunitpos.le
    exact (hsel.max k hkt).mem.2 k3 (by omega)
  · intro hnorm htop
    rw [Finset.sum_congr rfl fun k hkt => hgate k (Finset.mem_range.mp hkt), ← Finset.sum_mul]
    simp only [unscaled, hnorm, if_true, ← Finset.sum_div]
    rw [div_self (hchosen 0 htop).ne', one_mul]
  · exact hcut

end

/-- Two of three experts, of which the last two tie. -/
theorem routerSel_routes_three :
    ∃ ids gates, routerSel Real.exp (-10 ^ 30) ⟨fun i => if i = 0 then 1 else 2, 3, 2, true, 1⟩
        (fun _ => 0) (fun _ => 0) = some (ids, gates) ∧
      Routes Real.exp ⟨fun i => if i = 0 then 1 else 2, 3, 2, true, 1⟩ ids gates :=
  routerSel_routes Real.exp_pos Real.exp_strictMono Real.exp_sub _ _ (by decide) (by decide) _ _

end FastLlm
