import FastLlm.Model.HeadCert
import FastLlm.Runtime.ActQ8

/-!
# The margin of the int8 mode

In the int8 mode the certificate bounds the logits by the norms of the activation, but evaluates
them with its quantized copy.  The two differ by at most the envelope of the row, which grows with
the scale of the activation and of the weights.  The margin has to cover the envelopes
(`HeadCert.argmax_i8k`); a margin that does not depend on the scale, like the default, lets the
certificate exclude the row of the largest logit (`argmax_i8k_misses`).

## Main definitions

* `envelope` — what quantization can add to the logit of a row.
-/

namespace FastLlm

/-- What quantization can add to the inner product of a row and an activation of `n` superblocks. -/
def envelope {K : Type} [Field K] [LinearOrder K] (w x : ℕ → K) (n : ℕ) : K :=
  ∑ b ∈ Finset.range n,
    amax 256 (off x (b * 256)) / 254 * ∑ i ∈ Finset.range 256, |w (b * 256 + i)|

/-- The q8_K blocks of an activation are those of its superblocks. -/
def QuantizedAt {K : Type} [Field K] [LinearOrder K] [FloorRing K] (m : TileMem K) (h : Loc)
    (NE : ℕ) : Prop :=
  ∀ b < NE / 256, m.xqk h NE b = quantizeQ8KBlock (off (m.col h) (b * 256))

namespace HeadCert
variable (hc : HeadCert ℝ) (bits : UInt32 → ℝ) (m : TileMem ℝ) (h : Loc)

/-- The int8 logit of a row is its inner product with the dequantized activation. -/
theorem logit_i8k (hf : hc.fmt = .Q4_K ∨ hc.fmt = .Q6_K) (hNE : 256 ∣ hc.NE)
    (hq : QuantizedAt m h hc.NE) (j : ℕ) : hc.logit bits m h .I8K j =
      ∑ e ∈ Finset.range hc.NE, hc.elem (.exact bits) m j e *
        deq8K (.exact bits) (m.xqk h hc.NE) e := by
  have hsums : ∀ b < hc.NE / 256, (m.xqk h hc.NE b).SumsOk := by
    intro b hb
    rw [hq b hb]
    exact quantizeQ8KBlock_sumsOk _
  have hdvd : blkElems hc.fmt ∣ hc.NE := by
    rcases hf with hf | hf <;> rw [hf] <;> exact hNE
  simp only [HeadMat.elem]
  rw [← dotRowAny_exact bits hc.fmt _ _ hdvd, logit, HeadMat.dotExact]
  rcases hf with hf | hf
  · rw [hf]
    exact dotI8kQ4K_exact bits _ _ hNE hsums
  · rw [hf]
    exact dotI8kQ6K_exact bits _ _ hNE hsums

/-- Quantization adds at most the envelope. -/
theorem logit_le_envelope (hf : hc.fmt = .Q4_K ∨ hc.fmt = .Q6_K) (hNE : 256 ∣ hc.NE)
    (hq : QuantizedAt m h hc.NE) (j : ℕ) : hc.logit bits m h .I8K j ≤
      (∑ e ∈ Finset.range hc.NE, hc.elem (.exact bits) m j e * m.col h e) +
        envelope (hc.elem (.exact bits) m j) (m.col h) (hc.NE / 256) := by
  obtain ⟨n, hn⟩ := hNE
  have hn' : hc.NE = n * 256 := by omega
  have hdiv : hc.NE / 256 = n := by omega
  rw [hc.logit_i8k bits m h hf ⟨n, hn⟩ hq, envelope, hdiv, hn', sum_range_mul, sum_range_mul,
    ← Finset.sum_add_distrib]
  apply Finset.sum_le_sum
  intro b hb
  have hb' : b < hc.NE / 256 := by rw [hdiv]; exact Finset.mem_range.mp hb
  rw [Finset.mul_sum, ← Finset.sum_add_distrib]
  apply Finset.sum_le_sum
  intro i hi
  have hi' := Finset.mem_range.mp hi
  set w := hc.elem (.exact bits) m j (b * 256 + i)
  have herr := quantizeQ8KBlock_error (off (m.col h) (b * 256)) hi'
  rw [← hn', deq8K_block bits _ b hi', hq b hb']
  set d := (quantizeQ8KBlock (off (m.col h) (b * 256))).d *
    ((i8 ((quantizeQ8KBlock (off (m.col h) (b * 256))).qs i) : ℤ) : ℝ)
  have hprod : w * (d - m.col h (b * 256 + i)) ≤
      amax 256 (off (m.col h) (b * 256)) / 254 * |w| := by
    calc w * (d - m.col h (b * 256 + i)) ≤ |w| * |d - m.col h (b * 256 + i)| :=
          (le_abs_self _).trans (abs_mul _ _).le
      _ ≤ |w| * (amax 256 (off (m.col h) (b * 256)) / 254) :=
          mul_le_mul_of_nonneg_left herr (abs_nonneg w)
      _ = amax 256 (off (m.col h) (b * 256)) / 254 * |w| := mul_comm _ _
  linarith

end HeadCert

/-- Zeros, as weights and as an activation. -/
def restMem (K : Type) [Field K] : TileMem K where
  byte _ := 0
  f32 _ := 0
  q81 _ := ⟨0, 0, fun _ => 0⟩
  q8K _ := ⟨0, fun _ => 0, fun _ => 0⟩
  id _ := 0

/-- Without a hint, the search stays with the best of the anchors when every other row is excluded
by its bound. -/
theorem certSearch_anchors {K : Type} [Field K] [LinearOrder K] {v bound : ℕ → K} {margin : K}
    {V : ℕ} {topn : List ℕ} {hint : Int32} (hneg : ¬ 0 ≤ hint.toInt)
    (hne : ∀ j < V, int32Of j ≠ hint) (htopn : ∀ j ∈ topn, j < V) {i : ℕ}
    (hmax : LowestMax v {j | j ∈ topn} i)
    (hskip : ∀ j < V, j ∉ topn → bound j < v i - margin) :
    certSearch v bound margin V topn hint = i := by
  have hstart : Best v ∅ (⊥, 2 ^ 32 - 1) := .none rfl rfl
  have hbest := hstart.foldl (fun j => int32Of j ≠ hint) topn
  have hset : (∅ ∪ {j | j ∈ topn ∧ int32Of j ≠ hint} : Set ℕ) = {j | j ∈ topn} := by
    ext j
    simp only [Set.empty_union, Set.mem_ofPred_eq, and_iff_left_iff_imp]
    intro hj
    exact hne j (htopn j hj)
  rw [hset] at hbest
  rw [certSearch, if_neg fun h => hneg h.1]
  set b := topn.foldl (fun b j => if int32Of j ≠ hint then offer v b j else b) (⊥, 2 ^ 32 - 1)
  obtain ⟨hlow, hval⟩ := hbest.lowestMax ⟨i, hmax.mem⟩
  obtain rfl : b.2 = i := hlow.unique hmax
  have hscan : iter V b (fun j b' => if int32Of j = hint then b'
      else if bound j < WithBot.map (· - margin) b.1 then b'
      else if j ∈ topn then b' else offer v b' j) = b := by
    apply iter_induction (P := fun _ b' => b' = b) rfl
    intro j hj b' hb'
    rw [if_neg (hne j hj)]
    by_cases hmem : j ∈ topn
    · rw [if_pos hmem, ite_self]
      exact hb'
    · have hlt : (bound j : WithBot K) < WithBot.map (· - margin) b.1 := by
        rw [hval, WithBot.map_coe, WithBot.coe_lt_coe]
        exact hskip j hj hmem
      rw [if_pos hlt]
      exact hb'
  exact congrArg Prod.snd hscan

/-- Byte `k` of row `j` of a head of rows of one superblock.  Row 64 has weights 3500, sixteen
times, and then 30; the other rows have 3503, sixteen times, and then zero. -/
def steepByte (j k : ℕ) : UInt8 :=
  if j = 64 then
    if k < 16 then 0xEC else if k < 128 then 0xEE else if k < 192 then 0xFF
    else if k = 192 then 125 else if k < 208 then 1 else if k = 208 then 0 else 0x3C
  else
    if k < 192 then 0xFF else if k = 192 then 113 else if k < 209 then 0 else 0x3C

def steepWeight (j e : ℕ) : ℤ :=
  if j = 64 then if e < 16 then 3500 else 30 else if e < 16 then 3503 else 0

/-- The head, and an activation of 127, sixteen times, and then one half, which is rounded up. -/
def steepMem (K : Type) [Field K] : TileMem K where
  byte p := steepByte (p.byte / 210) (p.byte % 210)
  f32 l := if l.off < 16 then 127 else 1 / 2
  q81 _ := ⟨0, 0, fun _ => 0⟩
  q8K _ := ⟨1, fun g => if g = 0 then 16 * 127 else 16, fun i => if i < 16 then 127 else 1⟩
  id _ := 0

def steepHead : HeadMat := ⟨.Q6_K, ⟨0, 0⟩, 210, 65, 256⟩

theorem steep_row (K : Type) [Field K] (j : ℕ) {k : ℕ} (hk : k < 210) :
    steepHead.row (steepMem K) j k = steepByte j k := by
  have h1 : (0 + j * 210 + k) / 210 = j := by omega
  have h2 : (0 + j * 210 + k) % 210 = k := by omega
  simp only [HeadMat.row, TileMem.row, steepHead, steepMem, BytePtr.add, h1, h2]

theorem steep_weight (j : ℕ) : ∀ i < 256,
    q6Scale (steepByte j) i * ((q6Weight (steepByte j) i).toNat - 32 : ℤ) = steepWeight j i := by
  by_cases hj : j = 64
  · subst hj
    decide +kernel
  · have h0 : steepByte j = steepByte 0 := by
      funext k
      simp [steepByte, hj]
    have h1 : steepWeight j = steepWeight 0 := by
      funext k
      simp [steepWeight, hj]
    rw [h0, h1]
    decide +kernel

/-- An element of a Q6_K superblock depends on the bytes of the superblock only. -/
theorem q6_congr {w w' : ℕ → UInt8} (h : ∀ k < 210, w k = w' k) {i : ℕ} (hi : i < 256) :
    q6Scale w i = q6Scale w' i ∧ q6Weight w i = q6Weight w' i := by
  constructor
  · rw [q6Scale, q6Scale, h _ (by omega)]
  · simp only [q6Weight, off_apply]
    rw [h (i / 128 * 64 + i % 32) (by omega), h (i / 128 * 64 + (i % 32 + 32)) (by omega),
      h (128 + i / 128 * 32 + i % 32) (by omega)]

/-- The elements of the head. -/
theorem steep_elem (j : ℕ) {e : ℕ} (he : e < 256) :
    steepHead.elem (.exact fun w => (f32Value w : ℝ)) (steepMem ℝ) j e = steepWeight j e := by
  have hrow : ∀ k < 210, steepHead.row (steepMem ℝ) j k = steepByte j k :=
    fun k hk => steep_row ℝ j hk
  obtain ⟨hscale, hweight⟩ := q6_congr hrow he
  have hd : le16 (steepHead.row (steepMem ℝ) j) 208 = 0x3C00 := by
    rw [le16, hrow 208 (by omega), hrow 209 (by omega)]
    by_cases hj : j = 64
    · subst hj
      decide
    · simp only [steepByte, if_neg hj]
      decide
  have hone : half2float 0x3C00 = 0x3F800000 := by decide
  have hoff : off (steepHead.row (steepMem ℝ) j) (e / 256 * 210) =
      steepHead.row (steepMem ℝ) j := by
    rw [Nat.div_eq_of_lt he, Nat.zero_mul, off_zero]
  have hval := steep_weight j e he
  change value _ .Q6_K _ e = _
  simp only [value, blkElems, blkBytes, hoff, Nat.mod_eq_of_lt he, blkValue, Arith.ofHalf, hd, hone,
    hscale, hweight, Arith.exact_mul, Arith.exact_ofInt]
  rw [show (Arith.exact fun w => (f32Value w : ℝ)).ofBits 0x3F800000 = 1 by
    simp [Arith.exact, f32Value_one], one_mul, ← Int.cast_mul, hval]

/-- A sum over a superblock whose first sixteen terms are equal, and the others. -/
theorem sum_steep (a b : ℝ) :
    ∑ i ∈ Finset.range 256, (if i < 16 then a else b) = 16 * a + 240 * b := by
  rw [show (256 : ℕ) = 16 + 240 by rfl, Finset.sum_range_add]
  have h1 : ∀ i ∈ Finset.range 16, (if i < 16 then a else b) = a := by
    intro i hi
    rw [if_pos (Finset.mem_range.mp hi)]
  have h2 : ∀ i ∈ Finset.range 240, (if 16 + i < 16 then a else b) = b := by
    intro i _
    rw [if_neg (by omega)]
  rw [Finset.sum_congr rfl h1, Finset.sum_congr rfl h2]
  simp

/-- The blocks are those of the activation: 127 has the code 127, and one half has the code 1. -/
theorem steep_quantized : QuantizedAt (steepMem ℝ) ⟨0, 0⟩ 256 := by
  intro b hb
  obtain rfl : b = 0 := by omega
  set x : ℕ → ℝ := off ((steepMem ℝ).col ⟨0, 0⟩) (0 * 256) with hxdef
  have hx (i : ℕ) : x i = if i < 16 then 127 else 1 / 2 := by
    simp [x, TileMem.col, steepMem, Loc.add]
  have hmax : amax 256 x = 127 := by
    apply le_antisymm
    · apply amax_le (by norm_num)
      intro i _
      rw [hx]
      split_ifs <;> norm_num [abs_of_pos]
    · have h0 := abs_le_amax x (by omega : 0 < 256)
      rwa [hx, if_pos (by omega), abs_of_pos (by norm_num)] at h0
  have hinv : quantInv (127 : ℝ) = 1 := by
    norm_num [quantInv]
  have hcode (i : ℕ) : toInt (quantCode 1 (x i)) = if i < 16 then 127 else 1 := by
    have h127 : ⌊(127 : ℝ)⌋ = 127 := by exact_mod_cast Int.floor_intCast (127 : ℤ)
    rw [hx]
    split_ifs
    · norm_num [quantCode, roundf, toInt, h127]
    · norm_num [quantCode, roundf, toInt]
  have hd : amax 256 x / 127 = 1 := by
    rw [hmax]
    norm_num
  change BlkQ8K.mk _ _ _ = BlkQ8K.mk _ _ _
  rw [hd, hmax, hinv]
  congr 1
  · funext g
    rw [isum_eq]
    by_cases hg : g = 0
    · subst hg
      have hterm : ∀ i ∈ Finset.range 16, toInt (quantCode 1 (x (0 * 16 + i))) = 127 := by
        intro i hi
        have := Finset.mem_range.mp hi
        rw [hcode, if_pos (by omega)]
      rw [Finset.sum_congr rfl hterm]
      decide
    · have hterm : ∀ i ∈ Finset.range 16, toInt (quantCode 1 (x (g * 16 + i))) = 1 := by
        intro i _
        rw [hcode, if_neg (by omega)]
      rw [Finset.sum_congr rfl hterm, if_neg hg]
      decide
  · funext i
    rw [toI8, hcode]
    split_ifs <;> decide

/-- The certificate of the head. -/
noncomputable def steepCert : HeadCert ℝ :=
  HeadCert.init Real.sqrt id (fun w => (f32Value w : ℝ)) (steepMem ℝ) steepHead (dvd_refl 256) 1 64

/-- Row 64 has the largest logit, but not the largest norm. -/
theorem steep_logit (j : ℕ) :
    steepCert.logit (fun w => (f32Value w : ℝ)) (steepMem ℝ) ⟨0, 0⟩ .I8K j =
      if j = 64 then 7119200 else 7118096 := by
  rw [steepCert.logit_i8k _ _ _ (.inr rfl) (dvd_refl 256) steep_quantized]
  have hterm : ∀ e ∈ Finset.range 256,
      steepHead.elem (.exact fun w => (f32Value w : ℝ)) (steepMem ℝ) j e *
        deq8K (.exact fun w => (f32Value w : ℝ)) ((steepMem ℝ).xqk ⟨0, 0⟩ 256) e =
      if e < 16 then (if j = 64 then 3500 * 127 else 3503 * 127) else if j = 64 then 30 else 0 := by
    intro e he
    have he' := Finset.mem_range.mp he
    have hdeq := deq8K_block (fun w => (f32Value w : ℝ)) ((steepMem ℝ).xqk ⟨0, 0⟩ 256) 0 he'
    rw [Nat.zero_mul, Nat.zero_add] at hdeq
    rw [steep_elem j he', hdeq]
    simp only [TileMem.xqk, steepMem, steepWeight, one_mul]
    have h127 : i8 127 = 127 := by decide
    have h1 : i8 1 = 1 := by decide
    split_ifs <;> simp [h127, h1]
  refine (Finset.sum_congr rfl hterm).trans ?_
  rw [sum_steep]
  split_ifs <;> norm_num

/-- The square of the norm of a row. -/
theorem steep_norm (j : ℕ) : ∑ e ∈ Finset.range 256,
    steepHead.elem (.exact fun w => (f32Value w : ℝ)) (steepMem ℝ) j e ^ 2 =
      if j = 64 then 196216000 else 196336144 := by
  have hterm : ∀ e ∈ Finset.range 256,
      steepHead.elem (.exact fun w => (f32Value w : ℝ)) (steepMem ℝ) j e ^ 2 =
      if e < 16 then (if j = 64 then 3500 ^ 2 else 3503 ^ 2) else if j = 64 then 30 ^ 2 else 0 := by
    intro e he
    rw [steep_elem j (Finset.mem_range.mp he), steepWeight]
    split_ifs <;> norm_num
  rw [Finset.sum_congr rfl hterm, sum_steep]
  split_ifs <;> norm_num

/-- The anchors are the other rows. -/
theorem steep_topn : steepCert.topn = List.range 64 := by
  have hwidth : segWidth (blkElems steepHead.fmt) steepHead.NE = 256 := by decide
  have hone : steepHead.NE / 256 = 1 := by decide
  have hlt : 64 < steepHead.V.toNat := by decide
  have hV : steepHead.V.toNat = 64 + 1 := by decide
  simp only [steepCert, HeadCert.init, hwidth, hone, iter_one, zero_add, if_pos hlt]
  rw [hV, List.mergeSort_of_pairwise]
  · rw [List.range_succ, List.take_left' List.length_range]
  · apply List.pairwise_lt_range.imp_of_mem
    intro a b _ hb hab
    have hb' := List.mem_range.mp hb
    rw [decide_eq_true_eq]
    apply Real.sqrt_le_sqrt
    rw [HeadMat.sum_segValues _ _ (by decide) (dvd_refl 256),
      HeadMat.sum_segValues _ _ (by decide) (dvd_refl 256)]
    simp only [Nat.zero_mul, Nat.zero_add, steep_norm]
    rw [if_neg (by omega : a ≠ 64)]
    split_ifs <;> norm_num

/-- The bound of row 64 stays below the logit of the anchors. -/
theorem steep_bound : steepCert.bound Real.sqrt (steepMem ℝ) ⟨0, 0⟩ 64 < 7118096 - 1 := by
  have hnorm : steepCert.wn 64 0 = √196216000 := by
    change √_ = _
    rw [HeadMat.sum_segValues _ _ (by decide) (by decide)]
    change √(∑ e ∈ Finset.range 256, _) = _
    simp only [Nat.zero_mul, Nat.zero_add]
    rw [steep_norm, if_pos rfl]
  have hact : segNorm Real.sqrt 256 ((steepMem ℝ).col ⟨0, 0⟩) 0 = √258124 := by
    have hterm : ∀ i ∈ Finset.range 256, (steepMem ℝ).col ⟨0, 0⟩ (0 * 256 + i) ^ 2 =
        if i < 16 then 127 ^ 2 else (1 / 2) ^ 2 := by
      intro i _
      simp only [TileMem.col, steepMem, Loc.add, Nat.zero_mul, Nat.zero_add]
      split_ifs <;> rfl
    rw [segNorm_eq, Finset.sum_congr rfl hterm, sum_steep]
    norm_num
  change iter 1 0 _ < _
  rw [iter_one, zero_add, hnorm]
  change √196216000 * segNorm Real.sqrt 256 ((steepMem ℝ).col ⟨0, 0⟩) 0 < _
  rw [hact, ← Real.sqrt_mul (by norm_num), Real.sqrt_lt' (by norm_num)]
  norm_num

end FastLlm
