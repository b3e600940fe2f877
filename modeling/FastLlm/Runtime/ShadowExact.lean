import FastLlm.Runtime.Shadow
import Mathlib.Data.List.Range
import Mathlib.Data.Nat.Bitwise
import Mathlib.Tactic.IntervalCases

/-!
# A shadow determines the weights it was made from

Building in parallel builds the whole shadow, and nothing is lost on the way from the packed
bytes to the shadow: the half-precision scales become floats one to one, and every bit of the
packed integers has its place.  So two tensors of one format and shape have the same shadow only
if they are the same bytes.

## Main definitions

* `ShadowTensorDesc.buildParallel_eq` — the threads' chunks make the whole.
* `ShadowTensorDesc.shadow_inj` — the shadow determines the packed bytes.
-/

namespace FastLlm

/-! ## Chunks -/

theorem flatMap_range_add {α : Type} (f : ℕ → List α) (a b : ℕ) :
    (List.range (a + b)).flatMap f =
      (List.range a).flatMap f ++ (List.range b).flatMap fun i => f (a + i) := by
  rw [List.range_add, List.flatMap_append, List.flatMap_map]

theorem blockAt_add (p : ℕ → UInt8) (nb bytes a r b : ℕ) :
    blockAt p nb bytes (a + r) b = blockAt (fun i => p (a * (nb * bytes) + i)) nb bytes r b := by
  funext i
  simp only [blockAt, Nat.add_mul, Nat.add_assoc]

theorem buildRowsQ4k_add (p : ℕ → UInt8) (a b cols : ℕ) :
    buildRowsQ4k p (a + b) cols = buildRowsQ4k p a cols ++
      buildRowsQ4k (fun i => p (a * (cols / 256 * 144) + i)) b cols := by
  simp only [buildRowsQ4k, flatMap_range_add, blockAt_add]

theorem buildRowsQ50_add (p : ℕ → UInt8) (a b cols : ℕ) :
    buildRowsQ50 p (a + b) cols = buildRowsQ50 p a cols ++
      buildRowsQ50 (fun i => p (a * (cols / 32 * 22) + i)) b cols := by
  simp only [buildRowsQ50, flatMap_range_add, blockAt_add]

/-- An even number of rows is a number of pairs. -/
theorem buildRowsQ4kSmmla_add (p : ℕ → UInt8) {a : ℕ} (b cols : ℕ) (ha : a % 2 = 0) :
    buildRowsQ4kSmmla p (a + b) cols = buildRowsQ4kSmmla p a cols ++
      buildRowsQ4kSmmla (fun i => p (a * (cols / 256 * 144) + i)) b cols := by
  obtain ⟨k, rfl⟩ : ∃ k, a = k * 2 := ⟨a / 2, by omega⟩
  have hsplit : (k * 2 + b + 1) / 2 = (k * 2 + 1) / 2 + (b + 1) / 2 := by omega
  have hhalf : (k * 2 + 1) / 2 = k := by omega
  simp only [buildRowsQ4kSmmla, hsplit, flatMap_range_add, hhalf]
  simp only [Nat.add_mul, Nat.add_assoc, blockAt_add p _ _ (k * 2)]

namespace ShadowTensorDesc

variable (t : ShadowTensorDesc)

/-- The builders work chunk by chunk, whole pairs of rows at a time. -/
theorem buildRows_add (hfmt : t.fmt = .Q4_K ∨ t.fmt = .Q5_0) (smmla : Bool) (p : ℕ → UInt8)
    {a : ℕ} (b : ℕ) (ha : a % 2 = 0) :
    t.buildRows smmla p (a + b) = t.buildRows smmla p a ++
      t.buildRows smmla (fun i => p (a * rowBytes t.fmt t.cols.toNat + i)) b := by
  rcases hfmt with hfmt | hfmt
  · have hrow : rowBytes t.fmt t.cols.toNat = t.cols.toNat / 256 * 144 := by rw [hfmt]; rfl
    rw [hrow]
    simp only [buildRows, hfmt, if_true]
    cases smmla with
    | false => exact buildRowsQ4k_add p a b _
    | true => exact buildRowsQ4kSmmla_add p b _ ha
  · have hrow : rowBytes t.fmt t.cols.toNat = t.cols.toNat / 32 * 22 := by rw [hfmt]; rfl
    rw [hrow]
    simp only [buildRows, hfmt]
    exact buildRowsQ50_add p a b _

theorem buildRows_zero (smmla : Bool) (p : ℕ → UInt8) : t.buildRows smmla p 0 = [] := by
  unfold buildRows
  split_ifs <;> rfl

theorem packed_add (a b : ℕ) : (fun i => t.packed a (b + i)) = t.packed (a + b) := by
  funext i
  rw [packed, packed, Nat.add_assoc]

/-- The threads' chunks make the whole shadow. -/
theorem buildParallel_eq (hfmt : t.fmt = .Q4_K ∨ t.fmt = .Q5_0) (hw : ℕ) (smmla : Bool) :
    t.buildParallel hw smmla = t.shadow smmla := by
  unfold buildParallel
  set nt := max 2 hw - 1 with hnt
  set chunk₀ := (t.rowsTotal.toNat + nt - 1) / nt with hchunk₀
  set chunk := chunk₀ + chunk₀ % 2 with hchunk
  have heven : chunk % 2 = 0 := by omega
  have hpos : 0 < nt := by omega
  -- the first `k` threads build the first `k` chunks
  have hprefix : ∀ k, ((List.range k).flatMap fun i =>
      if i * chunk ≥ t.rowsTotal.toNat then []
      else t.buildRows smmla (t.packed (i * chunk * rowBytes t.fmt t.cols.toNat))
        (min chunk (t.rowsTotal.toNat - i * chunk))) =
      t.buildRows smmla (t.packed 0) (min (k * chunk) t.rowsTotal.toNat) := by
    intro k
    induction k with
    | zero => rw [Nat.zero_mul, Nat.zero_min, buildRows_zero]; rfl
    | succ k ih =>
      rw [List.range_succ, List.flatMap_append, ih, List.flatMap_singleton]
      split_ifs with hend
      · rw [List.append_nil, Nat.min_eq_right hend,
          Nat.min_eq_right (hend.trans (Nat.mul_le_mul_right _ (Nat.le_succ k)))]
      · have hsucc : min ((k + 1) * chunk) t.rowsTotal.toNat =
            k * chunk + min chunk (t.rowsTotal.toNat - k * chunk) := by
          rw [Nat.succ_mul]
          omega
        have hmul : k * chunk % 2 = 0 := by rw [Nat.mul_mod, heven, Nat.mul_zero, Nat.zero_mod]
        rw [Nat.min_eq_left (by omega), hsucc, t.buildRows_add hfmt smmla _ _ hmul, packed_add,
          Nat.zero_add]
  have hcover : t.rowsTotal.toNat ≤ nt * chunk := by
    have hle : chunk₀ ≤ chunk := Nat.le_add_right _ _
    have hceil : t.rowsTotal.toNat ≤ nt * chunk₀ := by
      have hdiv := Nat.div_add_mod (t.rowsTotal.toNat + nt - 1) nt
      have hmod := Nat.mod_lt (t.rowsTotal.toNat + nt - 1) hpos
      rw [← hchunk₀] at hdiv
      omega
    exact hceil.trans (Nat.mul_le_mul_left _ hle)
  have hall := hprefix nt
  rw [Nat.min_eq_right hcover] at hall
  exact hall

end ShadowTensorDesc

/-! ## Scales -/

namespace half2float

/-- The bits of the float without its sign. -/
def magnitude (em : UInt32) : UInt32 :=
  if em ≥ 0x7C00 then (0x7F800000 : UInt32) ||| ((em &&& 0x03FF) <<< 13)
  else if em ≥ 0x0400 then (em + 0x1C000) <<< 13
  else if em = 0 then 0
  else
    let (m, e) := renormalize 10 em (-1)
    ((112 - e) <<< 23) ||| ((m &&& 0x03FF) <<< 13)

theorem eq_or (h : UInt16) : half2float h =
    ((h &&& 0x8000).toUInt32 <<< 16) ||| magnitude (h &&& 0x7FFF).toUInt32 := by
  unfold half2float magnitude
  dsimp only
  split_ifs
  · rw [UInt32.or_assoc]
  · rfl
  · exact UInt32.or_zero.symm
  · rw [UInt32.or_assoc]

theorem toNat_ofNat_of_lt {n : ℕ} (h : n < 0x8000) : (UInt32.ofNat n).toNat = n := by
  rw [UInt32.toNat_ofNat']
  omega

/-- Infinities and NaNs keep their mantissa. -/
theorem magnitude_of_inf {n : ℕ} (h : 0x7C00 ≤ n) (h' : n < 0x8000) :
    (magnitude (UInt32.ofNat n)).toNat = 0x7F800000 + (n - 0x7C00) * 8192 := by
  have hn := toNat_ofNat_of_lt h'
  have hge : UInt32.ofNat n ≥ 0x7C00 := by
    rw [ge_iff_le, UInt32.le_iff_toNat_le, hn]
    exact h
  have hand : n &&& 1023 = n - 0x7C00 := by
    rw [Nat.and_two_pow_sub_one_eq_mod n 10]
    omega
  have hshift : (n - 0x7C00) <<< 13 % 2 ^ 32 = (n - 0x7C00) * 8192 := by
    rw [Nat.shiftLeft_eq]
    omega
  have hor := Nat.two_pow_add_eq_or_of_lt (i := 23) (b := (n - 0x7C00) * 8192) (by omega) 255
  rw [magnitude, if_pos hge]
  simp only [UInt32.toNat_or, UInt32.toNat_shiftLeft, UInt32.toNat_and, hn]
  show 2 ^ 23 * 255 ||| ((n &&& 1023) <<< 13 % 2 ^ 32) = _
  rw [hand, hshift, ← hor]

/-- Normal numbers get the bias of the wider exponent. -/
theorem magnitude_of_normal {n : ℕ} (h : 0x400 ≤ n) (h' : n < 0x7C00) :
    (magnitude (UInt32.ofNat n)).toNat = (n + 0x1C000) * 8192 := by
  have hn := toNat_ofNat_of_lt (n := n) (by omega)
  have hlt : ¬ UInt32.ofNat n ≥ 0x7C00 := by
    rw [ge_iff_le, UInt32.le_iff_toNat_le, hn]
    exact Nat.not_le.2 h'
  have hge : UInt32.ofNat n ≥ 0x0400 := by
    rw [ge_iff_le, UInt32.le_iff_toNat_le, hn]
    exact h
  rw [magnitude, if_neg hlt, if_pos hge, UInt32.toNat_shiftLeft, UInt32.toNat_add, hn]
  show ((n + 0x1C000) % 2 ^ 32) <<< 13 % 2 ^ 32 = _
  rw [Nat.shiftLeft_eq]
  omega

/-- The 1023 subnormal numbers ascend, up to the first normal one. -/
theorem magnitude_lt_succ_of_subnormal : ∀ n < 0x400,
    (magnitude (UInt32.ofNat n)).toNat < (magnitude (UInt32.ofNat (n + 1))).toNat := by
  decide +kernel

theorem magnitude_lt_succ {n : ℕ} (h : n + 1 < 0x8000) :
    (magnitude (UInt32.ofNat n)).toNat < (magnitude (UInt32.ofNat (n + 1))).toNat := by
  rcases Nat.lt_or_ge n 0x400 with hsub | hnorm
  · exact magnitude_lt_succ_of_subnormal n hsub
  · rcases Nat.lt_or_ge (n + 1) 0x7C00 with hlt | hge
    · rw [magnitude_of_normal hnorm (by omega), magnitude_of_normal (by omega) hlt]
      omega
    · rcases Nat.lt_or_ge n 0x7C00 with hlt' | hge'
      · rw [magnitude_of_normal hnorm hlt', magnitude_of_inf hge h]
        omega
      · rw [magnitude_of_inf hge' (by omega), magnitude_of_inf hge h]
        omega

theorem magnitude_lt {m n : ℕ} (hmn : m < n) (hn : n < 0x8000) :
    (magnitude (UInt32.ofNat m)).toNat < (magnitude (UInt32.ofNat n)).toNat := by
  induction n with
  | zero => exact absurd hmn (Nat.not_lt_zero m)
  | succ n ih =>
    have hstep := magnitude_lt_succ hn
    rcases Nat.lt_succ_iff_lt_or_eq.1 hmn with hlt | rfl
    · exact (ih hlt (by omega)).trans hstep
    · exact hstep

theorem magnitude_toNat_lt {n : ℕ} (h : n < 0x8000) :
    (magnitude (UInt32.ofNat n)).toNat < 2 ^ 31 := by
  have htop : (magnitude (UInt32.ofNat 0x7FFF)).toNat < 2 ^ 31 := by
    rw [magnitude_of_inf (by decide) (by decide)]
    decide
  rcases Nat.lt_or_eq_of_le (Nat.lt_succ_iff.1 h) with hlt | rfl
  · exact (magnitude_lt hlt (by decide)).trans htop
  · exact htop

theorem toNat_eq (h : UInt16) : (half2float h).toNat =
    h.toNat / 0x8000 * 2 ^ 31 + (magnitude (UInt32.ofNat (h.toNat % 0x8000))).toNat := by
  have hlt := h.toNat_lt
  have hem : (h &&& 0x7FFF).toUInt32 = UInt32.ofNat (h.toNat % 0x8000) := by
    apply UInt32.toNat_inj.1
    rw [toNat_ofNat_of_lt (Nat.mod_lt _ (by decide)), UInt16.toNat_toUInt32, UInt16.toNat_and]
    exact Nat.and_two_pow_sub_one_eq_mod h.toNat 15
  have hsign : ((h &&& 0x8000).toUInt32 <<< 16).toNat = 2 ^ 31 * (h.toNat / 0x8000) := by
    have hand : h.toNat &&& 0x8000 = h.toNat / 0x8000 * 2 ^ 15 := by
      have htwo := Nat.and_two_pow h.toNat 15
      rw [Nat.toNat_testBit] at htwo
      have hbit : h.toNat / 2 ^ 15 % 2 = h.toNat / 0x8000 := by omega
      rwa [hbit] at htwo
    rw [UInt32.toNat_shiftLeft, UInt16.toNat_toUInt32, UInt16.toNat_and]
    show (h.toNat &&& 0x8000) <<< 16 % 2 ^ 32 = _
    rw [hand, Nat.shiftLeft_eq]
    omega
  have hmag := magnitude_toNat_lt (Nat.mod_lt h.toNat (show 0 < 0x8000 by decide))
  rw [eq_or, UInt32.toNat_or, hsign, hem, ← Nat.two_pow_add_eq_or_of_lt hmag, Nat.mul_comm]

/-- Half-precision numbers become floats one to one. -/
theorem inj {h h' : UInt16} (heq : half2float h = half2float h') : h = h' := by
  have hnat := congrArg UInt32.toNat heq
  rw [toNat_eq, toNat_eq] at hnat
  have hm := Nat.mod_lt h.toNat (show 0 < 0x8000 by decide)
  have hm' := Nat.mod_lt h'.toNat (show 0 < 0x8000 by decide)
  have hb := magnitude_toNat_lt hm
  have hb' := magnitude_toNat_lt hm'
  have hmag : (magnitude (UInt32.ofNat (h.toNat % 0x8000))).toNat =
      (magnitude (UInt32.ofNat (h'.toNat % 0x8000))).toNat := by omega
  apply UInt16.toNat_inj.1
  rcases Nat.lt_trichotomy (h.toNat % 0x8000) (h'.toNat % 0x8000) with hlt | hlow | hgt
  · exact absurd hmag (magnitude_lt hlt hm').ne
  · omega
  · exact absurd hmag (magnitude_lt hgt hm).ne'

end half2float

theorem floatBytes_inj {h h' : UInt16} (heq : floatBytes h = floatBytes h') : h = h' :=
  half2float.inj <| UInt32.toNat_inj.1 <|
    leBytes_inj (half2float h).toNat_lt (half2float h').toNat_lt heq

theorem le16_inj {w w' : ℕ → UInt8} {o : ℕ} (h : le16 w o = le16 w' o) :
    w o = w' o ∧ w (o + 1) = w' (o + 1) := by
  have hlt : ∀ v : ℕ → UInt8, leNat [v o, v (o + 1)] < 2 ^ 16 := by
    intro v
    have h0 := (v o).toNat_lt
    have h1 := (v (o + 1)).toNat_lt
    simp only [leNat]
    omega
  have hnat := congrArg UInt16.toNat h
  rw [le16, le16, UInt16.toNat_ofNat_of_lt' (hlt w), UInt16.toNat_ofNat_of_lt' (hlt w')] at hnat
  have hlist := leNat_inj (by rfl) hnat
  exact ⟨(List.cons.inj hlist).1, (List.cons.inj (List.cons.inj hlist).2).1⟩

theorem le32_inj {w w' : ℕ → UInt8} {o : ℕ} (h : le32 w o = le32 w' o) :
    ∀ i < 4, w (o + i) = w' (o + i) := by
  have hlt : ∀ v : ℕ → UInt8, leNat [v o, v (o + 1), v (o + 2), v (o + 3)] < 2 ^ 32 := by
    intro v
    have h0 := (v o).toNat_lt
    have h1 := (v (o + 1)).toNat_lt
    have h2 := (v (o + 2)).toNat_lt
    have h3 := (v (o + 3)).toNat_lt
    simp only [leNat]
    omega
  have hnat := congrArg UInt32.toNat h
  rw [le32, le32, UInt32.toNat_ofNat_of_lt' (hlt w), UInt32.toNat_ofNat_of_lt' (hlt w')] at hnat
  have hlist := leNat_inj (by rfl) hnat
  simp only [List.cons.injEq] at hlist
  intro i hi
  interval_cases i
  · exact hlist.1
  · exact hlist.2.1
  · exact hlist.2.2.1
  · exact hlist.2.2.2.1

/-! ## Integers -/

section bits

variable (a b : UInt8)

theorem toNat_and_63 : (a &&& 63).toNat = a.toNat % 64 := by
  rw [UInt8.toNat_and]
  exact Nat.and_two_pow_sub_one_eq_mod a.toNat 6

theorem toNat_and_15 : (a &&& 15).toNat = a.toNat % 16 := by
  rw [UInt8.toNat_and]
  exact Nat.and_two_pow_sub_one_eq_mod a.toNat 4

theorem toNat_shiftRight_4 : (a >>> 4).toNat = a.toNat / 16 := by
  rw [UInt8.toNat_shiftRight]
  exact Nat.shiftRight_eq_div_pow a.toNat 4

/-- The two high bits of a byte, in the place where the packed scales keep them. -/
theorem toNat_high : ((a >>> 6) <<< 4).toNat = 2 ^ 4 * (a.toNat / 64) := by
  have hlt := a.toNat_lt
  rw [UInt8.toNat_shiftLeft, UInt8.toNat_shiftRight]
  show (a.toNat >>> 6) <<< 4 % 2 ^ 8 = _
  rw [Nat.shiftRight_eq_div_pow, Nat.shiftLeft_eq]
  omega

theorem toNat_or_high (hb : b.toNat < 16) :
    (b ||| ((a >>> 6) <<< 4)).toNat = 16 * (a.toNat / 64) + b.toNat := by
  rw [UInt8.toNat_or, toNat_high, Nat.or_comm]
  exact (Nat.two_pow_add_eq_or_of_lt (i := 4) hb _).symm

theorem toNat_or_bit (x : UInt32) (hb : b.toNat < 16) :
    (b ||| (x &&& 0x10).toUInt8).toNat = 16 * (x.toNat / 16 % 2) + b.toNat := by
  have hx : (x &&& 0x10).toUInt8.toNat = 2 ^ 4 * (x.toNat / 16 % 2) := by
    have htwo := Nat.and_two_pow x.toNat 4
    rw [Nat.toNat_testBit] at htwo
    rw [UInt32.toNat_toUInt8, UInt32.toNat_and]
    show (x.toNat &&& 2 ^ 4) % 2 ^ 8 = _
    rw [htwo]
    omega
  rw [UInt8.toNat_or, hx, Nat.or_comm]
  exact (Nat.two_pow_add_eq_or_of_lt (i := 4) hb _).symm

end bits

theorem q4kScale_inj {s s' : ℕ → UInt8} (hd : ∀ j < 8, q4kScale s j = q4kScale s' j)
    (hm : ∀ j < 8, q4kMin s j = q4kMin s' j) : ∀ i < 12, s i = s' i := by
  -- byte `j` of the first eight has six bits of one value and two of another
  have hscale : ∀ (v : ℕ → UInt8) (j : ℕ), j < 4 →
      (q4kScale v j).toNat = (v j).toNat % 64 ∧
        (q4kScale v (j + 4)).toNat = 16 * ((v j).toNat / 64) + (v (j + 8)).toNat % 16 := by
    intro v j hj
    constructor
    · rw [q4kScale, if_pos hj, toNat_and_63]
    · rw [q4kScale, if_neg (by omega), Nat.add_sub_cancel,
        toNat_or_high _ _ (by rw [toNat_and_15]; omega), toNat_and_15]
  have hmin : ∀ (v : ℕ → UInt8) (j : ℕ), j < 4 →
      (q4kMin v j).toNat = (v (j + 4)).toNat % 64 ∧
        (q4kMin v (j + 4)).toNat = 16 * ((v (j + 4)).toNat / 64) + (v (j + 8)).toNat / 16 := by
    intro v j hj
    constructor
    · rw [q4kMin, if_pos hj, toNat_and_63]
    · have hlt := (v (j + 4 + 4)).toNat_lt
      rw [q4kMin, if_neg (by omega),
        toNat_or_high _ _ (by rw [toNat_shiftRight_4]; omega), toNat_shiftRight_4]
  have hall : ∀ j < 4, s j = s' j ∧ s (j + 4) = s' (j + 4) ∧ s (j + 8) = s' (j + 8) := by
    intro j hj
    have hd0 := congrArg UInt8.toNat (hd j (by omega))
    have hd4 := congrArg UInt8.toNat (hd (j + 4) (by omega))
    have hm0 := congrArg UInt8.toNat (hm j (by omega))
    have hm4 := congrArg UInt8.toNat (hm (j + 4) (by omega))
    rw [(hscale s j hj).1, (hscale s' j hj).1] at hd0
    rw [(hscale s j hj).2, (hscale s' j hj).2] at hd4
    rw [(hmin s j hj).1, (hmin s' j hj).1] at hm0
    rw [(hmin s j hj).2, (hmin s' j hj).2] at hm4
    have h8 := (s (j + 8)).toNat_lt
    have h8' := (s' (j + 8)).toNat_lt
    refine ⟨UInt8.toNat_inj.1 ?_, UInt8.toNat_inj.1 ?_, UInt8.toNat_inj.1 ?_⟩
    · omega
    · omega
    · omega
  intro i hi
  rcases Nat.lt_or_ge i 4 with h4 | h4
  · exact (hall i h4).1
  · rcases Nat.lt_or_ge i 8 with h8 | h8
    · have := (hall (i - 4) (by omega)).2.1
      rwa [Nat.sub_add_cancel h4] at this
    · have := (hall (i - 8) (by omega)).2.2
      rwa [Nat.sub_add_cancel h8] at this

/-- The two nibbles of a byte are two weights of its chunk. -/
theorem q4kWeight_inj {w w' : ℕ → UInt8} (h : ∀ i < 256, q4kWeight w i = q4kWeight w' i) :
    ∀ i < 128, w (16 + i) = w' (16 + i) := by
  have hlow : ∀ (v : ℕ → UInt8) (c i : ℕ), i < 32 →
      (q4kWeight v (c * 64 + i)).toNat = (v (16 + c * 32 + i)).toNat % 16 := by
    intro v c i hi
    have hdiv : (c * 64 + i) / 64 = c := by omega
    have hmod : (c * 64 + i) % 64 = i := by omega
    simp only [q4kWeight, hdiv, hmod, if_pos hi, toNat_and_15]
  have hhigh : ∀ (v : ℕ → UInt8) (c i : ℕ), i < 32 →
      (q4kWeight v (c * 64 + 32 + i)).toNat = (v (16 + c * 32 + i)).toNat / 16 := by
    intro v c i hi
    have hdiv : (c * 64 + 32 + i) / 64 = c := by omega
    have hmod : (c * 64 + 32 + i) % 64 = 32 + i := by omega
    simp only [q4kWeight, hdiv, hmod, if_neg (show ¬ 32 + i < 32 by omega),
      Nat.add_sub_cancel_left, toNat_shiftRight_4]
  intro i hi
  have hsplit : 16 + i = 16 + i / 32 * 32 + i % 32 := by omega
  have hmod : i % 32 < 32 := Nat.mod_lt i (by decide)
  have h0 := congrArg UInt8.toNat (h (i / 32 * 64 + i % 32) (by omega))
  have h1 := congrArg UInt8.toNat (h (i / 32 * 64 + 32 + i % 32) (by omega))
  rw [hlow w _ _ hmod, hlow w' _ _ hmod] at h0
  rw [hhigh w _ _ hmod, hhigh w' _ _ hmod] at h1
  rw [hsplit]
  apply UInt8.toNat_inj.1
  omega

theorem q50Weight_inj {w w' : ℕ → UInt8} (h : ∀ i < 32, q50Weight w i = q50Weight w' i) :
    ∀ i < 20, w (2 + i) = w' (2 + i) := by
  have hlow : ∀ (v : ℕ → UInt8) (j : ℕ), j < 16 → (q50Weight v j).toNat =
      16 * ((le32 v 2).toNat / 2 ^ j % 2) + (v (6 + j)).toNat % 16 := by
    intro v j hj
    have hshift : (((le32 v 2) >>> UInt32.ofNat j) <<< 4).toNat / 16 % 2 =
        (le32 v 2).toNat / 2 ^ j % 2 := by
      have hj' : (UInt32.ofNat j).toNat % 32 = j := by rw [UInt32.toNat_ofNat']; omega
      rw [UInt32.toNat_shiftLeft, UInt32.toNat_shiftRight, hj', Nat.shiftRight_eq_div_pow]
      show (_ <<< 4) % 2 ^ 32 / 16 % 2 = _
      rw [Nat.shiftLeft_eq]
      omega
    simp only [q50Weight, if_pos hj]
    rw [toNat_or_bit _ _ (by rw [toNat_and_15]; omega), hshift, toNat_and_15]
  have hhigh : ∀ (v : ℕ → UInt8) (j : ℕ), j < 16 → (q50Weight v (16 + j)).toNat =
      16 * ((le32 v 2).toNat / 2 ^ (16 + j) % 2) + (v (6 + j)).toNat / 16 := by
    intro v j hj
    have hlt := (v (6 + j)).toNat_lt
    have hshift : ((le32 v 2) >>> UInt32.ofNat (j + 12)).toNat / 16 =
        (le32 v 2).toNat / 2 ^ (16 + j) := by
      have hj' : (UInt32.ofNat (j + 12)).toNat % 32 = j + 12 := by
        rw [UInt32.toNat_ofNat']
        omega
      rw [UInt32.toNat_shiftRight, hj', Nat.shiftRight_eq_div_pow, Nat.div_div_eq_div_mul]
      have hpow : 2 ^ (j + 12) * 16 = 2 ^ (16 + j) := by
        rw [show 16 + j = j + 12 + 4 by omega, pow_add _ (j + 12) 4]
        rfl
      rw [hpow]
    simp only [q50Weight, if_neg (show ¬ 16 + j < 16 by omega), Nat.add_sub_cancel_left]
    rw [toNat_or_bit _ _ (by rw [toNat_shiftRight_4]; omega), hshift, toNat_shiftRight_4]
  -- one weight gives the low nibble and a bit of `qh`, the other the high nibble and a bit
  have hall : ∀ j < 16, w (6 + j) = w' (6 + j) ∧
      (le32 w 2).toNat / 2 ^ j % 2 = (le32 w' 2).toNat / 2 ^ j % 2 ∧
      (le32 w 2).toNat / 2 ^ (16 + j) % 2 = (le32 w' 2).toNat / 2 ^ (16 + j) % 2 := by
    intro j hj
    have h0 := congrArg UInt8.toNat (h j (by omega))
    have h1 := congrArg UInt8.toNat (h (16 + j) (by omega))
    rw [hlow w j hj, hlow w' j hj] at h0
    rw [hhigh w j hj, hhigh w' j hj] at h1
    have hlt := (w (6 + j)).toNat_lt
    have hlt' := (w' (6 + j)).toNat_lt
    refine ⟨UInt8.toNat_inj.1 ?_, ?_, ?_⟩
    · omega
    · omega
    · omega
  have hqh : le32 w 2 = le32 w' 2 := by
    apply UInt32.toNat_inj.1
    apply Nat.eq_of_testBit_eq
    intro i
    rw [Nat.testBit_eq_decide_div_mod_eq, Nat.testBit_eq_decide_div_mod_eq]
    rcases Nat.lt_or_ge i 32 with hi | hi
    · rcases Nat.lt_or_ge i 16 with hi' | hi'
      · rw [(hall i hi').2.1]
      · have hbit := (hall (i - 16) (by omega)).2.2
        rw [Nat.add_sub_cancel' hi'] at hbit
        rw [hbit]
    · have hpow : 2 ^ 32 ≤ 2 ^ i := Nat.pow_le_pow_right (by decide) hi
      rw [Nat.div_eq_of_lt ((le32 w 2).toNat_lt.trans_le hpow),
        Nat.div_eq_of_lt ((le32 w' 2).toNat_lt.trans_le hpow)]
  intro i hi
  rcases Nat.lt_or_ge i 4 with h4 | h4
  · exact le32_inj hqh i h4
  · have hbyte := (hall (i - 4) (by omega)).1
    rwa [show 6 + (i - 4) = 2 + i by omega] at hbyte

/-! ## Blocks and tensors -/

theorem map_range_inj {α : Type} {n : ℕ} {f g : ℕ → α}
    (h : (List.range n).map f = (List.range n).map g) : ∀ i < n, f i = g i := by
  intro i hi
  exact List.map_eq_map_iff.1 h i (List.mem_range.2 hi)

/-- Pieces of one length can be told apart in what they make up. -/
theorem flatMap_range_inj {α : Type} {n : ℕ} {f g : ℕ → List α}
    (hlen : ∀ i, (f i).length = (g i).length)
    (h : (List.range n).flatMap f = (List.range n).flatMap g) : ∀ i < n, f i = g i := by
  induction n with
  | zero =>
    intro i hi
    exact absurd hi (Nat.not_lt_zero i)
  | succ n ih =>
    rw [List.range_succ, List.flatMap_append, List.flatMap_append, List.flatMap_singleton,
      List.flatMap_singleton] at h
    obtain ⟨hinit, hlast⟩ := List.append_inj' h (hlen n)
    intro i hi
    rcases Nat.lt_succ_iff_lt_or_eq.1 hi with hlt | rfl
    · exact ih hinit i hlt
    · exact hlast

theorem length_flatMap_range {α : Type} {n k : ℕ} {f : ℕ → List α}
    (hlen : ∀ i, (f i).length = k) : ((List.range n).flatMap f).length = n * k := by
  induction n with
  | zero => rw [Nat.zero_mul]; rfl
  | succ n ih =>
    rw [List.range_succ, List.flatMap_append, List.length_append, ih, List.flatMap_singleton,
      hlen, Nat.succ_mul]

@[simp] theorem length_floatBytes (h : UInt16) : (floatBytes h).length = 4 := length_leBytes 4 _

@[simp] theorem length_q4kHeader (w : ℕ → UInt8) : (q4kHeader w).length = 24 := by
  simp [q4kHeader]

@[simp] theorem length_q4kBlock (w : ℕ → UInt8) : (q4kBlock w).length = 280 := by
  simp [q4kBlock]

@[simp] theorem length_q4kPair (w₀ w₁ : ℕ → UInt8) : (q4kPair w₀ w₁).length = 560 := by
  rw [q4kPair, List.length_append, List.length_append, length_q4kHeader, length_q4kHeader,
    length_flatMap_range (k := 16) (by simp)]

@[simp] theorem length_q50Block (w : ℕ → UInt8) : (q50Block w).length = 40 := by
  simp [q50Block]

theorem q4kHeader_inj {w w' : ℕ → UInt8} (h : q4kHeader w = q4kHeader w') :
    ∀ i < 16, w i = w' i := by
  obtain ⟨h, hmin⟩ := List.append_inj' h (by simp)
  obtain ⟨h, hscale⟩ := List.append_inj' h (by simp)
  obtain ⟨hd, hdmin⟩ := List.append_inj' h (by simp)
  have hd := le16_inj (floatBytes_inj hd)
  have hdmin := le16_inj (floatBytes_inj hdmin)
  have hscales := q4kScale_inj (map_range_inj hscale) (map_range_inj hmin)
  intro i hi
  rcases Nat.lt_or_ge i 4 with h4 | h4
  · interval_cases i
    · exact hd.1
    · exact hd.2
    · exact hdmin.1
    · exact hdmin.2
  · have hbyte := hscales (i - 4) (by omega)
    rwa [Nat.add_sub_cancel' h4] at hbyte

/-- The header and the weights of a superblock are all of it. -/
theorem q4k_inj {w w' : ℕ → UInt8} (hheader : q4kHeader w = q4kHeader w')
    (hweights : ∀ i < 256, q4kWeight w i = q4kWeight w' i) : ∀ i < 144, w i = w' i := by
  intro i hi
  rcases Nat.lt_or_ge i 16 with h | h
  · exact q4kHeader_inj hheader i h
  · have hbyte := q4kWeight_inj hweights (i - 16) (by omega)
    rwa [Nat.add_sub_cancel' h] at hbyte

theorem q4kBlock_inj {w w' : ℕ → UInt8} (h : q4kBlock w = q4kBlock w') :
    ∀ i < 144, w i = w' i := by
  obtain ⟨hheader, hweights⟩ := List.append_inj h (by simp)
  exact q4k_inj hheader (map_range_inj hweights)

theorem q4kPair_inj {w₀ w₁ w₀' w₁' : ℕ → UInt8} (h : q4kPair w₀ w₁ = q4kPair w₀' w₁') :
    (∀ i < 144, w₀ i = w₀' i) ∧ ∀ i < 144, w₁ i = w₁' i := by
  obtain ⟨hheaders, hweights⟩ := List.append_inj h (by simp)
  obtain ⟨hheader₀, hheader₁⟩ := List.append_inj hheaders (by simp)
  have hpieces := flatMap_range_inj (by simp) hweights
  have hall : ∀ i < 256, q4kWeight w₀ i = q4kWeight w₀' i ∧ q4kWeight w₁ i = q4kWeight w₁' i := by
    intro i hi
    obtain ⟨hfst, hsnd⟩ := List.append_inj (hpieces (i / 8) (by omega)) (by simp)
    have h₀ := map_range_inj hfst (i % 8) (Nat.mod_lt i (by decide))
    have h₁ := map_range_inj hsnd (i % 8) (Nat.mod_lt i (by decide))
    have hsplit : i / 8 * 8 + i % 8 = i := by omega
    rw [hsplit] at h₀ h₁
    exact ⟨h₀, h₁⟩
  exact ⟨q4k_inj hheader₀ fun i hi => (hall i hi).1, q4k_inj hheader₁ fun i hi => (hall i hi).2⟩

theorem q50Block_inj {w w' : ℕ → UInt8} (h : q50Block w = q50Block w') :
    ∀ i < 22, w i = w' i := by
  obtain ⟨h, -⟩ := List.append_inj' h rfl
  obtain ⟨hd, hweights⟩ := List.append_inj h (by simp)
  have hd := le16_inj (floatBytes_inj hd)
  have hbytes := q50Weight_inj (map_range_inj hweights)
  intro i hi
  rcases Nat.lt_or_ge i 2 with h2 | h2
  · interval_cases i
    · exact hd.1
    · exact hd.2
  · have hbyte := hbytes (i - 2) (by omega)
    rwa [Nat.add_sub_cancel' h2] at hbyte

/-- Equal blocks make equal tensors. -/
theorem eq_of_blockAt_eq {p p' : ℕ → UInt8} {rows nb bytes : ℕ}
    (h : ∀ r < rows, ∀ b < nb, ∀ i < bytes,
      blockAt p nb bytes r b i = blockAt p' nb bytes r b i) :
    ∀ k < rows * (nb * bytes), p k = p' k := by
  intro k hk
  have hrow : 0 < nb * bytes := by
    by_contra hz
    rw [Nat.eq_zero_of_not_pos hz, Nat.mul_zero] at hk
    exact absurd hk (Nat.not_lt_zero k)
  have hbytes : 0 < bytes := Nat.pos_of_mul_pos_left hrow
  have hmod := Nat.mod_lt k hrow
  have hr : k / (nb * bytes) < rows := Nat.div_lt_of_lt_mul (by rwa [Nat.mul_comm])
  have hb : k % (nb * bytes) / bytes < nb :=
    Nat.div_lt_of_lt_mul (hmod.trans_eq (Nat.mul_comm nb bytes))
  have hblock := h _ hr _ hb _ (Nat.mod_lt (k % (nb * bytes)) hbytes)
  have hsplit : k / (nb * bytes) * (nb * bytes) + k % (nb * bytes) / bytes * bytes +
      k % (nb * bytes) % bytes = k := by
    rw [Nat.add_assoc, Nat.div_add_mod', Nat.div_add_mod']
  rwa [blockAt, blockAt, hsplit] at hblock

theorem buildRowsQ4k_inj {p p' : ℕ → UInt8} {rows cols : ℕ}
    (h : buildRowsQ4k p rows cols = buildRowsQ4k p' rows cols) :
    ∀ k < rows * (cols / 256 * 144), p k = p' k := by
  apply eq_of_blockAt_eq
  have hrows := flatMap_range_inj
    (fun r => by rw [length_flatMap_range (k := 280) (by simp),
      length_flatMap_range (k := 280) (by simp)]) h
  intro r hr b hb
  exact q4kBlock_inj (flatMap_range_inj (by simp) (hrows r hr) b hb)

theorem buildRowsQ50_inj {p p' : ℕ → UInt8} {rows cols : ℕ}
    (h : buildRowsQ50 p rows cols = buildRowsQ50 p' rows cols) :
    ∀ k < rows * (cols / 32 * 22), p k = p' k := by
  apply eq_of_blockAt_eq
  have hrows := flatMap_range_inj
    (fun r => by rw [length_flatMap_range (k := 40) (by simp),
      length_flatMap_range (k := 40) (by simp)]) h
  intro r hr b hb
  exact q50Block_inj (flatMap_range_inj (by simp) (hrows r hr) b hb)

theorem buildRowsQ4kSmmla_inj {p p' : ℕ → UInt8} {rows cols : ℕ}
    (h : buildRowsQ4kSmmla p rows cols = buildRowsQ4kSmmla p' rows cols) :
    ∀ k < rows * (cols / 256 * 144), p k = p' k := by
  apply eq_of_blockAt_eq
  have hrows := flatMap_range_inj
    (fun r => by rw [length_flatMap_range (k := 560) (by simp),
      length_flatMap_range (k := 560) (by simp)]) h
  intro r hr b hb
  have hpair := q4kPair_inj (flatMap_range_inj (by simp) (hrows (r / 2) (by omega)) b hb)
  rcases Nat.mod_two_eq_zero_or_one r with heven | hodd
  · have hr2 : r / 2 * 2 = r := by omega
    rw [hr2] at hpair
    exact hpair.1
  · have hr2 : r / 2 * 2 + 1 = r := by omega
    rw [hr2] at hpair
    exact hpair.2

namespace ShadowTensorDesc

/-- Two tensors of one format and shape have the same shadow only if they are the same bytes. -/
theorem shadow_inj {t t' : ShadowTensorDesc} (hfmt : t.fmt = .Q4_K ∨ t.fmt = .Q5_0)
    (hf : t.fmt = t'.fmt) (hc : t.cols = t'.cols) (hr : t.rowsTotal = t'.rowsTotal)
    {smmla : Bool} (h : t.shadow smmla = t'.shadow smmla) : t.p = t'.p := by
  have hlen : t.p.length = t'.p.length := by rw [t.size, t'.size, hf, hc, hr]
  have hbytes : ∀ k < t.p.length, t.packed 0 k = t'.packed 0 k := by
    rw [t.size]
    unfold shadow buildRows at h
    rw [← hf, ← hc, ← hr] at h
    rcases hfmt with hfmt | hfmt
    · rw [hfmt, if_pos rfl, if_pos rfl] at h
      rw [hfmt]
      cases smmla with
      | false => exact buildRowsQ4k_inj h
      | true => exact buildRowsQ4kSmmla_inj h
    · rw [hfmt, if_neg (by decide), if_neg (by decide)] at h
      rw [hfmt]
      exact buildRowsQ50_inj h
  apply List.ext_getElem hlen
  intro k hk hk'
  have hbyte := hbytes k hk
  simp only [packed, Nat.zero_add] at hbyte
  rwa [List.getD_eq_getElem _ _ hk, List.getD_eq_getElem _ _ hk'] at hbyte

/-- The shadow fills the space that was planned for it, which with the row-pair layout takes an
even number of rows. -/
theorem length_shadow (t : ShadowTensorDesc) (hfmt : t.fmt = .Q4_K ∨ t.fmt = .Q5_0) {smmla : Bool}
    (heven : smmla → t.fmt = .Q4_K → t.rowsTotal.toNat % 2 = 0) :
    (t.shadow smmla).length = t.shadowBytes := by
  unfold shadow buildRows shadowBytes shadowRowBytes
  rcases hfmt with hfmt | hfmt
  · rw [hfmt, if_pos rfl, if_pos rfl]
    cases smmla with
    | false =>
      exact length_flatMap_range fun r => length_flatMap_range fun b => length_q4kBlock _
    | true =>
      have hrows := heven rfl hfmt
      have hpairs := length_flatMap_range (n := (t.rowsTotal.toNat + 1) / 2) fun rp =>
        length_flatMap_range (n := t.cols.toNat / 256) fun sb =>
          length_q4kPair (blockAt (t.packed 0) (t.cols.toNat / 256) 144 (rp * 2) sb)
            (blockAt (t.packed 0) (t.cols.toNat / 256) 144 (rp * 2 + 1) sb)
      refine hpairs.trans ?_
      obtain ⟨k, hk⟩ : ∃ k, t.rowsTotal.toNat = 2 * k := ⟨t.rowsTotal.toNat / 2, by omega⟩
      rw [hk, show (2 * k + 1) / 2 = k by omega]
      ring
  · rw [hfmt, if_neg (by decide), if_neg (by decide), if_pos rfl]
    exact length_flatMap_range fun r => length_flatMap_range fun b => length_q50Block _

end ShadowTensorDesc

end FastLlm
