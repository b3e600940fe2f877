import FastLlm.Runtime.Int8Dot
import FastLlm.Runtime.ShadowExact

/-!
# Dot products on shadows

The shadow kernels read the unpacked copies and fold exactly as the packed kernels do.  On the
shadow of a row they give the same float, for any interpretation of the float operations
(`dotI8kQ4KShadow_eq`, `dotI8Q50Shadow_eq`).

## Main definitions

* `dotI8kQ4KShadow`, `dotI8Q50Shadow` — the kernels.
* `IsShadowQ4K`, `IsShadowQ50` — the bytes of a row are those of a shadow row.
-/

namespace FastLlm

/-- A pointer to the bytes of a list. -/
def ptr (l : List UInt8) : ℕ → UInt8 := fun i => l.getD i 0

section
variable {F : Type} (A : Arith F)

/-- `dot_i8k_q4_K_shadow`. -/
def dotI8kQ4KShadow (srow : ℕ → UInt8) (xk : ℕ → BlkQ8K F) (cols : ℕ) : F :=
  fold4 A (iter (cols / 256) (acc0 A) fun sb a4 =>
    let o := off srow (sb * 280)
    let d := A.ofBits (le32 o 0)
    let dmin := A.ofBits (le32 o 4)
    let sc8 := off o 8
    let mn8 := off o 16
    let qs := off o 24
    let iacc := isum 8 fun g =>
      let w := off qs (g / 2 * 64 + g % 2 * 32)
      let xg := off (xk sb).qs (g * 32)
      (sc8 g).toNat * isum 32 fun i => i8 (w i) * i8 (xg i)
    let imins := isum 8 fun g =>
      (mn8 g).toNat * ((xk sb).bsums (2 * g) + (xk sb).bsums (2 * g + 1))
    let dk := (xk sb).d
    let a4 := fmaAt A a4 (sb % 4) (A.mul d dk) (A.ofInt iacc)
    fmaAt A a4 (sb % 4) (A.neg (A.mul dmin dk)) (A.ofInt imins))

/-- `dot_i8_q5_0_shadow`. -/
def dotI8Q50Shadow (srow : ℕ → UInt8) (xq : ℕ → BlkQ81) (cols : ℕ) : F :=
  fold4 A (iter (cols / 32) (acc0 A) fun b a4 =>
    let o := off srow (b * 40)
    let d := A.ofBits (le32 o 0)
    let w := off o 4
    let idot := isum 32 fun i => i8 (w i) * i8 ((xq b).qs i)
    let xsum := isum 32 fun i => i8 ((xq b).qs i)
    fmaAt A a4 (b % 4) (A.mul d (A.ofHalf (xq b).d)) (A.ofInt (idot - 16 * xsum)))

end

/-! ## Bytes of a shadow -/

theorem getD_map_range_byte {n i : ℕ} (hi : i < n) (f : ℕ → UInt8) :
    ((List.range n).map f).getD i 0 = f i := by
  simp [List.getD, hi]

/-- Element `i` of piece `j`, in pieces of equal length. -/
theorem getD_flatMap_range {n k : ℕ} {f : ℕ → List UInt8} (hlen : ∀ j, (f j).length = k) {j i : ℕ}
    (hj : j < n) (hi : i < k) :
    ((List.range n).flatMap f).getD (j * k + i) 0 = (f j).getD i 0 := by
  induction n with
  | zero => omega
  | succ n ih =>
    rw [List.range_succ, List.flatMap_append, List.flatMap_singleton]
    have hprefix := length_flatMap_range (n := n) hlen
    rcases Nat.lt_succ_iff_lt_or_eq.mp hj with hlt | rfl
    · have hle : (j + 1) * k ≤ n * k := Nat.mul_le_mul_right k hlt
      rw [Nat.succ_mul] at hle
      rw [List.getD_append _ _ _ _ (by omega), ih hlt]
    · rw [List.getD_append_right _ _ _ _ (by omega), hprefix, Nat.add_sub_cancel_left]

/-- The float at an address that holds the bytes of a float. -/
theorem le32_floatBytes {p : ℕ → UInt8} {o : ℕ} {h : UInt16}
    (hp : ∀ i < 4, p (o + i) = (floatBytes h).getD i 0) : le32 p o = half2float h := by
  have h0 := hp 0 (by omega)
  have h1 := hp 1 (by omega)
  have h2 := hp 2 (by omega)
  have h3 := hp 3 (by omega)
  have hbytes : [p o, p (o + 1), p (o + 2), p (o + 3)] = floatBytes h := by
    simp only [floatBytes, leBytes, List.getD_cons_zero, List.getD_cons_succ, Nat.add_zero] at *
    rw [h0, h1, h2, h3]
  have hlt : (half2float h).toNat < 256 ^ 4 := (half2float h).toNat_lt
  rw [le32, hbytes, floatBytes, leNat_leBytes_of_lt hlt, UInt32.ofNat_toNat]

/-- The superblock shadows of a row lie at `srow`. -/
def IsShadowQ4K (row srow : ℕ → UInt8) (cols : ℕ) : Prop :=
  ∀ sb < cols / 256, ∀ i < 280, srow (sb * 280 + i) = (q4kBlock (off row (sb * 144))).getD i 0

/-- The block shadows of a row lie at `srow`. -/
def IsShadowQ50 (row srow : ℕ → UInt8) (cols : ℕ) : Prop :=
  ∀ b < cols / 32, ∀ i < 40, srow (b * 40 + i) = (q50Block (off row (b * 22))).getD i 0

section
variable (w : ℕ → UInt8)

theorem q4kBlock_d {i : ℕ} (hi : i < 4) :
    (q4kBlock w).getD i 0 = (floatBytes (le16 w 0)).getD i 0 := by
  have h1 : (floatBytes (le16 w 0)).length = 4 := length_floatBytes _
  simp only [q4kBlock, q4kHeader, List.append_assoc]
  rw [List.getD_append _ _ _ _ (by omega)]

theorem q4kBlock_dmin {i : ℕ} (hi : i < 4) :
    (q4kBlock w).getD (4 + i) 0 = (floatBytes (le16 w 2)).getD i 0 := by
  have h1 : (floatBytes (le16 w 0)).length = 4 := length_floatBytes _
  have h2 : (floatBytes (le16 w 2)).length = 4 := length_floatBytes _
  simp only [q4kBlock, q4kHeader, List.append_assoc]
  rw [List.getD_append_right _ _ _ _ (by omega), List.getD_append _ _ _ _ (by omega), h1,
    Nat.add_sub_cancel_left]

theorem q4kBlock_scale {j : ℕ} (hj : j < 8) :
    (q4kBlock w).getD (8 + j) 0 = q4kScale (fun i => w (4 + i)) j := by
  have h1 : (floatBytes (le16 w 0) ++ floatBytes (le16 w 2)).length = 8 := by simp
  have h2 : ((List.range 8).map (q4kScale fun i => w (4 + i))).length = 8 := by simp
  rw [q4kBlock, q4kHeader, List.append_assoc, List.append_assoc,
    List.getD_append_right _ _ _ _ (by omega), h1, Nat.add_sub_cancel_left,
    List.getD_append _ _ _ _ (by omega), getD_map_range_byte hj]

theorem q4kBlock_min {j : ℕ} (hj : j < 8) :
    (q4kBlock w).getD (16 + j) 0 = q4kMin (fun i => w (4 + i)) j := by
  have h1 : (floatBytes (le16 w 0) ++ floatBytes (le16 w 2) ++
      (List.range 8).map (q4kScale fun i => w (4 + i))).length = 16 := by simp
  have h2 : ((List.range 8).map (q4kMin fun i => w (4 + i))).length = 8 := by simp
  rw [q4kBlock, q4kHeader, List.append_assoc, List.getD_append_right _ _ _ _ (by omega), h1,
    Nat.add_sub_cancel_left, List.getD_append _ _ _ _ (by omega), getD_map_range_byte hj]

theorem q4kBlock_weight {i : ℕ} (hi : i < 256) : (q4kBlock w).getD (24 + i) 0 = q4kWeight w i := by
  have h1 := length_q4kHeader w
  rw [q4kBlock, List.getD_append_right _ _ _ _ (by omega), h1, Nat.add_sub_cancel_left,
    getD_map_range_byte hi]

theorem q50Block_d {i : ℕ} (hi : i < 4) :
    (q50Block w).getD i 0 = (floatBytes (le16 w 0)).getD i 0 := by
  have h1 : (floatBytes (le16 w 0)).length = 4 := length_floatBytes _
  rw [q50Block, List.append_assoc, List.getD_append _ _ _ _ (by omega)]

theorem q50Block_weight {i : ℕ} (hi : i < 32) : (q50Block w).getD (4 + i) 0 = q50Weight w i := by
  have h1 : (floatBytes (le16 w 0)).length = 4 := length_floatBytes _
  have h2 : ((List.range 32).map (q50Weight w)).length = 32 := by simp
  rw [q50Block, List.append_assoc, List.getD_append_right _ _ _ _ (by omega), h1,
    Nat.add_sub_cancel_left, List.getD_append _ _ _ _ (by omega), getD_map_range_byte hi]

/-- A nibble read as `int8_t`. -/
theorem i8_q4kWeight (i : ℕ) : i8 (q4kWeight w i) = (q4kWeight w i).toNat := by
  have hlt : (q4kWeight w i).toNat < 128 := by
    simp only [q4kWeight]
    split_ifs
    · rw [toNat_and_15]
      omega
    · rw [toNat_shiftRight_4]
      have := (w (16 + i / 64 * 32 + (i % 64 - 32))).toNat_lt
      omega
  rw [i8, if_pos hlt]

theorem q50Weight_lt (i : ℕ) : (q50Weight w i).toNat < 32 := by
  have hlo : (w (6 + i) &&& (15 : UInt8)).toNat < 16 := by
    rw [toNat_and_15]
    omega
  have hhi : (w (6 + (i - 16)) >>> 4).toNat < 16 := by
    rw [toNat_shiftRight_4]
    have := (w (6 + (i - 16))).toNat_lt
    omega
  simp only [q50Weight]
  split_ifs
  · rw [toNat_or_bit _ _ hlo]
    omega
  · rw [toNat_or_bit _ _ hhi]
    omega

/-- A five-bit number read as `int8_t`. -/
theorem i8_q50Weight (i : ℕ) : i8 (q50Weight w i) = (q50Weight w i).toNat := by
  have hlt := q50Weight_lt w i
  rw [i8, if_pos (by omega)]

end

/-! ## The same floats -/

section
variable {F : Type} (A : Arith F)

/-- On a shadow row the kernel gives what the packed kernel gives on the row. -/
theorem dotI8kQ4KShadow_eq {row srow : ℕ → UInt8} {cols : ℕ} (hs : IsShadowQ4K row srow cols)
    (xk : ℕ → BlkQ8K F) : dotI8kQ4KShadow A srow xk cols = dotI8kQ4K A row xk cols := by
  rw [dotI8kQ4KShadow, dotI8kQ4K]
  congr 1
  apply iter_congr
  intro sb hsb a4
  set W := off row (sb * 144) with hW
  have hat : ∀ i < 280, off srow (sb * 280) i = (q4kBlock W).getD i 0 := hs sb hsb
  have hd : le32 (off srow (sb * 280)) 0 = half2float (le16 W 0) :=
    le32_floatBytes fun i hi => by rw [hat _ (by omega), Nat.zero_add, q4kBlock_d W hi]
  have hdmin : le32 (off srow (sb * 280)) 4 = half2float (le16 W 2) :=
    le32_floatBytes fun i hi => by rw [hat _ (by omega), q4kBlock_dmin W hi]
  have hsc : ∀ g < 8, off (off srow (sb * 280)) 8 g = q4kScale (off W 4) g := by
    intro g hg
    rw [off_apply, hat _ (by omega), q4kBlock_scale W hg]
    rfl
  have hmn : ∀ g < 8, off (off srow (sb * 280)) 16 g = q4kMin (off W 4) g := by
    intro g hg
    rw [off_apply, hat _ (by omega), q4kBlock_min W hg]
    rfl
  have hq : ∀ g < 8, ∀ i < 32,
      i8 (off (off (off srow (sb * 280)) 24) (g / 2 * 64 + g % 2 * 32) i) =
        (q4kNibble W g i).toNat := by
    intro g hg i hi
    have h1 : g / 2 * 64 + g % 2 * 32 + i = g * 32 + i := by omega
    rw [off_apply, off_apply, h1, hat _ (by omega), q4kBlock_weight W (by omega), i8_q4kWeight,
      q4kNibble_eq W g hi]
  have hiacc : (isum 8 fun g => ((off (off srow (sb * 280)) 8 g).toNat : ℤ) * isum 32 fun i =>
        i8 (off (off (off srow (sb * 280)) 24) (g / 2 * 64 + g % 2 * 32) i) *
          i8 (off (xk sb).qs (g * 32) i)) =
      isum 8 fun g => ((q4kScale (off W 4) g).toNat : ℤ) * isum 32 fun i =>
        ((q4kNibble W g i).toNat : ℤ) * i8 (off (xk sb).qs (g * 32) i) := by
    apply isum_congr
    intro g hg
    rw [hsc g hg, isum_congr fun i hi => by rw [hq g hg i hi]]
  have himins : (isum 8 fun g => ((off (off srow (sb * 280)) 16 g).toNat : ℤ) *
        ((xk sb).bsums (2 * g) + (xk sb).bsums (2 * g + 1))) =
      isum 8 fun g => ((q4kMin (off W 4) g).toNat : ℤ) *
        ((xk sb).bsums (2 * g) + (xk sb).bsums (2 * g + 1)) := by
    apply isum_congr
    intro g hg
    rw [hmn g hg]
  simp only [hd, hdmin, hiacc, himins]
  rfl

/-- On a shadow row the kernel gives what the packed kernel gives on the row. -/
theorem dotI8Q50Shadow_eq {row srow : ℕ → UInt8} {cols : ℕ} (hs : IsShadowQ50 row srow cols)
    (xq : ℕ → BlkQ81) : dotI8Q50Shadow A srow xq cols = dotI8Q50 A row xq cols := by
  rw [dotI8Q50Shadow, dotI8Q50]
  congr 1
  apply iter_congr
  intro b hb a4
  set W := off row (b * 22) with hW
  have hat : ∀ i < 40, off srow (b * 40) i = (q50Block W).getD i 0 := hs b hb
  have hd : le32 (off srow (b * 40)) 0 = half2float (le16 W 0) :=
    le32_floatBytes fun i hi => by rw [hat _ (by omega), Nat.zero_add, q50Block_d W hi]
  have hq : ∀ i < 32, i8 (off (off srow (b * 40)) 4 i) = (q50Weight W i).toNat := by
    intro i hi
    rw [off_apply, hat _ (by omega), q50Block_weight W hi, i8_q50Weight]
  have hidot : (isum 32 fun i => i8 (off (off srow (b * 40)) 4 i) * i8 ((xq b).qs i)) =
      ∑ i ∈ Finset.range 32, ((q50Weight W i).toNat : ℤ) * i8 ((xq b).qs i) := by
    rw [isum_eq]
    refine Finset.sum_congr rfl fun i hi => ?_
    rw [hq i (Finset.mem_range.mp hi)]
  simp only [hd, hidot, ← q50_idot W fun i => i8 ((xq b).qs i)]
  rfl

end
end FastLlm
