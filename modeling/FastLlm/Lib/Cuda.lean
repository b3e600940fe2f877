import FastLlm.Lib.Loop
import FastLlm.Lib.Neon
import Mathlib.Data.List.Nodup
import Mathlib.Tactic.Ring

/-!
# Warps and packed words

What device code that computes dot products is written with.  A variable of a warp is a function
of the lane, and so is a shared array of the thread that owns an entry.  Between two barriers every
thread reads what was there before; a tree reduction in such rounds leaves the sum of all entries
in the first one (`iterHalf_sum`).

A packed word is read byte by byte: a masked shift of the word is one of each byte, and a byte can
be negated in place as long as no carry leaves it.

## Main definitions

* `shfl`, `shflDown`, `warpReduceAdd` — communication within a warp.
* `strided` — the elements a thread visits; `loop32` — the same with a counter that may wrap.
* `byteOf`, `sar` — the bytes of a word, and the shift of an `int`.
* `dp4a` — four products of signed bytes.
-/

namespace FastLlm.Cuda

/-! ## Reductions -/

section
variable {α : Type}

/-- `for (s = 2^k >> 1; s > 0; s >>= 1) a = f(s, a)`. -/
def iterHalf (k : ℕ) (a : α) (f : ℕ → α → α) : α := iter k a fun i => f (2 ^ (k - 1 - i))

/-- `__shfl_sync`: what lane `src` holds. -/
def shfl (v : ℕ → α) (src : ℕ) : ℕ → α := fun _ => v src

/-- `__shfl_down_sync`: a lane without a source keeps its own. -/
def shflDown (v : ℕ → α) (delta : ℕ) : ℕ → α := fun l =>
  if l + delta < 32 then v (l + delta) else v l

/-- `for (off = 16; off; off >>= 1) acc += __shfl_down_sync(acc, off)`. -/
def warpReduceAdd (add : α → α → α) (acc : ℕ → α) : ℕ → α :=
  iterHalf 5 acc fun s acc l => add (acc l) (shflDown acc s l)

end

section
variable {M : Type} [AddCommMonoid M]

theorem sum_halve (s : ℕ) (v : ℕ → M) :
    ∑ l ∈ Finset.range s, (v l + v (l + s)) = ∑ l ∈ Finset.range (2 * s), v l := by
  rw [Nat.two_mul, Finset.sum_range_add, Finset.sum_add_distrib]
  simp only [Nat.add_comm s]

/-- Rounds in which the entries below `s` take what is `s` further on. -/
theorem iterHalf_sum {k : ℕ} {f : ℕ → (ℕ → M) → ℕ → M} (v : ℕ → M)
    (h : ∀ s, 2 * s ≤ 2 ^ k → ∀ a, ∀ l < s, f s a l = a l + a (l + s)) :
    iterHalf k v f 0 = ∑ l ∈ Finset.range (2 ^ k), v l := by
  have hrun := iter_induction (n := k) (a := v) (f := fun i => f (2 ^ (k - 1 - i)))
    (P := fun i a => ∑ l ∈ Finset.range (2 ^ (k - i)), a l = ∑ l ∈ Finset.range (2 ^ k), v l)
    rfl ?_
  · rw [Nat.sub_self, pow_zero, Finset.sum_range_one] at hrun
    exact hrun
  · intro i hi a ha
    have hdouble : 2 * 2 ^ (k - 1 - i) = 2 ^ (k - i) := by
      rw [← Nat.pow_succ']
      congr 1
      omega
    have hle : 2 * 2 ^ (k - 1 - i) ≤ 2 ^ k := by
      rw [hdouble]
      exact Nat.pow_le_pow_right (by omega) (Nat.sub_le k i)
    have hexp : k - (i + 1) = k - 1 - i := by omega
    rw [hexp, ← ha, ← hdouble, ← sum_halve]
    apply Finset.sum_congr rfl
    intro l hl
    exact h _ hle a l (Finset.mem_range.mp hl)

/-- The first lane of a warp ends with the sum over all of its lanes. -/
theorem warpReduceAdd_sum (v : ℕ → M) :
    warpReduceAdd (· + ·) v 0 = ∑ l ∈ Finset.range 32, v l := by
  apply iterHalf_sum (k := 5)
  intro s hs a l hl
  have hsource : l + s < 32 := by omega
  simp only [shflDown, if_pos hsource]

end

/-! ## The elements of a thread -/

/-- The values of `i` in `for (i = start; i < stop; i += step)`. -/
def strided (start stop step : ℕ) : List ℕ :=
  (List.range ((stop - start + step - 1) / step)).map fun k => start + k * step

/-- Thread `t` of `s` threads visits the elements that leave the remainder `t`. -/
theorem mem_strided {n s t i : ℕ} (ht : t < s) : i ∈ strided t n s ↔ i < n ∧ i % s = t := by
  have hs : 0 < s := by omega
  simp only [strided, List.mem_map, List.mem_range, Nat.lt_div_iff_mul_lt hs]
  constructor
  · rintro ⟨k, hk, rfl⟩
    refine ⟨by omega, ?_⟩
    rw [Nat.add_mul_mod_self_right, Nat.mod_eq_of_lt ht]
  · rintro ⟨hi, hmod⟩
    have hdiv := Nat.div_add_mod i s
    refine ⟨i / s, ?_, ?_⟩
    · have := Nat.mul_comm s (i / s)
      omega
    · rw [Nat.mul_comm]
      omega

theorem strided_nodup {n s t : ℕ} (hs : 0 < s) : (strided t n s).Nodup := by
  apply List.Nodup.map _ List.nodup_range
  intro a b hab
  exact Nat.eq_of_mul_eq_mul_right hs (Nat.add_left_cancel hab)

/-- All threads together visit every element once. -/
theorem strided_perm {n s : ℕ} (hs : 0 < s) :
    ((List.range s).flatMap fun t => strided t n s).Perm (List.range n) := by
  rw [List.perm_ext_iff_of_nodup ?_ List.nodup_range]
  · intro i
    simp only [List.mem_flatMap, List.mem_range]
    constructor
    · rintro ⟨t, ht, hi⟩
      exact ((mem_strided ht).mp hi).1
    · intro hi
      have ht := Nat.mod_lt i hs
      exact ⟨i % s, ht, (mem_strided ht).mpr ⟨hi, rfl⟩⟩
  · rw [List.nodup_flatMap]
    refine ⟨fun t _ => strided_nodup hs, ?_⟩
    apply List.pairwise_lt_range.imp_of_mem
    intro a b ha hb hab i hia hib
    have h1 := ((mem_strided (List.mem_range.mp ha)).mp hia).2
    have h2 := ((mem_strided (List.mem_range.mp hb)).mp hib).2
    omega

/-! ## Loops of a 32-bit counter -/

/-- The values of `i` in `for (i = start; i < stop; i += step)` on a counter of 32 bits.  No result
if the loop takes more rounds than the first argument. -/
def loop32 (stop step : ℕ) : ℕ → ℕ → Option (List ℕ)
  | 0, _ => none
  | fuel + 1, i =>
    if i < stop then (loop32 stop step fuel ((i + step) % 2 ^ 32)).map (i :: ·) else some []

theorem strided_cons {n s t : ℕ} (hs : 0 < s) (ht : t < n) :
    strided t n s = t :: strided (t + s) n s := by
  have hcount : (n - t + s - 1) / s = (n - (t + s) + s - 1) / s + 1 := by
    rw [← Nat.add_div_right _ hs]
    rcases Nat.lt_or_ge n (t + s) with h | h
    · have h1 : n - (t + s) = 0 := by omega
      rw [h1, Nat.zero_add, Nat.div_eq_of_lt_le (k := 1) (by omega) (by omega),
        Nat.div_eq_of_lt_le (k := 1) (by omega) (by omega)]
    · congr 1
      omega
  rw [strided, hcount, List.range_succ_eq_map, List.map_cons, List.map_map, Nat.zero_mul,
    Nat.add_zero]
  congr 1
  apply List.map_congr_left
  intro k _
  simp only [Function.comp_apply, Nat.succ_eq_add_one]
  ring

/-- A counter that does not wrap around. -/
theorem loop32_eq {n s : ℕ} (hs : 0 < s) (hn : n + s ≤ 2 ^ 32) {fuel t : ℕ} (hfuel : n - t < fuel) :
    loop32 n s fuel t = some (strided t n s) := by
  induction fuel generalizing t with
  | zero => omega
  | succ fuel ih =>
    rw [loop32]
    split
    · rename_i ht
      rw [Nat.mod_eq_of_lt (by omega), ih (by omega), strided_cons hs ht]
      rfl
    · rename_i ht
      have hempty : (n - t + s - 1) / s = 0 := by
        rw [Nat.div_eq_of_lt]
        omega
      rw [strided, hempty]
      rfl

/-- A counter that wraps around to where it was before never gets to the end. -/
theorem loop32_eq_none {n s : ℕ} (hs : s ∣ 2 ^ 32) (hn : 2 ^ 32 < n + s) (fuel : ℕ) {t : ℕ}
    (ht : t < 2 ^ 32) (hst : s ∣ t) : loop32 n s fuel t = none := by
  induction fuel generalizing t with
  | zero => rfl
  | succ fuel ih =>
    obtain ⟨a, ha⟩ := hs
    obtain ⟨b, rfl⟩ := hst
    have hle : s * b + s ≤ 2 ^ 32 := by
      rw [ha] at ht ⊢
      have hlt : b < a := Nat.lt_of_mul_lt_mul_left ht
      calc s * b + s = s * (b + 1) := by ring
        _ ≤ s * a := Nat.mul_le_mul_left s hlt
    have hnext : s ∣ (s * b + s) % 2 ^ 32 := by
      rw [Nat.dvd_mod_iff ⟨a, ha⟩]
      exact ⟨b + 1, by ring⟩
    rw [loop32, if_pos (by omega), ih (Nat.mod_lt _ (by omega)) hnext]
    rfl

/-! ## Packed words -/

/-- Byte `k` of a word. -/
def byteOf (w : UInt32) (k : ℕ) : UInt8 := (w >>> UInt32.ofNat (8 * k)).toUInt8

/-- `w >> n` of an `int`. -/
def sar (w : UInt32) (n : ℕ) : UInt32 := ⟨w.toBitVec.sshiftRight n⟩

/-- `__dp4a`. -/
def dp4a (a b : UInt32) (c : ℤ) : ℤ := Neon.i32 (c + Neon.byteDot 4 (byteOf a) (byteOf b))

theorem testBit_byteOf (w : UInt32) {k j : ℕ} (hk : k < 4) (hj : j < 8) :
    (byteOf w k).toNat.testBit j = w.toNat.testBit (8 * k + j) := by
  have hshift : (UInt32.ofNat (8 * k)).toNat % 32 = 8 * k := by
    rw [UInt32.toNat_ofNat']
    omega
  rw [byteOf, UInt32.toNat_toUInt8, UInt32.toNat_shiftRight, hshift, Nat.testBit_mod_two_pow,
    Nat.testBit_shiftRight]
  simp [hj]

/-- Bytes are equal when their bits are. -/
theorem byte_ext {a b : UInt8} (h : ∀ j < 8, a.toNat.testBit j = b.toNat.testBit j) : a = b := by
  apply UInt8.toNat_inj.mp
  apply Nat.eq_of_testBit_eq
  intro j
  by_cases hj : j < 8
  · exact h j hj
  · have hle : 2 ^ 8 ≤ 2 ^ j := Nat.pow_le_pow_right (by omega) (by omega)
    rw [Nat.testBit_lt_two_pow (a.toNat_lt.trans_le hle),
      Nat.testBit_lt_two_pow (b.toNat_lt.trans_le hle)]

theorem byteOf_and (w u : UInt32) {k : ℕ} (hk : k < 4) :
    byteOf (w &&& u) k = byteOf w k &&& byteOf u k := by
  apply byte_ext
  intro j hj
  rw [UInt8.toNat_and, Nat.testBit_and, testBit_byteOf _ hk hj, testBit_byteOf _ hk hj,
    testBit_byteOf _ hk hj, UInt32.toNat_and, Nat.testBit_and]

theorem byteOf_or (w u : UInt32) {k : ℕ} (hk : k < 4) :
    byteOf (w ||| u) k = byteOf w k ||| byteOf u k := by
  apply byte_ext
  intro j hj
  rw [UInt8.toNat_or, Nat.testBit_or, testBit_byteOf _ hk hj, testBit_byteOf _ hk hj,
    testBit_byteOf _ hk hj, UInt32.toNat_or, Nat.testBit_or]

theorem byteOf_xor (w u : UInt32) {k : ℕ} (hk : k < 4) :
    byteOf (w ^^^ u) k = byteOf w k ^^^ byteOf u k := by
  apply byte_ext
  intro j hj
  rw [UInt8.toNat_xor, Nat.testBit_xor, testBit_byteOf _ hk hj, testBit_byteOf _ hk hj,
    testBit_byteOf _ hk hj, UInt32.toNat_xor, Nat.testBit_xor]

/-- The low bits of the bytes of a shifted word are those of the shifted bytes. -/
theorem byteOf_sar_and (w : UInt32) {n k : ℕ} (hk : k < 4) (hn : n < 8) {m : UInt8}
    (hm : m.toNat < 2 ^ (8 - n)) :
    byteOf (sar w n) k &&& m = (byteOf w k >>> UInt8.ofNat n) &&& m := by
  have hshift : (UInt8.ofNat n).toNat % 8 = n := by
    rw [UInt8.toNat_ofNat']
    omega
  apply byte_ext
  intro j hj
  rw [UInt8.toNat_and, UInt8.toNat_and, Nat.testBit_and, Nat.testBit_and, testBit_byteOf _ hk hj,
    UInt8.toNat_shiftRight, hshift, Nat.testBit_shiftRight]
  by_cases hjn : j < 8 - n
  · have hbit : (sar w n).toNat.testBit (8 * k + j) = w.toNat.testBit (8 * k + (n + j)) := by
      change (w.toBitVec.sshiftRight n).getLsbD (8 * k + j) = w.toBitVec.getLsbD (8 * k + (n + j))
      rw [BitVec.getLsbD_sshiftRight, if_pos (by omega), Nat.add_left_comm]
      simp only [Bool.and_eq_right_iff_imp]
      intro _
      simp
      omega
    rw [hbit, testBit_byteOf _ hk (by omega)]
  · have hle : 2 ^ (8 - n) ≤ 2 ^ j := Nat.pow_le_pow_right (by omega) (by omega)
    rw [Nat.testBit_lt_two_pow (hm.trans_le hle), Bool.and_false, Bool.and_false]

theorem toNat_byteOf (w : UInt32) {k : ℕ} (hk : k < 4) :
    (byteOf w k).toNat = w.toNat / 2 ^ (8 * k) % 256 := by
  have hshift : (UInt32.ofNat (8 * k)).toNat % 32 = 8 * k := by
    rw [UInt32.toNat_ofNat']
    omega
  rw [byteOf, UInt32.toNat_toUInt8, UInt32.toNat_shiftRight, hshift, Nat.shiftRight_eq_div_pow]

/-- The bytes of a word are the digits of the number. -/
theorem toNat_byteOf_of_digits {w : UInt32} {d : ℕ → ℕ} (hd : ∀ j < 4, d j < 256)
    (hw : w.toNat = d 0 + 256 * (d 1 + 256 * (d 2 + 256 * d 3))) {k : ℕ} (hk : k < 4) :
    (byteOf w k).toNat = d k := by
  have h0 := hd 0 (by omega)
  have h1 := hd 1 (by omega)
  have h2 := hd 2 (by omega)
  have h3 := hd 3 (by omega)
  rw [toNat_byteOf _ hk, hw]
  clear hw hd
  rcases k with _ | _ | _ | _ | k
  · simp only [Nat.mul_zero, Nat.pow_zero, Nat.div_one]
    omega
  · simp only [Nat.zero_add, Nat.mul_one, Nat.reducePow]
    omega
  · simp only [Nat.zero_add, Nat.reduceAdd, Nat.reduceMul, Nat.reducePow]
    omega
  · simp only [Nat.zero_add, Nat.reduceAdd, Nat.reduceMul, Nat.reducePow]
    omega
  · omega

theorem toNat_eq_bytes (w : UInt32) : w.toNat = (byteOf w 0).toNat +
    256 * ((byteOf w 1).toNat + 256 * ((byteOf w 2).toNat + 256 * (byteOf w 3).toNat)) := by
  have hw := w.toNat_lt
  rw [toNat_byteOf _ (by omega), toNat_byteOf _ (by omega), toNat_byteOf _ (by omega),
    toNat_byteOf _ (by omega)]
  simp only [Nat.mul_zero, Nat.pow_zero, Nat.div_one, Nat.mul_one, Nat.reduceMul, Nat.reducePow]
  omega

/-- A sum of words is one of bytes when no byte overflows. -/
theorem toNat_byteOf_add {w u : UInt32}
    (h : ∀ j < 4, (byteOf w j).toNat + (byteOf u j).toNat < 256) {k : ℕ} (hk : k < 4) :
    (byteOf (w + u) k).toNat = (byteOf w k).toNat + (byteOf u k).toNat := by
  apply toNat_byteOf_of_digits (d := fun j => (byteOf w j).toNat + (byteOf u j).toNat) h _ hk
  have h0 := h 0 (by omega)
  have h1 := h 1 (by omega)
  have h2 := h 2 (by omega)
  have h3 := h 3 (by omega)
  rw [UInt32.toNat_add, toNat_eq_bytes w, toNat_eq_bytes u, Nat.mod_eq_of_lt]
  · ring
  · omega

/-! ### Four products -/

theorem dp4a_eq {a b : UInt32} {c : ℤ} (h1 : -2 ^ 29 ≤ c) (h2 : c ≤ 2 ^ 29) :
    dp4a a b c = c + ∑ j ∈ Finset.range 4, i8 (byteOf a j) * i8 (byteOf b j) := by
  obtain ⟨h3, h4⟩ := Neon.byteDot_bounds 4 (byteOf a) (byteOf b)
  exact Neon.i32_of_le (by omega) (by omega)

theorem dp4a_zero (a b : UInt32) :
    dp4a a b 0 = ∑ j ∈ Finset.range 4, i8 (byteOf a j) * i8 (byteOf b j) := by
  rw [dp4a_eq (by omega) (by omega), zero_add]

/-- Eight products. -/
theorem dp4a_dp4a (a a' b b' : UInt32) : dp4a a b (dp4a a' b' 0) =
    ∑ j ∈ Finset.range 4, i8 (byteOf a' j) * i8 (byteOf b' j) +
      ∑ j ∈ Finset.range 4, i8 (byteOf a j) * i8 (byteOf b j) := by
  obtain ⟨h1, h2⟩ := Neon.byteDot_bounds 4 (byteOf a') (byteOf b')
  have h0 := dp4a_zero a' b'
  rw [← Neon.byteDot] at h0
  rw [dp4a_eq (by omega) (by omega), h0]
  rfl

end FastLlm.Cuda
