import FastLlm.Runtime.GpuDot

/-!
# Packed words of the GPU kernels

The kernels for quantized activations read four bytes at a time.  However such a word is composed,
from one load, from two of sixteen bits or by spreading bits over it, its bytes are what the
canonical kernels read one by one.

## Main definitions

* `flagByte` — a bit as bit 4 of a byte.
-/

namespace FastLlm

open Cuda

/-! ## Words from memory -/

theorem toNat_le16 (p : ℕ → UInt8) (o : ℕ) :
    (le16 p o).toNat = (p o).toNat + 256 * (p (o + 1)).toNat := by
  have h0 := (p o).toNat_lt
  have h1 := (p (o + 1)).toNat_lt
  rw [le16, UInt16.toNat_ofNat_of_lt']
  · simp only [leNat]
    omega
  · simp only [leNat]
    change _ < 65536
    omega

theorem toNat_le32 (p : ℕ → UInt8) (o : ℕ) : (le32 p o).toNat = (p o).toNat +
    256 * ((p (o + 1)).toNat + 256 * ((p (o + 2)).toNat + 256 * (p (o + 3)).toNat)) := by
  have h0 := (p o).toNat_lt
  have h1 := (p (o + 1)).toNat_lt
  have h2 := (p (o + 2)).toNat_lt
  have h3 := (p (o + 3)).toNat_lt
  rw [le32, UInt32.toNat_ofNat_of_lt']
  · simp only [leNat]
    omega
  · simp only [leNat]
    change _ < 4294967296
    omega

theorem byteOf_le32 (p : ℕ → UInt8) (o : ℕ) {k : ℕ} (hk : k < 4) :
    byteOf (le32 p o) k = p (o + k) := by
  rw [← UInt8.toNat_inj]
  exact toNat_byteOf_of_digits (d := fun j => (p (o + j)).toNat) (fun j _ => (p (o + j)).toNat_lt)
    (toNat_le32 p o) hk

/-- Two words of sixteen bits make the word of thirty-two. -/
theorem u16Pair_eq (p : ℕ → UInt8) (o : ℕ) : u16Pair p o = le32 p o := by
  have h0 := toNat_le16 p o
  have h2 := toNat_le16 p (o + 2)
  have hlo := (le16 p o).toNat_lt
  have hhi := (le16 p (o + 2)).toNat_lt
  have hshift : (le16 p (o + 2)).toNat <<< 16 % 2 ^ 32 = 2 ^ 16 * (le16 p (o + 2)).toNat := by
    rw [Nat.shiftLeft_eq]
    omega
  rw [← UInt32.toNat_inj, u16Pair, UInt32.toNat_or, UInt32.toNat_shiftLeft, UInt16.toNat_toUInt32,
    UInt16.toNat_toUInt32]
  change _ ||| (le16 p (o + 2)).toNat <<< 16 % 2 ^ 32 = _
  rw [hshift, Nat.or_comm, ← Nat.two_pow_add_eq_or_of_lt hlo, toNat_le32, h0, h2, Nat.add_assoc o 2]
  omega

/-- A byte at its place in a word. -/
theorem byteOf_place (b : UInt8) {j k : ℕ} (hj : j < 4) (hk : k < 4) :
    byteOf (b.toUInt32 <<< UInt32.ofNat (8 * j)) k = if k = j then b else 0 := by
  have hb := b.toNat_lt
  have hplace : (UInt32.ofNat (8 * j)).toNat % 32 = 8 * j := by
    rw [UInt32.toNat_ofNat']
    omega
  rw [← UInt8.toNat_inj]
  apply toNat_byteOf_of_digits (d := fun i => (if i = j then b else 0).toNat)
    (fun i _ => UInt8.toNat_lt _) _ hk
  rw [UInt32.toNat_shiftLeft, hplace, UInt8.toNat_toUInt32, Nat.shiftLeft_eq]
  rcases j with _ | _ | _ | _ | j
  · simp
  · simp
    omega
  · simp
    omega
  · simp
    omega
  · omega

theorem byteOf_u8Quad (p : ℕ → UInt8) (o : ℕ) {k : ℕ} (hk : k < 4) :
    byteOf (u8Quad p o) k = p (o + k) := by
  have hzero : byteOf 0 k = 0 := by
    rw [← UInt8.toNat_inj, toNat_byteOf _ hk]
    simp
  rw [u8Quad, iter_four, byteOf_or _ _ hk, byteOf_or _ _ hk, byteOf_or _ _ hk, byteOf_or _ _ hk,
    hzero, byteOf_place _ (by omega) hk, byteOf_place _ (by omega) hk,
    byteOf_place _ (by omega) hk, byteOf_place _ (by omega) hk]
  rcases k with _ | _ | _ | _ | k
  · simp
  · simp
  · simp
  · simp
  · omega

/-- Words with the same bytes. -/
theorem word_ext {w u : UInt32} (h : ∀ k < 4, byteOf w k = byteOf u k) : w = u := by
  rw [← UInt32.toNat_inj, toNat_eq_bytes w, toNat_eq_bytes u, h 0 (by omega), h 1 (by omega),
    h 2 (by omega), h 3 (by omega)]

theorem u8Quad_eq (p : ℕ → UInt8) (o : ℕ) : u8Quad p o = le32 p o := by
  apply word_ext
  intro k hk
  rw [byteOf_u8Quad p o hk, byteOf_le32 p o hk]

theorem byteOf_u16Pair (p : ℕ → UInt8) (o : ℕ) {k : ℕ} (hk : k < 4) :
    byteOf (u16Pair p o) k = p (o + k) := by
  rw [u16Pair_eq, byteOf_le32 p o hk]

theorem byteOf_quad (p : ℕ → UInt8) (o : ℕ) {k : ℕ} (hk : k < 4) :
    byteOf (quad p o) k = p (4 * o + k) :=
  byteOf_u8Quad p (4 * o) hk

/-! ## Masks -/

/-- A word of four equal bytes. -/
theorem byteOf_mask {w : UInt32} {b : UInt8}
    (hw : w.toNat = b.toNat + 256 * (b.toNat + 256 * (b.toNat + 256 * b.toNat))) {k : ℕ}
    (hk : k < 4) : byteOf w k = b := by
  rw [← UInt8.toNat_inj]
  exact toNat_byteOf_of_digits (d := fun _ => b.toNat) (fun _ _ => b.toNat_lt) hw hk

theorem byteOf_ones {k : ℕ} (hk : k < 4) : byteOf onesWord k = 1 := byteOf_mask rfl hk

/-- The low nibbles of a word. -/
theorem byteOf_lo (w : UInt32) {k : ℕ} (hk : k < 4) :
    byteOf (w &&& 0x0F0F0F0F) k = byteOf w k &&& (0x0F : UInt8) := by
  have hmask : byteOf 0x0F0F0F0F k = 0x0F := byteOf_mask rfl hk
  rw [byteOf_and _ _ hk, hmask]

/-- The high nibbles of a word. -/
theorem byteOf_hi (w : UInt32) {k : ℕ} (hk : k < 4) :
    byteOf (sar w 4 &&& 0x0F0F0F0F) k = byteOf w k >>> 4 := by
  have hnib : ∀ b : UInt8, (b >>> 4) &&& (0x0F : UInt8) = b >>> 4 := by
    intro b
    rw [← UInt8.toNat_inj, UInt8.toNat_and]
    change _ &&& 2 ^ 4 - 1 = _
    rw [Nat.and_two_pow_sub_one_eq_mod, UInt8.toNat_shiftRight, Nat.mod_eq_of_lt]
    have hb := b.toNat_lt
    change b.toNat >>> 4 < 16
    rw [Nat.shiftRight_eq_div_pow]
    omega
  have hmask : byteOf 0x0F0F0F0F k = 0x0F := byteOf_mask rfl hk
  rw [byteOf_and _ _ hk, hmask, byteOf_sar_and w hk (by omega) (by decide)]
  exact hnib _

/-! ## Flags -/

/-- A bit as bit 4 of a byte. -/
def flagByte (b : Bool) : UInt8 := if b then 0x10 else 0

theorem toUInt8_flag (u : UInt32) : (u &&& 0x10).toUInt8 = flagByte (u.toNat.testBit 4) := by
  rw [← UInt8.toNat_inj, UInt32.toNat_toUInt8, UInt32.toNat_and]
  change (u.toNat &&& 2 ^ 4) % 2 ^ 8 = _
  rw [Nat.and_two_pow]
  cases u.toNat.testBit 4 <;> rfl

/-- A flag joined to a byte in a word. -/
theorem toNat_or_flag (a : UInt8) (u : UInt32) :
    (a.toUInt32 ||| (u &&& 0x10)).toNat = (a ||| (u &&& 0x10).toUInt8).toNat := by
  have hlt : (u &&& 0x10).toNat < 2 ^ 8 := by
    rw [UInt32.toNat_and]
    exact Nat.and_le_right.trans_lt (by decide)
  rw [UInt32.toNat_or, UInt8.toNat_or, UInt8.toNat_toUInt32, UInt32.toNat_toUInt8,
    Nat.mod_eq_of_lt hlt]

/-- The flag of a low nibble of a Q5_0 block. -/
theorem flag_lo (qh : UInt32) {j : ℕ} (hj : j < 16) :
    (((qh >>> UInt32.ofNat j) <<< 4) &&& 0x10).toUInt8 = flagByte (qh.toNat.testBit j) := by
  have hshift : (UInt32.ofNat j).toNat % 32 = j := by
    rw [UInt32.toNat_ofNat']
    omega
  rw [toUInt8_flag, UInt32.toNat_shiftLeft, UInt32.toNat_shiftRight, hshift]
  congr 1
  change (_ <<< 4 % 2 ^ 32).testBit 4 = _
  rw [Nat.testBit_mod_two_pow, Nat.testBit_shiftLeft, Nat.testBit_shiftRight]
  simp

/-- The flag of a high nibble. -/
theorem flag_hi (qh : UInt32) {j : ℕ} (hj : j < 16) :
    ((qh >>> UInt32.ofNat (j + 12)) &&& 0x10).toUInt8 = flagByte (qh.toNat.testBit (16 + j)) := by
  have hshift : (UInt32.ofNat (j + 12)).toNat % 32 = j + 12 := by
    rw [UInt32.toNat_ofNat']
    omega
  rw [toUInt8_flag, UInt32.toNat_shiftRight, hshift, Nat.testBit_shiftRight]
  congr 2
  omega

theorem byteOf_spread4Hi (v : UInt32) {k : ℕ} (hk : k < 4) :
    byteOf (spread4Hi v) k = flagByte (v.toNat.testBit k) := by
  have hall : ∀ n < 16, ∀ k < 4,
      byteOf (((UInt32.ofNat n * 0x00204081) &&& 0x01010101) <<< 4) k = flagByte (n.testBit k) := by
    decide
  have hlow : v &&& 0xF = UInt32.ofNat (v.toNat % 16) := by
    rw [← UInt32.toNat_inj, UInt32.toNat_and, UInt32.toNat_ofNat_of_lt']
    · exact Nat.and_two_pow_sub_one_eq_mod v.toNat 4
    · change _ < 4294967296
      omega
  rw [spread4Hi, hlow, hall _ (Nat.mod_lt _ (by omega)) k hk]
  congr 1
  change (v.toNat % 2 ^ 4).testBit k = _
  rw [Nat.testBit_mod_two_pow]
  simp [hk]

/-- The flags of quad `k` of the low nibbles, and those of the high ones. -/
theorem byteOf_spread_quad (qh : UInt32) {s j : ℕ} (hs : s < 32) (hj : j < 4) :
    byteOf (spread4Hi (qh >>> UInt32.ofNat s)) j = flagByte (qh.toNat.testBit (s + j)) := by
  have hshift : (UInt32.ofNat s).toNat % 32 = s := by
    rw [UInt32.toNat_ofNat']
    omega
  rw [byteOf_spread4Hi _ hj, UInt32.toNat_shiftRight, hshift, Nat.testBit_shiftRight]

/-- Four low weights of a Q5_0 block as a word. -/
theorem byteOf_q50_lo (bp : ℕ → UInt8) {k j : ℕ} (hk : k < 4) (hj : j < 4) :
    byteOf ((u16Pair bp (6 + 4 * k) &&& 0x0F0F0F0F) |||
        spread4Hi (u16Pair bp 2 >>> UInt32.ofNat (4 * k))) j = q50Weight bp (4 * k + j) := by
  have hlt : 4 * k + j < 16 := by omega
  rw [byteOf_or _ _ hj, byteOf_lo _ hj, byteOf_u16Pair _ _ hj, u16Pair_eq,
    byteOf_spread_quad _ (by omega) hj, q50Weight, if_pos hlt, flag_lo _ hlt, Nat.add_assoc]

/-- Four high weights. -/
theorem byteOf_q50_hi (bp : ℕ → UInt8) {k j : ℕ} (hk : k < 4) (hj : j < 4) :
    byteOf ((sar (u16Pair bp (6 + 4 * k)) 4 &&& 0x0F0F0F0F) |||
        spread4Hi (u16Pair bp 2 >>> UInt32.ofNat (16 + 4 * k))) j =
      q50Weight bp (16 + (4 * k + j)) := by
  have hlt : 4 * k + j < 16 := by omega
  have hge : ¬ 16 + (4 * k + j) < 16 := by omega
  rw [byteOf_or _ _ hj, byteOf_hi _ hj, byteOf_u16Pair _ _ hj, u16Pair_eq,
    byteOf_spread_quad _ (by omega) hj, q50Weight, if_neg hge]
  simp only [Nat.add_sub_cancel_left]
  rw [flag_hi _ hlt, Nat.add_assoc, Nat.add_assoc]

end FastLlm
