import FastLlm.Lib.Loop
import FastLlm.Runtime.Codebook
import FastLlm.Runtime.Shadow
import Mathlib.Algebra.Field.Defs
import Mathlib.Algebra.Ring.Int.Defs
import Mathlib.Tactic.Ring

/-!
# The canonical row dot products

`fl_dot_row_any` and the loops below it, for any interpretation of the float operations.  The
canonical order contract says that a row is accumulated element by element in ascending order.
Every format keeps it but IQ3_XXS, whose innermost loop alternates between the two grid entries
of a group of eight (`dotRowAny_ascending_iff`).

In exact arithmetic the order does not matter, and every format gives the sum over the elements
(`dotRowAny_exact`).

## Main definitions

* `Arith` — float operations over a carrier; `Arith.exact` — those of a field.
* `blkValue`, `value` — the element a format encodes.
* `dotRowQ80`, …, `dotRowAny` — the loops of `quants.h`.
* `dotAscending` — the left fold the contract asks for.
-/

namespace FastLlm

/-- The float operations of the kernels over a carrier `F`, uninterpreted. -/
structure Arith (F : Type) where
  zero : F
  /-- The literal `0.5f`. -/
  half : F
  /-- The literal `0.25f`. -/
  quarter : F
  /-- Conversion of an integer. -/
  ofInt : ℤ → F
  /-- The float with the given bits. -/
  ofBits : UInt32 → F
  add : F → F → F
  sub : F → F → F
  mul : F → F → F
  neg : F → F
  fma : F → F → F → F

namespace Arith

instance atLeastTwoTwo : Nat.AtLeastTwo 2 := ⟨le_rfl⟩

/-- Exact arithmetic: the operations of a field.  What the bits of a float stand for is left
open. -/
def exact {K : Type} [Field K] (ofBits : UInt32 → K) : Arith K where
  zero := 0
  half := 1 / 2
  quarter := 1 / 4
  ofInt z := z
  ofBits := ofBits
  add a b := a + b
  sub a b := a - b
  mul a b := a * b
  neg a := -a
  fma a b c := a * b + c

section
variable {K : Type} [Field K] (bits : UInt32 → K) (a b c : K)

@[simp] theorem exact_zero : (exact bits).zero = 0 := rfl
@[simp] theorem exact_ofInt (z : ℤ) : (exact bits).ofInt z = z := rfl
@[simp] theorem exact_ofBits (w : UInt32) : (exact bits).ofBits w = bits w := rfl
@[simp] theorem exact_add : (exact bits).add a b = a + b := rfl
@[simp] theorem exact_sub : (exact bits).sub a b = a - b := rfl
@[simp] theorem exact_mul : (exact bits).mul a b = a * b := rfl
@[simp] theorem exact_neg : (exact bits).neg a = -a := rfl
@[simp] theorem exact_fma : (exact bits).fma a b c = a * b + c := rfl

end

variable {F : Type} (A : Arith F)

/-- A half-precision number as a float. -/
def ofHalf (h : UInt16) : F := A.ofBits (half2float h)

/-- A byte as a float. -/
def ofU8 (b : UInt8) : F := A.ofInt b.toNat

end Arith

/-- The pointer `p + k`. -/
def off {α : Type} (p : ℕ → α) (k : ℕ) : ℕ → α := fun i => p (k + i)

@[simp] theorem off_apply {α : Type} (p : ℕ → α) (k i : ℕ) : off p k i = p (k + i) := rfl

theorem off_zero {α : Type} (p : ℕ → α) : off p 0 = p := by
  funext i
  rw [off_apply, Nat.zero_add]

theorem off_off {α : Type} (p : ℕ → α) (j k : ℕ) : off (off p j) k = off p (j + k) := by
  funext i
  simp only [off_apply, Nat.add_assoc]

/-- Two little-endian 16-bit words as one of 32 bits, as `ld_i32_u16al` composes them. -/
def u16Pair (p : ℕ → UInt8) (o : ℕ) : UInt32 :=
  (le16 p o).toUInt32 ||| ((le16 p (o + 2)).toUInt32 <<< 16)

/-- Four bytes as one word, composed byte by byte. -/
def u8Quad (p : ℕ → UInt8) (o : ℕ) : UInt32 :=
  iter 4 0 (fun b w => w ||| ((p (o + b)).toUInt32 <<< UInt32.ofNat (8 * b)))

/-! ## Elements -/

/-- The six-bit number of element `i` of the Q6_K superblock at `w`. -/
def q6Weight (w : ℕ → UInt8) (i : ℕ) : UInt8 :=
  let ql := off w (i / 128 * 64)
  let qh := off w (128 + i / 128 * 32)
  let l := i % 32
  match i % 128 / 32 with
  | 0 => (ql l &&& (0x0F : UInt8)) ||| (((qh l >>> 0) &&& (3 : UInt8)) <<< 4)
  | 1 => (ql (l + 32) &&& (0x0F : UInt8)) ||| (((qh l >>> 2) &&& (3 : UInt8)) <<< 4)
  | 2 => (ql l >>> 4) ||| (((qh l >>> 4) &&& (3 : UInt8)) <<< 4)
  | _ => (ql (l + 32) >>> 4) ||| (((qh l >>> 6) &&& (3 : UInt8)) <<< 4)

/-- The scale of element `i` of the Q6_K superblock at `w`. -/
def q6Scale (w : ℕ → UInt8) (i : ℕ) : ℤ :=
  i8 (w (192 + i / 128 * 8 + 2 * (i % 128 / 32) + i % 32 / 16))

/-- The words of the group of 32 weights `ib` of an IQ2_XXS superblock: four grid indices, then
four sign indices and a scale. -/
def iq2Words (w : ℕ → UInt8) (ib : ℕ) : UInt32 × UInt32 :=
  (u16Pair w (2 + 8 * ib), u16Pair w (2 + 8 * ib + 4))

/-- The sign and scale word of the group of 32 weights `ib` of an IQ3_XXS superblock. -/
def iq3Word (w : ℕ → UInt8) (ib : ℕ) : UInt32 := u8Quad w (2 + 64 + 4 * ib)

/-- Byte `j` of an entry of the IQ2_XXS grid. -/
def gridByte2 (g : UInt64) (j : ℕ) : UInt8 := (g >>> UInt64.ofNat (8 * j)).toUInt8

/-- Byte `j` of an entry of the IQ3_XXS grid. -/
def gridByte3 (g : UInt32) (j : ℕ) : UInt8 := (g >>> UInt32.ofNat (8 * j)).toUInt8

/-- The sign pattern of the eight weights `l` of a group. -/
def iqSigns (w1 : UInt32) (l : ℕ) : UInt8 :=
  kIqSigns ((w1 >>> UInt32.ofNat (7 * l)) &&& 127).toNat

/-- The grid entry of the eight weights `l` of a group of an IQ2_XXS superblock. -/
def iq2Entry (w0 : UInt32) (l : ℕ) : UInt64 :=
  kIq2xxsGrid ((w0 >>> UInt32.ofNat (8 * l)) &&& 0xFF).toNat

section
variable {F : Type} (A : Arith F)

/-- `s & mask(j) ? -v : v`. -/
def signed (s : UInt8) (j : ℕ) (v : F) : F :=
  if s &&& kIqSignMask j ≠ 0 then A.neg v else v

/-- The scale of a group of 32 weights of an IQ format; `f` is the format's last factor. -/
def iqScale (d : F) (w1 : UInt32) (f : F) : F :=
  A.mul (A.mul d (A.add A.half (A.ofInt (w1 >>> 28).toNat))) f

/-- Element `i` of the block at `w`, dequantized. -/
def blkValue (f : Fmt) (w : ℕ → UInt8) (i : ℕ) : F :=
  match f with
  | .F32 => A.ofBits (le32 w 0)
  | .Q8_0 => A.mul (A.ofHalf (le16 w 0)) (A.ofInt (i8 (w (2 + i))))
  | .Q5_0 => A.mul (A.ofHalf (le16 w 0)) (A.ofInt ((q50Weight w i).toNat - 16))
  | .Q4_K =>
    A.sub (A.mul (A.mul (A.ofHalf (le16 w 0)) (A.ofU8 (q4kScale (off w 4) (i / 32))))
        (A.ofU8 (q4kWeight w i)))
      (A.mul (A.ofHalf (le16 w 2)) (A.ofU8 (q4kMin (off w 4) (i / 32))))
  | .Q6_K =>
    A.mul (A.mul (A.ofHalf (le16 w 208)) (A.ofInt (q6Scale w i)))
      (A.ofInt ((q6Weight w i).toNat - 32))
  | .IQ2_XXS =>
    let ws := iq2Words w (i / 32)
    let l := i % 32 / 8
    A.mul (iqScale A (A.ofHalf (le16 w 0)) ws.2 A.quarter)
      (signed A (iqSigns ws.2 l) (i % 8) (A.ofU8 (gridByte2 (iq2Entry ws.1 l) (i % 8))))
  | .IQ3_XXS =>
    let w1 := iq3Word w (i / 32)
    A.mul (iqScale A (A.ofHalf (le16 w 0)) w1 A.half)
      (signed A (iqSigns w1 (i % 32 / 8)) (i % 8)
        (A.ofU8 (gridByte3 (kIq3xxsGrid (w (2 + i / 4)).toNat) (i % 4))))

/-- Element `e` of the row at `row`, dequantized. -/
def value (f : Fmt) (row : ℕ → UInt8) (e : ℕ) : F :=
  blkValue A f (off row (e / blkElems f * blkBytes f)) (e % blkElems f)

/-! ## The loops -/

/-- The row dot product of F32 rows. -/
def dotRowF32 (row : ℕ → UInt8) (x : ℕ → F) (cols : ℕ) : F :=
  iter cols A.zero (fun c acc => A.add acc (A.mul (A.ofBits (le32 row (4 * c))) (x c)))

/-- `fl_dot_row_q8_0`. -/
def dotRowQ80 (row : ℕ → UInt8) (x : ℕ → F) (cols : ℕ) : F :=
  iter (cols / 32) A.zero (fun b acc =>
    let B := off row (b * 34)
    let d := A.ofHalf (le16 B 0)
    iter 32 acc (fun i acc =>
      A.add acc (A.mul (A.mul d (A.ofInt (i8 (B (2 + i))))) (x (b * 32 + i)))))

/-- `fl_dot_row_q5_0`. -/
def dotRowQ50 (row : ℕ → UInt8) (x : ℕ → F) (cols : ℕ) : F :=
  iter (cols / 32) A.zero (fun b acc =>
    let B := off row (b * 22)
    let d := A.ofHalf (le16 B 0)
    let qh := le32 B 2
    let qs := off B 6
    let acc := iter 16 acc (fun j acc =>
      let xh := (((qh >>> UInt32.ofNat j) <<< 4) &&& 0x10).toUInt8
      let v : ℤ := ((qs j &&& (0x0F : UInt8)) ||| xh).toNat - 16
      A.add acc (A.mul (A.mul d (A.ofInt v)) (x (b * 32 + j))))
    iter 16 acc (fun j acc =>
      let xh := ((qh >>> UInt32.ofNat (j + 12)) &&& 0x10).toUInt8
      let v : ℤ := ((qs j >>> 4) ||| xh).toNat - 16
      A.add acc (A.mul (A.mul d (A.ofInt v)) (x (b * 32 + 16 + j)))))

/-- `fl_dot_row_q4_K`. -/
def dotRowQ4K (row : ℕ → UInt8) (x : ℕ → F) (cols : ℕ) : F :=
  iter (cols / 256) A.zero (fun sb acc =>
    let B := off row (sb * 144)
    let d := A.ofHalf (le16 B 0)
    let dmin := A.ofHalf (le16 B 2)
    let scales := off B 4
    iter 4 acc (fun c acc =>
      let q := off B (16 + c * 32)
      let d1 := A.mul d (A.ofU8 (q4kScale scales (2 * c)))
      let m1 := A.mul dmin (A.ofU8 (q4kMin scales (2 * c)))
      let d2 := A.mul d (A.ofU8 (q4kScale scales (2 * c + 1)))
      let m2 := A.mul dmin (A.ofU8 (q4kMin scales (2 * c + 1)))
      let xb := off x (sb * 256 + c * 64)
      let acc := iter 32 acc (fun l acc =>
        A.add acc (A.mul (A.sub (A.mul d1 (A.ofU8 (q l &&& (0x0F : UInt8)))) m1) (xb l)))
      iter 32 acc (fun l acc =>
        A.add acc (A.mul (A.sub (A.mul d2 (A.ofU8 (q l >>> 4))) m2) (xb (32 + l))))))

/-- `fl_dot_row_q6_K`. -/
def dotRowQ6K (row : ℕ → UInt8) (x : ℕ → F) (cols : ℕ) : F :=
  iter (cols / 256) A.zero (fun sb acc =>
    let B := off row (sb * 210)
    let d := A.ofHalf (le16 B 208)
    let xb := off x (sb * 256)
    iter 2 acc (fun n acc =>
      let ql := off B (n * 64)
      let qh := off B (128 + n * 32)
      let sc := off B (192 + n * 8)
      let term (k : ℕ) (q : UInt8) (l : ℕ) (acc : F) : F :=
        A.add acc (A.mul (A.mul (A.mul d (A.ofInt (i8 (sc (2 * k + l / 16)))))
          (A.ofInt ((q.toNat : ℤ) - 32))) (xb (n * 128 + k * 32 + l)))
      let acc := iter 32 acc (fun l acc =>
        term 0 ((ql l &&& (0x0F : UInt8)) ||| (((qh l >>> 0) &&& (3 : UInt8)) <<< 4)) l acc)
      let acc := iter 32 acc (fun l acc =>
        term 1 ((ql (l + 32) &&& (0x0F : UInt8)) ||| (((qh l >>> 2) &&& (3 : UInt8)) <<< 4)) l acc)
      let acc := iter 32 acc (fun l acc =>
        term 2 ((ql l >>> 4) ||| (((qh l >>> 4) &&& (3 : UInt8)) <<< 4)) l acc)
      iter 32 acc (fun l acc =>
        term 3 ((ql (l + 32) >>> 4) ||| (((qh l >>> 6) &&& (3 : UInt8)) <<< 4)) l acc)))

/-- `fl_dot_row_iq2_xxs`. -/
def dotRowIq2 (row : ℕ → UInt8) (x : ℕ → F) (cols : ℕ) : F :=
  iter (cols / 256) A.zero (fun sb acc =>
    let B := off row (sb * 66)
    let d := A.ofHalf (le16 B 0)
    let xb := off x (sb * 256)
    iter 8 acc (fun ib32 acc =>
      let ws := iq2Words B ib32
      let db := iqScale A d ws.2 A.quarter
      iter 4 acc (fun l acc =>
        let g := iq2Entry ws.1 l
        let s := iqSigns ws.2 l
        iter 8 acc (fun j acc =>
          A.add acc (A.mul (A.mul db (signed A s j (A.ofU8 (gridByte2 g j))))
            (xb (ib32 * 32 + l * 8 + j)))))))

/-- `fl_dot_row_iq3_xxs`.  The innermost loop adds an element of each of the two grid entries of
a group of eight per round. -/
def dotRowIq3 (row : ℕ → UInt8) (x : ℕ → F) (cols : ℕ) : F :=
  iter (cols / 256) A.zero (fun sb acc =>
    let B := off row (sb * 98)
    let d := A.ofHalf (le16 B 0)
    let qs := off B 2
    let xb := off x (sb * 256)
    iter 8 acc (fun ib32 acc =>
      let w1 := iq3Word B ib32
      let db := iqScale A d w1 A.half
      iter 4 acc (fun l acc =>
        let g1 := kIq3xxsGrid (qs (8 * ib32 + 2 * l)).toNat
        let g2 := kIq3xxsGrid (qs (8 * ib32 + 2 * l + 1)).toNat
        let s := iqSigns w1 l
        iter 4 acc (fun j acc =>
          let acc := A.add acc (A.mul (A.mul db (signed A s j (A.ofU8 (gridByte3 g1 j))))
            (xb (ib32 * 32 + l * 8 + j)))
          A.add acc (A.mul (A.mul db (signed A s (j + 4) (A.ofU8 (gridByte3 g2 j))))
            (xb (ib32 * 32 + l * 8 + j + 4)))))))

/-- `fl_dot_row_any`. -/
def dotRowAny (f : Fmt) (row : ℕ → UInt8) (x : ℕ → F) (cols : ℕ) : F :=
  match f with
  | .F32 => dotRowF32 A row x cols
  | .Q8_0 => dotRowQ80 A row x cols
  | .Q5_0 => dotRowQ50 A row x cols
  | .Q4_K => dotRowQ4K A row x cols
  | .Q6_K => dotRowQ6K A row x cols
  | .IQ2_XXS => dotRowIq2 A row x cols
  | .IQ3_XXS => dotRowIq3 A row x cols

/-- What the canonical order contract asks for: `acc := acc + value(e) * x[e]` over all elements
in ascending order. -/
def dotAscending (f : Fmt) (row : ℕ → UInt8) (x : ℕ → F) (cols : ℕ) : F :=
  iter cols A.zero (fun e acc => A.add acc (A.mul (value A f row e) (x e)))

/-! ## Ascending order -/

/-- Element `i` of block `b`. -/
theorem value_block (f : Fmt) (row : ℕ → UInt8) (b : ℕ) {i : ℕ} (hi : i < blkElems f) :
    value A f row (b * blkElems f + i) = blkValue A f (off row (b * blkBytes f)) i := by
  have hpos := blkElems_pos f
  have hdiv : (b * blkElems f + i) / blkElems f = b := by
    rw [Nat.mul_comm, Nat.mul_add_div hpos, Nat.div_eq_of_lt hi, Nat.add_zero]
  have hmod : (b * blkElems f + i) % blkElems f = i := by
    rw [Nat.mul_comm, Nat.mul_add_mod, Nat.mod_eq_of_lt hi]
  rw [value, hdiv, hmod]

/-- The contract, block by block. -/
theorem dotAscending_blocks (f : Fmt) (row : ℕ → UInt8) (x : ℕ → F) {cols : ℕ}
    (hc : blkElems f ∣ cols) :
    dotAscending A f row x cols = iter (cols / blkElems f) A.zero (fun b acc =>
      iter (blkElems f) acc (fun i acc =>
        A.add acc (A.mul (blkValue A f (off row (b * blkBytes f)) i)
          (x (b * blkElems f + i))))) := by
  rw [dotAscending]
  conv_lhs => rw [← Nat.div_mul_cancel hc]
  rw [iter_mul]
  apply iter_congr
  intro b _ acc
  apply iter_congr
  intro i hi acc
  rw [value_block A f row b hi]

theorem value_f32 (row : ℕ → UInt8) (c : ℕ) : value A .F32 row c = A.ofBits (le32 row (4 * c)) := by
  simp only [value, blkValue, blkElems, blkBytes, Nat.div_one]
  have : le32 (off row (c * 4)) 0 = le32 row (4 * c) := by
    simp [le32, Nat.mul_comm c 4]
  rw [this]

theorem dotRowF32_ascending (row : ℕ → UInt8) (x : ℕ → F) (cols : ℕ) :
    dotRowF32 A row x cols = dotAscending A .F32 row x cols := by
  rw [dotRowF32, dotAscending]
  apply iter_congr
  intro c _ acc
  rw [value_f32]

theorem dotRowQ80_ascending (row : ℕ → UInt8) (x : ℕ → F) {cols : ℕ} (hc : 32 ∣ cols) :
    dotRowQ80 A row x cols = dotAscending A .Q8_0 row x cols := by
  rw [dotAscending_blocks A .Q8_0 row x hc]
  rfl

theorem dotRowQ50_ascending (row : ℕ → UInt8) (x : ℕ → F) {cols : ℕ} (hc : 32 ∣ cols) :
    dotRowQ50 A row x cols = dotAscending A .Q5_0 row x cols := by
  rw [dotAscending_blocks A .Q5_0 row x hc]
  apply iter_congr
  intro b _ acc
  have hlo : ∀ j < 16, ∀ w : ℕ → UInt8, q50Weight w j =
      (w (6 + j) &&& (0x0F : UInt8)) ||| (((le32 w 2 >>> UInt32.ofNat j) <<< 4) &&& 0x10).toUInt8 :=
    fun j hj w => by simp [q50Weight, hj]
  have hhi : ∀ j : ℕ, ∀ w : ℕ → UInt8, q50Weight w (16 + j) =
      (w (6 + j) >>> 4) ||| ((le32 w 2 >>> UInt32.ofNat (j + 12)) &&& 0x10).toUInt8 :=
    fun j w => by simp [q50Weight]
  apply iter_append (m := 16) (n := 16)
  · intro j hj acc
    simp only [blkValue, blkElems, blkBytes, hlo j hj]
    rfl
  · intro j _ acc
    simp only [blkValue, blkElems, blkBytes, hhi, Nat.add_assoc]
    rfl

theorem q4kWeight_lo (w : ℕ → UInt8) (c : ℕ) {l : ℕ} (hl : l < 32) :
    q4kWeight w (c * 64 + l) = w (16 + c * 32 + l) &&& (0x0F : UInt8) := by
  have h1 : (c * 64 + l) / 64 = c := by omega
  have h2 : (c * 64 + l) % 64 = l := by omega
  simp only [q4kWeight, h1, h2, hl, if_true]

theorem q4kWeight_hi (w : ℕ → UInt8) (c : ℕ) {l : ℕ} (hl : l < 32) :
    q4kWeight w (c * 64 + (32 + l)) = w (16 + c * 32 + l) >>> 4 := by
  have h1 : (c * 64 + (32 + l)) / 64 = c := by omega
  have h2 : (c * 64 + (32 + l)) % 64 = 32 + l := by omega
  have h3 : ¬ 32 + l < 32 := by omega
  simp only [q4kWeight, h1, h2, h3, if_false, Nat.add_sub_cancel_left]

theorem dotRowQ4K_ascending (row : ℕ → UInt8) (x : ℕ → F) {cols : ℕ} (hc : 256 ∣ cols) :
    dotRowQ4K A row x cols = dotAscending A .Q4_K row x cols := by
  rw [dotAscending_blocks A .Q4_K row x hc]
  apply iter_congr
  intro sb _ acc
  change _ = iter (4 * 64) acc _
  rw [iter_mul]
  apply iter_congr
  intro c _ acc
  apply iter_append (m := 32) (n := 32)
  · intro l hl acc
    have h1 : (c * 64 + l) / 32 = 2 * c := by omega
    simp only [blkValue, blkElems, blkBytes, q4kWeight_lo _ _ hl, h1, off_apply, Nat.add_assoc]
  · intro l hl acc
    have h1 : (c * 64 + (32 + l)) / 32 = 2 * c + 1 := by omega
    simp only [blkValue, blkElems, blkBytes, q4kWeight_hi _ _ hl, h1, off_apply, Nat.add_assoc]

theorem q6Weight_span (w : ℕ → UInt8) (n : ℕ) {s l : ℕ} (hs : s < 4) (hl : l < 32) :
    q6Weight w (n * 128 + s * 32 + l) =
      match s with
      | 0 => (w (n * 64 + l) &&& (0x0F : UInt8)) ||| (((w (128 + n * 32 + l) >>> 0) &&& (3 : UInt8)) <<< 4)
      | 1 => (w (n * 64 + (l + 32)) &&& (0x0F : UInt8)) ||| (((w (128 + n * 32 + l) >>> 2) &&& (3 : UInt8)) <<< 4)
      | 2 => (w (n * 64 + l) >>> 4) ||| (((w (128 + n * 32 + l) >>> 4) &&& (3 : UInt8)) <<< 4)
      | _ => (w (n * 64 + (l + 32)) >>> 4) ||| (((w (128 + n * 32 + l) >>> 6) &&& (3 : UInt8)) <<< 4) := by
  have h1 : (n * 128 + s * 32 + l) / 128 = n := by omega
  have h2 : (n * 128 + s * 32 + l) % 128 / 32 = s := by omega
  have h3 : (n * 128 + s * 32 + l) % 32 = l := by omega
  simp only [q6Weight, h1, h2, h3, off_apply]
  rcases s with _ | _ | _ | _ | s
  · rfl
  · rfl
  · rfl
  · rfl
  · omega

theorem q6Scale_span (w : ℕ → UInt8) (n : ℕ) {s l : ℕ} (hs : s < 4) (hl : l < 32) :
    q6Scale w (n * 128 + s * 32 + l) = i8 (w (192 + n * 8 + (2 * s + l / 16))) := by
  have h1 : (n * 128 + s * 32 + l) / 128 = n := by omega
  have h2 : (n * 128 + s * 32 + l) % 128 / 32 = s := by omega
  have h3 : (n * 128 + s * 32 + l) % 32 = l := by omega
  simp only [q6Scale, h1, h2, h3]
  rw [Nat.add_assoc]

theorem dotRowQ6K_ascending (row : ℕ → UInt8) (x : ℕ → F) {cols : ℕ} (hc : 256 ∣ cols) :
    dotRowQ6K A row x cols = dotAscending A .Q6_K row x cols := by
  rw [dotAscending_blocks A .Q6_K row x hc]
  apply iter_congr
  intro sb _ acc
  change _ = iter (2 * (4 * 32)) acc _
  rw [iter_mul]
  apply iter_congr
  intro n _ acc
  rw [iter_mul]
  set w := off row (sb * 210) with hw
  -- the four spans of a half, one after the other
  have hspan : ∀ s < 4, ∀ q : ℕ → UInt8, (∀ l < 32, q6Weight w (n * 128 + s * 32 + l) = q l) →
      ∀ acc, iter 32 acc (fun l acc =>
          A.add acc (A.mul (blkValue A .Q6_K w (n * (4 * 32) + (s * 32 + l)))
            (x (sb * 256 + (n * (4 * 32) + (s * 32 + l)))))) =
        iter 32 acc (fun l acc => A.add acc (A.mul (A.mul (A.mul (A.ofHalf (le16 w 208))
          (A.ofInt (i8 (off w (192 + n * 8) (2 * s + l / 16)))))
          (A.ofInt (((q l).toNat : ℤ) - 32)))
          (off x (sb * 256) (n * 128 + s * 32 + l)))) := by
    intro s hs q hq acc
    apply iter_congr
    intro l hl acc
    rw [← Nat.add_assoc (n * (4 * 32)), ← hq l hl]
    simp only [blkValue]
    rw [q6Scale_span _ n hs hl]
    rfl
  simp only [blkElems, blkBytes, ← hw]
  rw [iter_four,
    hspan 0 (by omega) (fun l => (w (n * 64 + l) &&& (0x0F : UInt8)) |||
      (((w (128 + n * 32 + l) >>> 0) &&& (3 : UInt8)) <<< 4)) fun l hl => q6Weight_span w n (by omega) hl,
    hspan 1 (by omega) (fun l => (w (n * 64 + (l + 32)) &&& (0x0F : UInt8)) |||
      (((w (128 + n * 32 + l) >>> 2) &&& (3 : UInt8)) <<< 4)) fun l hl => q6Weight_span w n (by omega) hl,
    hspan 2 (by omega) (fun l => (w (n * 64 + l) >>> 4) |||
      (((w (128 + n * 32 + l) >>> 4) &&& (3 : UInt8)) <<< 4)) fun l hl => q6Weight_span w n (by omega) hl,
    hspan 3 (by omega) (fun l => (w (n * 64 + (l + 32)) >>> 4) |||
      (((w (128 + n * 32 + l) >>> 6) &&& (3 : UInt8)) <<< 4)) fun l hl => q6Weight_span w n (by omega) hl]
  rfl

theorem dotRowIq2_ascending (row : ℕ → UInt8) (x : ℕ → F) {cols : ℕ} (hc : 256 ∣ cols) :
    dotRowIq2 A row x cols = dotAscending A .IQ2_XXS row x cols := by
  rw [dotAscending_blocks A .IQ2_XXS row x hc]
  apply iter_congr
  intro sb _ acc
  change _ = iter (8 * (4 * 8)) acc _
  rw [iter_mul]
  apply iter_congr
  intro ib _ acc
  rw [iter_mul]
  apply iter_congr
  intro l hl acc
  apply iter_congr
  intro j hj acc
  have h1 : (ib * (4 * 8) + (l * 8 + j)) / 32 = ib := by omega
  have h2 : (ib * (4 * 8) + (l * 8 + j)) % 32 / 8 = l := by omega
  have h3 : (ib * (4 * 8) + (l * 8 + j)) % 8 = j := by omega
  simp only [blkValue, blkElems, blkBytes, h1, h2, h3, off_apply, Nat.add_assoc, Nat.reduceMul]

/-- A value of an IQ3_XXS block, by group of eight and number in its half. -/
theorem blkValue_iq3 (w : ℕ → UInt8) (ib : ℕ) {l h j : ℕ} (hl : l < 4) (hh : h < 2) (hj : j < 4) :
    blkValue A .IQ3_XXS w (ib * 32 + l * 8 + (h * 4 + j)) =
      A.mul (iqScale A (A.ofHalf (le16 w 0)) (iq3Word w ib) A.half)
        (signed A (iqSigns (iq3Word w ib) l) (h * 4 + j)
          (A.ofU8 (gridByte3 (kIq3xxsGrid (w (2 + (8 * ib + 2 * l + h))).toNat) j))) := by
  have h1 : (ib * 32 + l * 8 + (h * 4 + j)) / 32 = ib := by omega
  have h2 : (ib * 32 + l * 8 + (h * 4 + j)) % 32 / 8 = l := by omega
  have h3 : (ib * 32 + l * 8 + (h * 4 + j)) % 8 = h * 4 + j := by omega
  have h4 : (ib * 32 + l * 8 + (h * 4 + j)) / 4 = 8 * ib + 2 * l + h := by omega
  have h5 : (ib * 32 + l * 8 + (h * 4 + j)) % 4 = j := by omega
  simp only [blkValue, h1, h2, h3, h4, h5]

/-- The loop of IQ3_XXS adds the elements `j` and `j + 4` of each group of eight in turn. -/
theorem dotRowIq3_blocks (row : ℕ → UInt8) (x : ℕ → F) (cols : ℕ) :
    dotRowIq3 A row x cols = iter (cols / 256) A.zero (fun sb acc => iter 8 acc (fun ib acc =>
      iter 4 acc (fun l acc => iter 4 acc (fun j acc => iter 2 acc (fun h acc =>
        A.add acc (A.mul (blkValue A .IQ3_XXS (off row (sb * 98)) (ib * 32 + l * 8 + (h * 4 + j)))
          (x (sb * 256 + (ib * 32 + l * 8 + (h * 4 + j)))))))))) := by
  apply iter_congr
  intro sb _ acc
  apply iter_congr
  intro ib _ acc
  apply iter_congr
  intro l hl acc
  apply iter_congr
  intro j hj acc
  rw [iter_two, blkValue_iq3 A _ _ hl (by omega) hj, blkValue_iq3 A _ _ hl (by omega) hj]
  simp only [off_apply, Nat.add_assoc, Nat.zero_mul, Nat.one_mul, Nat.zero_add, Nat.add_zero,
    Nat.add_comm 4 j]

/-- Every format but IQ3_XXS is accumulated in ascending order. -/
theorem dotRowAny_ascending {f : Fmt} (hf : f ≠ .IQ3_XXS) (row : ℕ → UInt8) (x : ℕ → F)
    {cols : ℕ} (hc : blkElems f ∣ cols) :
    dotRowAny A f row x cols = dotAscending A f row x cols := by
  cases f with
  | F32 => exact dotRowF32_ascending A row x cols
  | Q8_0 => exact dotRowQ80_ascending A row x hc
  | Q5_0 => exact dotRowQ50_ascending A row x hc
  | Q4_K => exact dotRowQ4K_ascending A row x hc
  | Q6_K => exact dotRowQ6K_ascending A row x hc
  | IQ2_XXS => exact dotRowIq2_ascending A row x hc
  | IQ3_XXS => exact absurd rfl hf

end

/-! ## The exact condition -/

/-- An interpretation that remembers the last element added and whether all came in ascending
order. -/
def orderArith : Arith (ℕ × Bool) where
  zero := (0, true)
  half := (0, true)
  quarter := (0, true)
  ofInt _ := (0, true)
  ofBits _ := (0, true)
  add a b := (b.1, a.2 && decide (a.1 ≤ b.1))
  sub a _ := a
  mul _ b := b
  neg a := a
  fma _ _ c := c

/-- In ascending order every element is at least the one before. -/
theorem dotAscending_order (f : Fmt) (row : ℕ → UInt8) (cols : ℕ) :
    (dotAscending orderArith f row (fun e => (e, true)) cols).2 = true := by
  have h := iter_induction (n := cols) (a := orderArith.zero)
    (f := fun e acc => orderArith.add acc (orderArith.mul (value orderArith f row e) (e, true)))
    (P := fun i acc => acc.2 = true ∧ acc.1 ≤ i) ⟨rfl, le_rfl⟩ ?_
  · exact h.1
  · intro i _ acc hacc
    simp [orderArith, hacc.1, hacc.2]

/-- IQ3_XXS steps back: element 3 of a group follows element 6. -/
theorem dotRowIq3_order (row : ℕ → UInt8) {cols : ℕ} (hc : 256 ≤ cols) :
    (dotRowIq3 orderArith row (fun e => (e, true)) cols).2 = false := by
  obtain ⟨n, hn⟩ : ∃ n, cols / 256 = n + 1 := ⟨cols / 256 - 1, by omega⟩
  rw [dotRowIq3_blocks, hn, iter_succ, iter_succ 7]
  -- the last three elements added are 6, 3 and 7 of their group
  simp only [iter_four, iter_two]
  simp [orderArith]

/-- For a row of `cols` elements the order is ascending under every interpretation of the float
operations, unless the format is IQ3_XXS. -/
theorem dotRowAny_ascending_iff (f : Fmt) (row : ℕ → UInt8) (cols : ℕ) (hc : blkElems f ∣ cols) :
    (∀ (F : Type) (A : Arith F) (x : ℕ → F),
      dotRowAny A f row x cols = dotAscending A f row x cols) ↔ f ≠ .IQ3_XXS ∨ cols = 0 := by
  constructor
  · intro h
    by_contra hne
    simp only [not_or, not_not] at hne
    obtain ⟨rfl, hpos⟩ := hne
    have h256 : 256 ≤ cols := Nat.le_of_dvd (by omega) hc
    have heq := h _ orderArith fun e => (e, true)
    have hno := dotRowIq3_order row h256
    change (dotRowAny orderArith .IQ3_XXS row _ cols).2 = false at hno
    rw [heq, dotAscending_order] at hno
    simp at hno
  · rintro (hf | rfl) F A x
    · exact dotRowAny_ascending A hf row x hc
    · cases f <;> simp [dotRowAny, dotAscending, dotRowF32, dotRowQ80, dotRowQ50, dotRowQ4K,
        dotRowQ6K, dotRowIq2, dotRowIq3]

/-- At one superblock of zero bytes. -/
theorem dotRowAny_ascending_iff_q6 :
    (∀ (F : Type) (A : Arith F) (x : ℕ → F),
      dotRowAny A .Q6_K (fun _ => 0) x 256 = dotAscending A .Q6_K (fun _ => 0) x 256) ↔
      Fmt.Q6_K ≠ .IQ3_XXS ∨ 256 = 0 :=
  dotRowAny_ascending_iff .Q6_K (fun _ => 0) 256 (by decide)

/-- An IQ3_XXS row is not accumulated in ascending order. -/
theorem iq3_not_ascending :
    ¬ ∀ (F : Type) (A : Arith F) (x : ℕ → F),
      dotRowAny A .IQ3_XXS (fun _ => 0) x 256 = dotAscending A .IQ3_XXS (fun _ => 0) x 256 := by
  intro h
  have h1 := congrArg Prod.snd (h _ orderArith fun e => (e, true))
  have h2 : (dotRowAny orderArith .IQ3_XXS (fun _ => 0) (fun e => (e, true)) 256).2 = false :=
    dotRowIq3_order (fun _ => 0) le_rfl
  have h3 := dotAscending_order .IQ3_XXS (fun _ => 0) 256
  rw [h2, h3] at h1
  exact absurd h1 (by decide)

/-! ## Exact arithmetic -/

section Exact
variable {K : Type} [Field K] (bits : UInt32 → K)

theorem dotAscending_exact (f : Fmt) (row : ℕ → UInt8) (x : ℕ → K) (cols : ℕ) :
    dotAscending (.exact bits) f row x cols =
      ∑ e ∈ Finset.range cols, value (.exact bits) f row e * x e := by
  have h := iter_sum cols (fun e => value (.exact bits) f row e * x e) 0
  rw [zero_add] at h
  exact h

/-- The two elements added per round of IQ3_XXS, over a group of eight. -/
theorem sum_alternating (g : ℕ → K) :
    ∑ j ∈ Finset.range 4, ∑ h ∈ Finset.range 2, g (h * 4 + j) = ∑ i ∈ Finset.range 8, g i := by
  rw [Finset.sum_comm]
  exact (sum_range_mul 2 4 g).symm

/-- The sum over a row, block by block. -/
theorem sum_value_blocks (f : Fmt) (row : ℕ → UInt8) (x : ℕ → K) {cols : ℕ}
    (hc : blkElems f ∣ cols) :
    ∑ e ∈ Finset.range cols, value (.exact bits) f row e * x e =
      ∑ b ∈ Finset.range (cols / blkElems f), ∑ i ∈ Finset.range (blkElems f),
        blkValue (.exact bits) f (off row (b * blkBytes f)) i * x (b * blkElems f + i) := by
  conv_lhs => rw [← Nat.div_mul_cancel hc]
  rw [sum_range_mul]
  refine Finset.sum_congr rfl fun b _ => Finset.sum_congr rfl fun i hi => ?_
  rw [value_block _ f row b (Finset.mem_range.mp hi)]

/-- A loop that adds up in exact arithmetic. -/
theorem iter_exact (n : ℕ) (g : ℕ → K) (a : K) :
    iter n a (fun i acc => (Arith.exact bits).add acc (g i)) =
      a + ∑ i ∈ Finset.range n, g i :=
  iter_sum n g a

theorem dotRowIq3_exact (row : ℕ → UInt8) (x : ℕ → K) {cols : ℕ} (hc : 256 ∣ cols) :
    dotRowIq3 (.exact bits) row x cols =
      ∑ e ∈ Finset.range cols, value (.exact bits) .IQ3_XXS row e * x e := by
  have hsplit : ∀ g : ℕ → K, ∑ i ∈ Finset.range 256, g i = ∑ ib ∈ Finset.range 8,
      ∑ l ∈ Finset.range 4, ∑ j ∈ Finset.range 4, ∑ h ∈ Finset.range 2,
        g (ib * 32 + l * 8 + (h * 4 + j)) := by
    intro g
    rw [sum_range_mul 8 32 g]
    refine Finset.sum_congr rfl fun ib _ => ?_
    rw [sum_range_mul 4 8]
    refine Finset.sum_congr rfl fun l _ => ?_
    rw [← sum_alternating fun i => g (ib * 32 + (l * 8 + i))]
    simp only [Nat.add_assoc]
  rw [sum_value_blocks bits .IQ3_XXS row x hc, dotRowIq3_blocks]
  simp only [iter_exact, iter_sum, Arith.exact_zero, zero_add, Arith.exact_mul]
  refine Finset.sum_congr rfl fun sb _ => ?_
  simp only [blkElems, blkBytes, hsplit]

/-- In exact arithmetic every format gives the sum over the elements. -/
theorem dotRowAny_exact (f : Fmt) (row : ℕ → UInt8) (x : ℕ → K) {cols : ℕ}
    (hc : blkElems f ∣ cols) :
    dotRowAny (.exact bits) f row x cols =
      ∑ e ∈ Finset.range cols, value (.exact bits) f row e * x e := by
  by_cases hf : f = .IQ3_XXS
  · subst hf
    exact dotRowIq3_exact bits row x hc
  · rw [dotRowAny_ascending _ hf row x hc, dotAscending_exact]

end Exact
end FastLlm
