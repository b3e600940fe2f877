import FastLlm.Lib.Bytes
import FastLlm.Runtime.Quants

/-!
# Shadows of packed weights

The unpacked copies of Q4_K and Q5_0 weights of `shadow.cpp`, to the byte.  A packed tensor is
the list of its bytes, and the builders return the bytes they write, in order.

The builders work row by row, or with the row-pair layout pair by pair, so that a tensor cut
into chunks of an even number of rows is built as a whole (`buildParallel_eq`).

## Main definitions

* `half2float`, `q4kScalesAll` — the conversions.
* `buildRowsQ4k`, `buildRowsQ4kSmmla`, `buildRowsQ50` — the builders.
* `ShadowTensorDesc`, `buildRows`, `buildParallel` — a tensor, and building its shadow with some
  number of threads.
-/

namespace FastLlm

/-- `fl_half2float`, down to the bits of the float. -/
def half2float (h : UInt16) : UInt32 :=
  let sign := (h &&& 0x8000).toUInt32 <<< 16
  let em := (h &&& 0x7FFF).toUInt32
  if em ≥ 0x7C00 then sign ||| (0x7F800000 : UInt32) ||| ((em &&& 0x03FF) <<< 13)
  else if em ≥ 0x0400 then sign ||| ((em + 0x1C000) <<< 13)
  else if em = 0 then sign
  else
    let (m, e) := renormalize 10 em (-1)
    sign ||| ((112 - e) <<< 23) ||| ((m &&& 0x03FF) <<< 13)
where
  /-- `do { m <<= 1; ++e; } while (!(m & 0x0400u))`; one of the ten low bits of `m` is set. -/
  renormalize : ℕ → UInt32 → UInt32 → UInt32 × UInt32
    | 0, m, e => (m, e)
    | n + 1, m, e =>
      if (m <<< 1) &&& 0x0400 ≠ 0 then (m <<< 1, e + 1) else renormalize n (m <<< 1) (e + 1)

/-- The little-endian 16-bit word at offset `o` of a block. -/
def le16 (w : ℕ → UInt8) (o : ℕ) : UInt16 := UInt16.ofNat (leNat [w o, w (o + 1)])

/-- The little-endian 32-bit word at offset `o` of a block. -/
def le32 (w : ℕ → UInt8) (o : ℕ) : UInt32 :=
  UInt32.ofNat (leNat [w o, w (o + 1), w (o + 2), w (o + 3)])

/-- The bytes of the float a half-precision number stands for. -/
def floatBytes (h : UInt16) : List UInt8 := leBytes 4 (half2float h).toNat

/-- `d8` of `fl_q4k_scales_all`, for `scales` at `s`. -/
def q4kScale (s : ℕ → UInt8) (j : ℕ) : UInt8 :=
  if j < 4 then s j &&& (63 : UInt8)
  else (s (j + 4) &&& (0x0F : UInt8)) ||| ((s (j - 4) >>> 6) <<< 4)

/-- `m8` of `fl_q4k_scales_all`. -/
def q4kMin (s : ℕ → UInt8) (j : ℕ) : UInt8 :=
  if j < 4 then s (j + 4) &&& (63 : UInt8)
  else (s (j + 4) >>> 4) ||| ((s j >>> 6) <<< 4)

/-- The 24 header bytes of the superblock at `w`: `d`, `dmin`, the scales and the mins. -/
def q4kHeader (w : ℕ → UInt8) : List UInt8 :=
  floatBytes (le16 w 0) ++ floatBytes (le16 w 2) ++
    (List.range 8).map (q4kScale fun i => w (4 + i)) ++
    (List.range 8).map (q4kMin fun i => w (4 + i))

/-- Weight `i` of the superblock at `w`.  Each chunk of 32 bytes has 32 low and 32 high
nibbles. -/
def q4kWeight (w : ℕ → UInt8) (i : ℕ) : UInt8 :=
  let c := i / 64
  if i % 64 < 32 then w (16 + c * 32 + i % 64) &&& (0x0F : UInt8)
  else w (16 + c * 32 + (i % 64 - 32)) >>> 4

/-- The shadow of the superblock at `w`. -/
def q4kBlock (w : ℕ → UInt8) : List UInt8 :=
  q4kHeader w ++ (List.range 256).map (q4kWeight w)

/-- The shadow of a pair of superblocks, one above the other in two rows. -/
def q4kPair (w₀ w₁ : ℕ → UInt8) : List UInt8 :=
  q4kHeader w₀ ++ q4kHeader w₁ ++
    (List.range 32).flatMap fun c =>
      (List.range 8).map (fun i => q4kWeight w₀ (c * 8 + i)) ++
        (List.range 8).map (fun i => q4kWeight w₁ (c * 8 + i))

/-- Weight `i` of the block at `w`: 16 low nibbles, then 16 high ones, each with its fifth bit
from `qh`. -/
def q50Weight (w : ℕ → UInt8) (i : ℕ) : UInt8 :=
  let qh := le32 w 2
  if i < 16 then
    (w (6 + i) &&& (0x0F : UInt8)) ||| (((qh >>> UInt32.ofNat i) <<< 4) &&& 0x10).toUInt8
  else
    let j := i - 16
    (w (6 + j) >>> 4) ||| ((qh >>> UInt32.ofNat (j + 12)) &&& 0x10).toUInt8

/-- The shadow of the block at `w`, padded. -/
def q50Block (w : ℕ → UInt8) : List UInt8 :=
  floatBytes (le16 w 0) ++ (List.range 32).map (q50Weight w) ++ List.replicate 4 0

/-- Row `r` of a tensor in blocks, of `nb` blocks of `bytes` bytes. -/
def blockAt (packed : ℕ → UInt8) (nb bytes r b : ℕ) : ℕ → UInt8 :=
  fun i => packed (r * (nb * bytes) + b * bytes + i)

/-- `fl_shadow_build_rows_q4k`. -/
def buildRowsQ4k (packed : ℕ → UInt8) (rows cols : ℕ) : List UInt8 :=
  let nsb := cols / 256
  (List.range rows).flatMap fun r =>
    (List.range nsb).flatMap fun sb => q4kBlock (blockAt packed nsb 144 r sb)

/-- `fl_shadow_build_rows_q4k_smmla`. -/
def buildRowsQ4kSmmla (packed : ℕ → UInt8) (rows cols : ℕ) : List UInt8 :=
  let nsb := cols / 256
  (List.range ((rows + 1) / 2)).flatMap fun rp =>
    (List.range nsb).flatMap fun sb =>
      q4kPair (blockAt packed nsb 144 (rp * 2) sb) (blockAt packed nsb 144 (rp * 2 + 1) sb)

/-- `fl_shadow_build_rows_q50`. -/
def buildRowsQ50 (packed : ℕ → UInt8) (rows cols : ℕ) : List UInt8 :=
  let nb := cols / 32
  (List.range rows).flatMap fun r =>
    (List.range nb).flatMap fun b => q50Block (blockAt packed nb 22 r b)

/-- `fl_shadow_row_bytes`. -/
def shadowRowBytes (f : Fmt) (cols : ℕ) : ℕ :=
  if f = .Q4_K then cols / 256 * 280 else if f = .Q5_0 then cols / 32 * 40 else 0

/-- `ShadowTensorDesc`: a packed tensor and the name it has in the cache file.  `p` are its
packed bytes. -/
structure ShadowTensorDesc where
  name : List UInt8
  p : List UInt8
  fmt : Fmt
  cols : UInt32
  rowsTotal : UInt64
  size : p.length = rowsTotal.toNat * rowBytes fmt cols.toNat

namespace ShadowTensorDesc

variable (t : ShadowTensorDesc)

/-- The bytes from offset `off` of the tensor on. -/
def packed (off : ℕ) : ℕ → UInt8 := fun i => t.p.getD (off + i) 0

/-- The shadow of `n` rows of the tensor whose packed bytes start at `p`. -/
def buildRows (smmla : Bool) (p : ℕ → UInt8) (n : ℕ) : List UInt8 :=
  if t.fmt = .Q4_K then
    if smmla then buildRowsQ4kSmmla p n t.cols.toNat else buildRowsQ4k p n t.cols.toNat
  else buildRowsQ50 p n t.cols.toNat

/-- What the builder of the tensor's format and of the layout makes of the whole tensor. -/
def shadow (smmla : Bool) : List UInt8 := t.buildRows smmla (t.packed 0) t.rowsTotal.toNat

/-- Bytes of the tensor's shadow. -/
def shadowBytes : ℕ := t.rowsTotal.toNat * shadowRowBytes t.fmt t.cols.toNat

/-- `build_parallel`, with `hw` hardware threads. -/
def buildParallel (hw : ℕ) (smmla : Bool) : List UInt8 :=
  let nt := max 2 hw - 1
  let chunk₀ := (t.rowsTotal.toNat + nt - 1) / nt
  let chunk := chunk₀ + chunk₀ % 2
  (List.range nt).flatMap fun i =>
    let r0 := i * chunk
    if r0 ≥ t.rowsTotal.toNat then []
    else t.buildRows smmla (t.packed (r0 * rowBytes t.fmt t.cols.toNat))
      (min chunk (t.rowsTotal.toNat - r0))

end ShadowTensorDesc

end FastLlm
