import FastLlm.Model.GgufAccept
import FastLlm.Lib.MaskUp
import Mathlib.Data.List.Induction

/-!
# Where the payloads lie

The reader checks nothing about payloads.  What it makes of a file is described here in
numbers: the alignment a file asks for and the one the reader uses, the size of a payload
with no cut, and the mask that finds the data section.  A file is laid out as its
metadata say exactly if these agree and the payloads end inside the file.

## Main definitions

* `ScalarTy.exact`, `Value.int` — the integer a value stores.
* `Header.alignment`, `Header.mask` — the alignment of a file and what the reader uses.
* `exactPayload` — the size of a payload.
-/

namespace FastLlm

/-! ## Integers -/

/-- The integer a scalar stores, if its type is one of integers. -/
def ScalarTy.exact (raw : ℕ) : ScalarTy → Option ℤ
  | u8 | u16 | u32 | u64 => some raw
  | i8 => some (toSigned 8 raw)
  | i16 => some (toSigned 16 raw)
  | i32 => some (toSigned 32 raw)
  | i64 => some (toSigned 64 raw)
  | bool => some (if raw ≠ 0 then 1 else 0)
  | f32 | f64 => none

/-- The floating-point number a scalar stores, if its type is one of these. -/
def ScalarTy.float (raw : ℕ) : ScalarTy → Option Float
  | f32 => some (f32OfBits raw)
  | f64 => some (f64OfBits raw)
  | _ => none

/-- Cut to an `int64_t`. -/
def toInt64 (v : ℤ) : ℤ := Int.bmod v (2 ^ 64)

theorem toInt64_eq_self {v : ℤ} (hge : -2 ^ 63 ≤ v) (hlt : v < 2 ^ 63) : toInt64 v = v :=
  Int.bmod_eq_of_le (by simpa using hge) (by simpa using hlt)

theorem toInt64_toSigned {w : ℕ} (hw : w ≤ 64) (v : ℕ) : toInt64 (toSigned w v) = toSigned w v := by
  have hpow : (2 ^ w : ℕ) ≤ 2 ^ 64 := Nat.pow_le_pow_right (by decide) hw
  have hge := Int.le_bmod (x := v) (Nat.two_pow_pos w)
  have hlt := Int.bmod_lt (x := v) (Nat.two_pow_pos w)
  unfold toSigned
  generalize Int.bmod v (2 ^ w) = x at hge hlt ⊢
  exact toInt64_eq_self (by omega) (by omega)

/-- Integers are kept as `int64_t`. -/
theorem ScalarTy.number_exact {ty : ScalarTy} {raw : ℕ} {v : ℤ} (hraw : raw < 256 ^ ty.size)
    (hv : ty.exact raw = some v) : ty.number raw = .int (toInt64 v) := by
  cases ty <;> simp only [size, id, scalarSize] at hraw <;>
    simp only [exact, Option.some.injEq, reduceCtorEq] at hv <;> subst hv <;> simp only [number]
  case u64 => rfl
  case bool =>
    rw [toInt64_eq_self]
    · split <;> decide
    · split <;> decide
  case i8 | i16 | i32 | i64 => rw [toInt64_toSigned (by decide)]
  all_goals rw [toInt64_eq_self (by omega) (by omega)]

theorem ScalarTy.number_float {ty : ScalarTy} {raw : ℕ} {x : Float} (hx : ty.float raw = some x) :
    ty.number raw = .float x := by
  cases ty <;> simp only [float, Option.some.injEq, reduceCtorEq] at hx <;> subst hx <;> rfl

/-- The integer a value stores, if any. -/
def Value.int : Value → Option ℤ
  | .scalar ty raw => ty.exact raw
  | _ => none

/-- Only integers change the map of integers. -/
theorem Kv.capture_i {P : Arr → Prop} {v : Value} (hv : v.Lift P) (kv : Kv) (key : Str) :
    (kv.capture key v).i =
      match v.int with
      | some x => Function.update kv.i key (some (toInt64 x))
      | none => kv.i := by
  cases v with
  | scalar ty raw =>
    cases hx : ty.exact raw with
    | some x => simp only [Kv.capture, Value.int, hx, ScalarTy.number_exact hv hx, Kv.setI]
    | none => cases ty <;> simp [ScalarTy.exact] at hx <;> rfl
  | str s => rfl
  | arr a => cases a <;> rfl

/-! ## The alignment of a file -/

/-- The integers stored under `general.alignment`. -/
def alignments (ps : List KvPair) : List ℤ :=
  ps.filterMap fun p => if p.key = alignmentKey then p.value.int else none

/-- The alignment a file asks for: the last one stored, 32 if there is none. -/
def Header.alignment (h : Header) : ℤ := (alignments h.kvs).getLast?.getD 32

/-- The last positive number of a list, 32 if there is none. -/
def lastPos (l : List ℤ) : ℤ := ((l.filter (0 < ·)).getLast?).getD 32

/-- The alignment the reader uses: the last `int64_t` that is positive, cut to 32 bits. -/
def Header.mask (h : Header) : ℕ := (lastPos ((alignments h.kvs).map toInt64)).toNat % 2 ^ 32

theorem lastPos_concat (l : List ℤ) (v : ℤ) :
    lastPos (l ++ [v]) = if 0 < v then v else lastPos l := by
  unfold lastPos
  split_ifs with h <;> simp [h]

theorem lastPos_of_getLast {l : List ℤ} {v : ℤ} (hl : l.getLast? = some v) (hv : 0 < v) :
    lastPos l = v := by
  obtain ⟨l', rfl⟩ := List.getLast?_eq_some_iff.mp hl
  rw [lastPos_concat, if_pos hv]

/-- The reader keeps the last integer, and the last positive one as the alignment. -/
theorem foldl_capturePair {P : Arr → Prop} (ps : List KvPair) (hps : ∀ p ∈ ps, p.value.Lift P)
    {kv : Kv} (hkv : kv.i alignmentKey = none) :
    let s := ps.foldl capturePair (kv, 32)
    s.1.i alignmentKey = ((alignments ps).map toInt64).getLast? ∧
      s.2 = UInt32.ofNat (lastPos ((alignments ps).map toInt64)).toNat := by
  induction ps using List.reverseRecOn with
  | nil => exact ⟨hkv, rfl⟩
  | append_singleton ps p ih =>
    obtain ⟨hlast, hpos⟩ := ih fun q hq => hps q (List.mem_append_left _ hq)
    have hp := hps p (List.mem_append_right _ (List.mem_singleton.mpr rfl))
    simp only [List.foldl_append, List.foldl_cons, List.foldl_nil]
    generalize ps.foldl capturePair (kv, 32) = s at hlast hpos ⊢
    have hi := Kv.capture_i hp s.1 p.key
    by_cases hkey : p.key = alignmentKey
    · cases hint : p.value.int with
      | some x =>
        have hals : alignments (ps ++ [p]) = alignments ps ++ [x] := by
          simp [alignments, hkey, hint]
        rw [hint, hkey] at hi
        have hnew : (s.1.capture alignmentKey p.value).i alignmentKey = some (toInt64 x) := by
          simp [hi]
        rw [hals, List.map_append, List.map_singleton, lastPos_concat, capturePair, hkey]
        refine ⟨by simp [hnew], ?_⟩
        simp only [alignLocal, if_true, hnew, hpos]
        split_ifs <;> rfl
      | none =>
        have hals : alignments (ps ++ [p]) = alignments ps := by simp [alignments, hkey, hint]
        rw [hint, hkey] at hi
        rw [hals, capturePair, hkey]
        refine ⟨(congrFun hi alignmentKey).trans hlast, ?_⟩
        -- no new integer: the lookup finds the old one, which has been taken before
        simp only [alignLocal, if_true, hi, hlast]
        cases hl : ((alignments ps).map toInt64).getLast? with
        | none => exact hpos
        | some v =>
          by_cases hv : 0 < v
          · simp only [if_pos hv, lastPos_of_getLast hl hv]
          · simp only [if_neg hv, hpos]
    · have hals : alignments (ps ++ [p]) = alignments ps := by simp [alignments, hkey]
      rw [hals, capturePair]
      refine ⟨?_, by rw [alignLocal, if_neg hkey, hpos]⟩
      rw [hi, ← hlast]
      cases p.value.int with
      | some x => simp [Ne.symm hkey]
      | none => rfl

/-- The state of the maps does not matter for the alignment, unless they hold one. -/
theorem Header.capture_snd {P : Arr → Prop} {h : Header} (hok : h.Ok P) {kv : Kv}
    (hkv : kv.i alignmentKey = none) : (h.capture kv).2.toNat = h.mask := by
  have hps : ∀ p ∈ h.kvs, p.value.Lift P := fun p hp => (hok.kvs p hp).2
  rw [capture, (foldl_capturePair h.kvs hps hkv).2, UInt32.toNat_ofNat', mask]

/-! ## The start of the data section -/

/-- The least multiple of the alignment at or after the end of the tensor infos. -/
def Header.IsDataStart (h : Header) (d : ℕ) : Prop :=
  IsLeast {d : ℕ | h.encode.length ≤ d ∧ h.alignment ∣ d} d

theorem Header.length_encode_pos (h : Header) : 0 < h.encode.length :=
  List.length_pos_iff.mpr h.encode_ne_nil

/-- The 64-bit mask is the mask over the numbers, unless the alignment is cut to zero. -/
theorem toNat_alignUp {off : ℕ} (hoff : off < 2 ^ 63) {align : UInt32} (ha : 0 < align.toNat) :
    (alignUp (UInt64.ofNat off) align).toNat = maskUp off align.toNat := by
  have hlt := align.toNat_lt
  have hmask : (align - 1).toUInt64.toNat = align.toNat - 1 := by
    have hle : (1 : UInt32) ≤ align := UInt32.le_iff_toNat_le.mpr ha
    rw [UInt32.toNat_toUInt64, UInt32.toNat_sub_of_le _ _ hle]
    rfl
  have hsum : (UInt64.ofNat off + align.toUInt64 - 1).toNat = off + (align.toNat - 1) := by
    rw [UInt64.toNat_sub, UInt64.toNat_add, UInt64.toNat_ofNat', UInt32.toNat_toUInt64,
      Nat.mod_eq_of_lt (hoff.trans (by decide))]
    have hone : (1 : UInt64).toNat = 1 := rfl
    omega
  rw [alignUp, toNat_and_not, hmask, hsum, maskUp]

/-- An alignment that is cut to zero puts the data section before its file's header. -/
theorem toNat_alignUp_zero {off : ℕ} (hpos : 0 < off) (hoff : off < 2 ^ 63) :
    (alignUp (UInt64.ofNat off) 0).toNat < off := by
  have hsum : (UInt64.ofNat off + (0 : UInt32).toUInt64 - 1).toNat = off - 1 := by
    rw [UInt64.toNat_sub, UInt64.toNat_add, UInt64.toNat_ofNat', UInt32.toNat_toUInt64,
      Nat.mod_eq_of_lt (hoff.trans (by decide))]
    have hone : (1 : UInt64).toNat = 1 := rfl
    have hzero : (0 : UInt32).toNat = 0 := rfl
    omega
  rw [alignUp, toNat_and_not, hsum]
  omega

/-- The data section starts where the metadata say if and only if the mask rounds. -/
theorem Header.isDataStart_iff {h : Header} (hlen : h.encode.length < 2 ^ 63) {align : UInt32}
    (ha : align.toNat = h.mask) :
    h.IsDataStart (alignUp (UInt64.ofNat h.encode.length) align).toNat ↔
      MaskRounds h.encode.length h.alignment h.mask := by
  rcases Nat.eq_zero_or_pos h.mask with h0 | hpos
  · obtain rfl : align = 0 := UInt32.toNat_inj.mp (ha.trans h0)
    constructor
    · intro hd
      exact absurd hd.1.1 (toNat_alignUp_zero h.length_encode_pos hlen).not_ge
    · intro hm
      exact absurd hm.pos (by omega)
  · rw [toNat_alignUp hlen (ha ▸ hpos), ha]
    exact isLeast_maskUp_iff h.length_encode_pos hpos

/-! ## Payloads -/

/-- The size of a payload: whole blocks, and nothing is cut. -/
def exactPayload (type : ℕ) (ne : ℕ → ℕ) : ℕ :=
  match fmtOf type with
  | some f => rowBytes f (ne 0) * ne 1 * ne 2 * ne 3
  | none => if type = GGML_TYPE_F16 then 2 * ne 0 * ne 1 * ne 2 * ne 3 else 0

/-- A row of `2 ^ 32` elements or more loses whole blocks. -/
theorem rowBytes_mod_eq_iff (f : Fmt) (n : ℕ) :
    rowBytes f (n % 2 ^ 32) = rowBytes f n ↔ n < 2 ^ 32 := by
  cases f <;> simp only [rowBytes, blkElems, blkBytes] <;> omega

/-- A size that fits 64 bits is exact unless the row was cut. -/
theorem payloadBytes_eq_iff {type : ℕ} {f : Fmt} (hf : fmtOf type = some f) (ne : ℕ → ℕ)
    (hfit : exactPayload type ne < 2 ^ 64) :
    payloadBytes type ne = exactPayload type ne ↔ ne 0 < 2 ^ 32 ∨ ne 1 * ne 2 * ne 3 = 0 := by
  simp only [payloadBytes, exactPayload, hf, Nat.mul_assoc] at hfit ⊢
  generalize ne 1 * (ne 2 * ne 3) = p at hfit ⊢
  have hle : rowBytes f (ne 0 % 2 ^ 32) * p ≤ rowBytes f (ne 0) * p := by
    refine Nat.mul_le_mul_right p (Nat.mul_le_mul_right _ (Nat.div_le_div_right ?_))
    exact Nat.mod_le _ _
  rw [Nat.mod_eq_of_lt (by omega), ← rowBytes_mod_eq_iff f, mul_eq_mul_right_iff]

end FastLlm
