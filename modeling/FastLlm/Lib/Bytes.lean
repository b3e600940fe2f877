import Mathlib.Data.List.Basic
import Mathlib.Data.Nat.Notation
import Mathlib.Tactic.Ring

/-!
# Bytes of a file

Little-endian fields and C strings, as a program finds them in a file it maps: by offset, with
nothing but the bytes.

## Main definitions

* `leBytes`, `leNat` — a number as little-endian bytes, and back.
* `field` — the number in some bytes of a file.
* `i8` — a byte read as `int8_t`.
* `strncpy`, `strncmpEq` — the C functions, the latter for `strncmp(..) == 0` only.
-/

namespace FastLlm

/-- The `w` little-endian bytes of `n`. -/
def leBytes : ℕ → ℕ → List UInt8
  | 0, _ => []
  | w + 1, n => UInt8.ofNat n :: leBytes w (n / 256)

/-- The number that little-endian bytes spell. -/
def leNat : List UInt8 → ℕ
  | [] => 0
  | b :: bs => b.toNat + 256 * leNat bs

@[simp] theorem length_leBytes (w n : ℕ) : (leBytes w n).length = w := by
  induction w generalizing n with
  | zero => rfl
  | succ w ih => rw [leBytes, List.length_cons, ih]

theorem leNat_leBytes (w n : ℕ) : leNat (leBytes w n) = n % 256 ^ w := by
  induction w generalizing n with
  | zero => rw [leBytes, leNat, pow_zero, Nat.mod_one]
  | succ w ih =>
    have hbyte : (UInt8.ofNat n).toNat = n % 256 := UInt8.toNat_ofNat'
    rw [leBytes, leNat, ih, hbyte, pow_succ', Nat.mod_mul]

theorem leNat_leBytes_of_lt {w n : ℕ} (h : n < 256 ^ w) : leNat (leBytes w n) = n := by
  rw [leNat_leBytes, Nat.mod_eq_of_lt h]

theorem leNat_lt (bs : List UInt8) : leNat bs < 256 ^ bs.length := by
  induction bs with
  | nil => exact Nat.one_pos
  | cons b bs ih =>
    have hb := b.toNat_lt
    rw [leNat, List.length_cons, pow_succ']
    omega

theorem leBytes_inj {w m n : ℕ} (hm : m < 256 ^ w) (hn : n < 256 ^ w)
    (h : leBytes w m = leBytes w n) : m = n := by
  rw [← leNat_leBytes_of_lt hm, ← leNat_leBytes_of_lt hn, h]

theorem leNat_inj {a b : List UInt8} (hlen : a.length = b.length) (h : leNat a = leNat b) :
    a = b := by
  induction a generalizing b with
  | nil => exact (List.eq_nil_of_length_eq_zero hlen.symm).symm
  | cons x a ih =>
    cases b with
    | nil => cases hlen
    | cons y b =>
      have hx := x.toNat_lt
      have hy := y.toNat_lt
      simp only [leNat] at h
      have hhead : x.toNat = y.toNat := by omega
      rw [UInt8.toNat_inj.1 hhead, ih (Nat.succ.inj hlen) (by omega)]

/-- The number in the `w` bytes of a file from `off` on. -/
def field (file : List UInt8) (off w : ℕ) : ℕ := leNat ((file.drop off).take w)

/-- The bytes of a file from `off` on start with `bs`. -/
def Has (file : List UInt8) (off : ℕ) (bs : List UInt8) : Prop := bs <+: file.drop off

theorem Has.left {file a b : List UInt8} {off : ℕ} (h : Has file off (a ++ b)) : Has file off a :=
  (List.prefix_append a b).trans h

theorem Has.right {file a b : List UInt8} {off : ℕ} (h : Has file off (a ++ b)) :
    Has file (off + a.length) b := by
  obtain ⟨rest, hrest⟩ := h
  refine ⟨rest, ?_⟩
  rw [← List.drop_drop, ← hrest, List.append_assoc, List.drop_left]

/-- A file that was cut short still has what comes before the cut. -/
theorem Has.take {file bs : List UInt8} {off k : ℕ} (h : Has file off bs)
    (hk : off + bs.length ≤ k) : Has (file.take k) off bs := by
  obtain ⟨rest, hrest⟩ := h
  refine ⟨rest.take (k - off - bs.length), ?_⟩
  rw [List.drop_take, ← hrest, List.take_append, List.take_of_length_le (l := bs) (by omega)]

theorem Has.field_of_lt {file : List UInt8} {off w n : ℕ} (h : Has file off (leBytes w n))
    (hn : n < 256 ^ w) : field file off w = n := by
  obtain ⟨rest, hrest⟩ := h
  rw [field, ← hrest, List.take_left' (length_leBytes w n), leNat_leBytes_of_lt hn]

/-- A byte read as `int8_t`. -/
def i8 (b : UInt8) : ℤ := if b.toNat < 128 then b.toNat else (b.toNat : ℤ) - 256

/-! ## C strings -/

/-- `strncpy` into `n` zeroed bytes: the characters up to the first NUL, then zeros. -/
def strncpy : ℕ → List UInt8 → List UInt8
  | 0, _ => []
  | n + 1, s =>
    if s.headD 0 = 0 then List.replicate (n + 1) 0 else s.headD 0 :: strncpy n s.tail

/-- `strncmp(a, b, n) == 0`, where a string ends at its first NUL or with its list. -/
def strncmpEq : ℕ → List UInt8 → List UInt8 → Bool
  | 0, _, _ => true
  | n + 1, a, b => a.headD 0 = b.headD 0 ∧ (a.headD 0 = 0 ∨ strncmpEq n a.tail b.tail)

@[simp] theorem length_strncpy (n : ℕ) (s : List UInt8) : (strncpy n s).length = n := by
  induction n generalizing s with
  | zero => rfl
  | succ n ih =>
    rw [strncpy]
    split
    · exact List.length_replicate
    · rw [List.length_cons, ih]

/-- Comparing with a copy is comparing the copies. -/
theorem strncmpEq_strncpy (n : ℕ) (a b rest : List UInt8) :
    strncmpEq n (strncpy n a ++ rest) b ↔ strncpy n a = strncpy n b := by
  induction n generalizing a b with
  | zero => exact ⟨fun _ => rfl, fun _ => rfl⟩
  | succ n ih =>
    rw [strncmpEq, strncpy, strncpy, decide_eq_true_iff]
    by_cases ha : a.headD 0 = 0
    · rw [if_pos ha]
      by_cases hb : b.headD 0 = 0
      · rw [if_pos hb, hb]
        exact ⟨fun _ => rfl, fun _ => ⟨rfl, Or.inl rfl⟩⟩
      · rw [if_neg hb]
        refine ⟨fun h => absurd h.1.symm hb, fun h => ?_⟩
        exact absurd (List.cons.inj h).1.symm hb
    · rw [if_neg ha]
      by_cases hb : b.headD 0 = 0
      · rw [if_pos hb, hb]
        refine ⟨fun h => absurd h.1 ha, fun h => ?_⟩
        exact absurd (List.cons.inj h).1 ha
      · rw [if_neg hb, List.cons.injEq, ← ih]
        constructor
        · rintro ⟨heq, hz | htail⟩
          · exact absurd hz ha
          · exact ⟨heq, htail⟩
        · rintro ⟨heq, htail⟩
          exact ⟨heq, Or.inr htail⟩

end FastLlm
