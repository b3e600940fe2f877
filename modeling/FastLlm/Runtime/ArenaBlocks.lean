import FastLlm.Lib.MaskUp
import FastLlm.Runtime.Arena
import Mathlib.Data.Set.Lattice
import Mathlib.Order.CompletePartialOrder
import Mathlib.Order.Interval.Set.Basic
import Mathlib.Tactic.Ring

/-!
# The blocks of the arena

The allocator rounds, adds and compares in 64 bits, so that a request whose end lies at `2 ^ 64` or
behind comes out as a small one.  What a caller relies on, that every block is aligned, lies in the
arena and meets no earlier one, holds of a sequence of calls exactly when no call that returns wraps
in this way (`sound_iff_inRange`).

## Main definitions

* `Request` — the arguments of a call.
* `Arena.Placed` — what a call that returned owes its caller.
* `Arena.Sound` — every call of a sequence does.
* `Arena.Reaches`, `Arena.InRange` — the end of a request without wrapping; no call wraps.
-/

namespace FastLlm

/-- The arguments of `alloc`. -/
structure Request where
  bytes : UInt64
  align : UInt64
  deriving DecidableEq, Repr

/-- The alignment is a power of two. -/
def Request.Legal (r : Request) : Prop := ∃ k < 64, r.align.toNat = 2 ^ k

namespace Arena

/-- The bytes of a block, as offsets. -/
def span (b : UInt64 × UInt64) : Set ℕ := Set.Ico b.1.toNat (b.1.toNat + b.2.toNat)

/-- From `a` the call `r` came to `a'` with a block as it should be. -/
structure Placed (a a' : Arena) (r : Request) : Prop where
  block : ∃ off, a'.blocks = a.blocks ++ [(off, r.bytes)] ∧ r.align.toNat ∣ off.toNat ∧
    off.toNat + r.bytes.toNat ≤ a.cap.toNat ∧ ∀ b ∈ a.blocks, Disjoint (span b) (span (off, r.bytes))
  used_le : a.used ≤ a'.used

/-- Every call that returns does so with such a block; one that aborts ends the sequence. -/
def Sound : Arena → List Request → Prop
  | _, [] => True
  | a, r :: rs => ∀ a' p, a.alloc r.bytes r.align = .ok (a', p) → a.Placed a' r ∧ a'.Sound rs

/-- Where the block of `r` would end if nothing wrapped. -/
def reaches (a : Arena) (r : Request) : ℕ := maskUp a.used.toNat r.align.toNat + r.bytes.toNat

/-- A request that ends at `2 ^ 64` or behind is refused all the same. -/
def RoomFor (a : Arena) (r : Request) : Prop :=
  2 ^ 64 ≤ a.reaches r → a.cap.toNat < a.reaches r % 2 ^ 64

/-- No call that returns wraps. -/
def InRange : Arena → List Request → Prop
  | _, [] => True
  | a, r :: rs => ∀ a' p, a.alloc r.bytes r.align = .ok (a', p) → a.RoomFor r ∧ a'.InRange rs

/-! ## One call -/

/-- Rounding down keeps a remainder by a multiple of the step. -/
theorem mod_div_mul {n A B : ℕ} (hA : 0 < A) (hB : 0 < B) :
    n % (A * B) / A * A = n / A * A % (A * B) := by
  have hn : n = A * (B * (n / (A * B))) + n % (A * B) := by
    rw [← Nat.mul_assoc]
    exact (Nat.div_add_mod n (A * B)).symm
  have hlt : n % (A * B) / A * A < A * B :=
    lt_of_le_of_lt (Nat.div_mul_le_self _ _) (Nat.mod_lt _ (Nat.mul_pos hA hB))
  have hdiv : n / A * A = A * B * (n / (A * B)) + n % (A * B) / A * A := by
    calc n / A * A = (A * (B * (n / (A * B))) + n % (A * B)) / A * A := by rw [← hn]
      _ = (B * (n / (A * B)) + n % (A * B) / A) * A := by rw [Nat.mul_add_div hA]
      _ = A * B * (n / (A * B)) + n % (A * B) / A * A := by ring
  rw [hdiv, Nat.mul_add_mod, Nat.mod_eq_of_lt hlt]

/-- The offset is the rounded one, cut to 64 bits. -/
theorem toNat_bump (a : Arena) {r : Request} (hr : r.Legal) :
    (a.bump r.align).toNat = maskUp a.used.toNat r.align.toNat % 2 ^ 64 := by
  obtain ⟨k, hk, halign⟩ := hr
  have hpos : 1 ≤ r.align.toNat := halign ▸ Nat.one_le_two_pow
  have hlt : r.align.toNat < 2 ^ 64 := r.align.toNat_lt
  have hone : (r.align - 1).toNat = 2 ^ k - 1 := by
    have hle : (1 : UInt64) ≤ r.align := UInt64.le_iff_toNat_le.mpr hpos
    rw [UInt64.toNat_sub_of_le _ _ hle, halign]
    rfl
  have hsum : (a.used + r.align - 1).toNat = (a.used.toNat + (2 ^ k - 1)) % 2 ^ 64 := by
    rw [UInt64.toNat_sub, UInt64.toNat_add, ← halign, UInt64.toNat_one]
    omega
  have hpow : 2 ^ 64 = 2 ^ k * 2 ^ (64 - k) := by
    rw [← Nat.pow_add]
    congr 1
    omega
  rw [bump, toNat_and_not, hone, hsum, Nat.and_two_pow_sub_one_eq_mod, halign, maskUp_two_pow, hpow,
    ← mod_div_mul (Nat.two_pow_pos k) (Nat.two_pow_pos _)]
  have hdiv := Nat.div_add_mod ((a.used.toNat + (2 ^ k - 1)) % (2 ^ k * 2 ^ (64 - k))) (2 ^ k)
  rw [Nat.mul_comm (_ / _)]
  omega

theorem alloc_eq_ok {a a' : Arena} {p : Loc} {r : Request}
    (h : a.alloc r.bytes r.align = .ok (a', p)) : ¬ a.cap < a.bump r.align + r.bytes ∧
      a' = { a with
        used := a.bump r.align + r.bytes
        blocks := a.blocks ++ [(a.bump r.align, r.bytes)] } := by
  rw [alloc] at h
  split_ifs at h with hcap
  exact ⟨hcap, (Prod.mk.inj (Except.ok.inj h)).1.symm⟩

/-- Blocks lie below `used`, which is nonzero only when one of them is not empty. -/
structure Packed (a : Arena) : Prop where
  below : ∀ b ∈ a.blocks, b.1.toNat + b.2.toNat ≤ a.used.toNat
  nonempty : a.used.toNat ≠ 0 → ∃ b ∈ a.blocks, b.2.toNat ≠ 0

theorem packed_create (cap : UInt64) : (create cap).Packed :=
  ⟨fun _ hb => absurd hb List.not_mem_nil, fun h => absurd rfl h⟩

variable {a a' : Arena} {p : Loc} {r : Request}

/-- Where the rounded offset lies, and the new `used`. -/
theorem toNat_used (hr : r.Legal) :
    (a.bump r.align + r.bytes).toNat = a.reaches r % 2 ^ 64 := by
  rw [UInt64.toNat_add, a.toNat_bump hr, reaches, Nat.mod_add_mod]

theorem maskUp_zero {k : ℕ} : maskUp 0 (2 ^ k) = 0 := by
  rw [maskUp_two_pow, Nat.zero_add, Nat.div_eq_of_lt, Nat.zero_mul]
  have hpos := Nat.two_pow_pos k
  omega

/-- A call that does not wrap puts its block behind all others. -/
theorem Packed.placed (ha : a.Packed) (hr : r.Legal) (hok : a.alloc r.bytes r.align = .ok (a', p))
    (hroom : a.RoomFor r) : a.Placed a' r ∧ a'.Packed := by
  obtain ⟨hcap, rfl⟩ := alloc_eq_ok hok
  have hbump := a.toNat_bump hr
  have hused : (a.bump r.align + r.bytes).toNat = a.reaches r % 2 ^ 64 := toNat_used hr
  have hle := le_maskUp a.used.toNat r.align.toNat
  rw [UInt64.lt_iff_toNat_lt, hused] at hcap
  have hlt : a.reaches r < 2 ^ 64 := by
    by_contra hge
    exact hcap (hroom (Nat.le_of_not_lt hge))
  rw [Nat.mod_eq_of_lt hlt] at hused hcap
  rw [reaches] at hlt hused hcap
  rw [Nat.mod_eq_of_lt (by omega)] at hbump
  refine ⟨⟨⟨a.bump r.align, rfl, ?_, by omega, fun b hb => ?_⟩, ?_⟩, ⟨fun b hb => ?_, fun hne => ?_⟩⟩
  · obtain ⟨k, -, hk⟩ := hr
    rw [hbump, hk, maskUp_two_pow]
    exact Nat.dvd_mul_left _ _
  · have hbelow := ha.below b hb
    rw [Set.disjoint_left]
    intro x hx hx'
    have hxlt : x < b.1.toNat + b.2.toNat := hx.2
    have hxge : (a.bump r.align).toNat ≤ x := hx'.1
    omega
  · rw [UInt64.le_iff_toNat_le, hused]
    omega
  · change b.1.toNat + b.2.toNat ≤ (a.bump r.align + r.bytes).toNat
    rcases List.mem_append.mp hb with hb | hb
    · have hbelow := ha.below b hb
      omega
    · rw [List.mem_singleton.mp hb, hbump, hused]
  · by_cases hbytes : r.bytes.toNat = 0
    · have hne : (a.bump r.align + r.bytes).toNat ≠ 0 := hne
      have hused0 : a.used.toNat ≠ 0 := by
        intro h0
        obtain ⟨k, -, hk⟩ := hr
        rw [hused, h0, hk, maskUp_zero, hbytes] at hne
        exact hne rfl
      obtain ⟨b, hb, hb2⟩ := ha.nonempty hused0
      exact ⟨b, List.mem_append_left _ hb, hb2⟩
    · exact ⟨_, List.mem_append_right _ (List.mem_singleton_self _), hbytes⟩

/-- A call that wraps hands out a block behind the end of the arena, or one that begins at 0 and
meets an earlier block unless `used` decreases. -/
theorem Packed.not_placed (ha : a.Packed) (hr : r.Legal)
    (hok : a.alloc r.bytes r.align = .ok (a', p)) (hplaced : a.Placed a' r) : a.RoomFor r := by
  intro hge
  by_contra hcap'
  obtain ⟨-, rfl⟩ := alloc_eq_ok hok
  have hbump := a.toNat_bump hr
  have hused : (a.bump r.align + r.bytes).toNat = a.reaches r % 2 ^ 64 := toNat_used hr
  have hle := le_maskUp a.used.toNat r.align.toNat
  have hbytes := r.bytes.toNat_lt
  have hcapLt := a.cap.toNat_lt
  have husedLt := a.used.toNat_lt
  obtain ⟨off, hoff, -, hin, hdisj⟩ := hplaced.block
  have hoff : off = a.bump r.align := by
    have hlast := List.append_cancel_left hoff
    exact (Prod.mk.inj (List.cons.inj hlast).1).1.symm
  subst hoff
  have hmono : a.used.toNat ≤ (a.bump r.align + r.bytes).toNat :=
    UInt64.le_iff_toNat_le.mp hplaced.used_le
  rw [reaches] at hge hused
  rcases Nat.lt_or_ge (maskUp a.used.toNat r.align.toNat) (2 ^ 64) with hmask | hmask
  · rw [Nat.mod_eq_of_lt hmask] at hbump
    omega
  · -- the rounding itself reaches the end, and the block begins at 0
    have hzero : (a.bump r.align).toNat = 0 ∧ a.used.toNat ≠ 0 := by
      obtain ⟨k, hk, halign⟩ := hr
      rw [halign] at hbump hmask
      have hlt : maskUp a.used.toNat (2 ^ k) < a.used.toNat + 2 ^ k := maskUp_lt (Nat.two_pow_pos k)
      have hdvd : 2 ^ k ∣ maskUp a.used.toNat (2 ^ k) - 2 ^ 64 := by
        apply Nat.dvd_sub
        · rw [maskUp_two_pow]
          exact Nat.dvd_mul_left _ _
        · exact Nat.pow_dvd_pow 2 (by omega)
      have heq : maskUp a.used.toNat (2 ^ k) - 2 ^ 64 = 0 := Nat.eq_zero_of_dvd_of_lt hdvd (by omega)
      have hk64 : 2 ^ k < 2 ^ 64 := Nat.pow_lt_pow_right (by omega) hk
      constructor <;> omega
    obtain ⟨b, hb, hb2⟩ := ha.nonempty hzero.2
    have hbelow := ha.below b hb
    have hmeet := Set.disjoint_left.mp (hdisj b hb)
    have hmem : b.1.toNat ∈ span b := ⟨le_rfl, by omega⟩
    apply hmeet hmem
    constructor
    · change (a.bump r.align).toNat ≤ b.1.toNat
      omega
    · change b.1.toNat < (a.bump r.align).toNat + r.bytes.toNat
      have hadd := UInt64.toNat_add (a.bump r.align) r.bytes
      omega

/-! ## Sequences of calls -/

theorem Packed.sound_iff_inRange (ha : a.Packed) (rs : List Request) (hrs : ∀ r ∈ rs, r.Legal) :
    a.Sound rs ↔ a.InRange rs := by
  induction rs generalizing a with
  | nil => exact Iff.rfl
  | cons r rs ih =>
    have hr := hrs r List.mem_cons_self
    have hrs' : ∀ r ∈ rs, r.Legal := fun r hr => hrs r (List.mem_cons_of_mem _ hr)
    constructor
    · intro h a' p hok
      obtain ⟨hplaced, hrest⟩ := h a' p hok
      have hroom := ha.not_placed hr hok hplaced
      exact ⟨hroom, (ih (ha.placed hr hok hroom).2 hrs').mp hrest⟩
    · intro h a' p hok
      obtain ⟨hroom, hrest⟩ := h a' p hok
      have hplaced := ha.placed hr hok hroom
      exact ⟨hplaced.1, (ih hplaced.2 hrs').mpr hrest⟩

end Arena

/-- **The allocator keeps its promise exactly as long as no request wraps**, over any sequence of
calls on a new arena. -/
theorem arena_sound_iff (cap : UInt64) (rs : List Request) (hrs : ∀ r ∈ rs, r.Legal) :
    (Arena.create cap).Sound rs ↔ (Arena.create cap).InRange rs :=
  (Arena.packed_create cap).sound_iff_inRange rs hrs

/-- Two ordinary requests. -/
theorem arena_sound_iff_two : (Arena.create 4096).Sound [⟨100, 128⟩, ⟨40, 64⟩] ↔
    (Arena.create 4096).InRange [⟨100, 128⟩, ⟨40, 64⟩] := by
  apply arena_sound_iff
  have h128 : (⟨100, 128⟩ : Request).Legal := ⟨7, by decide, rfl⟩
  have h64 : (⟨40, 64⟩ : Request).Legal := ⟨6, by decide, rfl⟩
  simp [h128, h64]

/-- A request of `2 ^ 64 - 64` bytes behind one of 128 gets a block. -/
theorem huge_request_placed_outside :
    ¬ (Arena.create 4096).Sound [⟨128, 128⟩, ⟨0xFFFFFFFFFFFFFFC0, 64⟩] := by
  intro h
  obtain ⟨-, h2⟩ := h ⟨4096, 128, [(0, 128)]⟩ ⟨1, 0⟩ (by decide)
  obtain ⟨hplaced, -⟩ := h2 ⟨4096, 64, [(0, 128), (128, 0xFFFFFFFFFFFFFFC0)]⟩ ⟨2, 0⟩ (by decide)
  exact absurd hplaced.used_le (by decide)

end FastLlm
