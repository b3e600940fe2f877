import FastLlm.Lib.Loop
import Mathlib.Algebra.BigOperators.Ring.Finset
import Mathlib.Algebra.Order.BigOperators.Group.Finset
import Mathlib.Algebra.Order.Ring.Abs
import Mathlib.Algebra.Order.Ring.Int
import Mathlib.Tactic.Ring

/-!
# Checked 32-bit arithmetic

`int` operations that have no result when the exact one is outside the type, and loops that add up
with them.  A loop whose terms are at most `B` in absolute value reaches its sum whenever `n * B`
is inside the type: every partial sum is inside too (`Adds.loop`).

## Main definitions

* `int32`, `add32`, `sub32`, `mul32` — the operations.
* `sum32`, `sumPair32` — loops with one and with two accumulators.
* `Adds` — a piece of code that adds to an accumulator that has room for it.
-/

/-- The value, if it is one of the type. -/
def int32 (z : ℤ) : Option ℤ := if -2147483648 ≤ z ∧ z ≤ 2147483647 then some z else none

def add32 (a b : ℤ) : Option ℤ := int32 (a + b)

def sub32 (a b : ℤ) : Option ℤ := int32 (a - b)

def mul32 (a b : ℤ) : Option ℤ := int32 (a * b)

/-- `s += t;` -/
def accumulate (t s : Option ℤ) : Option ℤ := do
  let s ← s
  let t ← t
  add32 s t

/-- `int s = 0; for (i = 0; i < n; ++i) s += f(i);` -/
def sum32 (n : ℕ) (f : ℕ → Option ℤ) : Option ℤ := iter n (some 0) fun i => accumulate (f i)

/-- The same with two accumulators in one loop. -/
def sumPair32 (n : ℕ) (f g : ℕ → Option ℤ) : Option (ℤ × ℤ) :=
  iter n (some (0, 0)) fun i s => do
    let s ← s
    let a ← accumulate (f i) (some s.1)
    let b ← accumulate (g i) (some s.2)
    pure (a, b)

theorem int32_eq {z B : ℤ} (hz : |z| ≤ B) (hB : B ≤ 2147483647) : int32 z = some z := by
  obtain ⟨h1, h2⟩ := abs_le.mp hz
  exact if_pos ⟨by omega, by omega⟩

theorem mul32_eq {a b A B : ℤ} (ha : |a| ≤ A) (hb : |b| ≤ B) (hAB : A * B ≤ 2147483647) :
    mul32 a b = some (a * b) := by
  refine int32_eq ?_ hAB
  rw [abs_mul]
  exact mul_le_mul ha hb (abs_nonneg b) ((abs_nonneg a).trans ha)

theorem add32_eq {a b A B : ℤ} (ha : |a| ≤ A) (hb : |b| ≤ B) (hAB : A + B ≤ 2147483647) :
    add32 a b = some (a + b) :=
  int32_eq ((abs_add_le a b).trans (add_le_add ha hb)) hAB

theorem sub32_eq {a b A B : ℤ} (ha : |a| ≤ A) (hb : |b| ≤ B) (hAB : A + B ≤ 2147483647) :
    sub32 a b = some (a - b) :=
  int32_eq ((abs_sub a b).trans (add_le_add ha hb)) hAB

theorem abs_mul_le {a b A B : ℤ} (ha : |a| ≤ A) (hb : |b| ≤ B) : |a * b| ≤ A * B := by
  rw [abs_mul]
  exact mul_le_mul ha hb (abs_nonneg b) ((abs_nonneg a).trans ha)

/-- From every value that leaves room for `B` the code `f` adds `g`, which is at most `B`. -/
structure Adds (f : Option ℤ → Option ℤ) (g B : ℤ) : Prop where
  bound : |g| ≤ B
  adds : ∀ z, |z| + B ≤ 2147483647 → f (some z) = some (z + g)

namespace Adds
variable {f : Option ℤ → Option ℤ} {g B : ℤ}

theorem term {t : Option ℤ} (ht : t = some g) (hg : |g| ≤ B) : Adds (accumulate t) g B where
  bound := hg
  adds z hz := by
    rw [ht]
    exact add32_eq le_rfl hg hz

/-- A loop of such pieces. -/
theorem loop {n : ℕ} {f : ℕ → Option ℤ → Option ℤ} {g : ℕ → ℤ}
    (h : ∀ i < n, Adds (f i) (g i) B) :
    Adds (fun s => iter n s f) (∑ i ∈ Finset.range n, g i) (n * B) := by
  have hpart : ∀ m ≤ n, |∑ i ∈ Finset.range m, g i| ≤ m * B := by
    intro m hm
    calc |∑ i ∈ Finset.range m, g i| ≤ ∑ i ∈ Finset.range m, |g i| := Finset.abs_sum_le_sum_abs _ _
      _ ≤ ∑ _i ∈ Finset.range m, B := Finset.sum_le_sum fun i hi =>
          (h i (by have := Finset.mem_range.mp hi; omega)).bound
      _ = m * B := by simp
  refine ⟨hpart n le_rfl, fun z hz => ?_⟩
  suffices hrun : ∀ m ≤ n, iter m (some z) f = some (z + ∑ i ∈ Finset.range m, g i) from
    hrun n le_rfl
  intro m hm
  induction m with
  | zero => simp
  | succ m ih =>
    have hB : 0 ≤ B := (abs_nonneg _).trans (h m (by omega)).bound
    have hroom : |z + ∑ i ∈ Finset.range m, g i| + B ≤ 2147483647 := by
      have h1 := abs_add_le z (∑ i ∈ Finset.range m, g i)
      have h2 := hpart m (by omega)
      have h3 : (m : ℤ) * B + B ≤ n * B := by
        have h4 : ((m : ℤ) + 1) ≤ n := by exact_mod_cast hm
        calc (m : ℤ) * B + B = (m + 1) * B := by ring
          _ ≤ n * B := mul_le_mul_of_nonneg_right h4 hB
      omega
    rw [iter_succ, ih (by omega), (h m (by omega)).adds _ hroom, Finset.sum_range_succ, add_assoc]

/-- From zero. -/
theorem start (h : Adds f g B) (hB : B ≤ 2147483647) : f (some 0) = some g := by
  rw [h.adds 0 (by simpa using hB), zero_add]

end Adds

/-- A loop over terms of at most `B`. -/
theorem sum32_eq {n : ℕ} {f : ℕ → Option ℤ} {g : ℕ → ℤ} {B : ℤ} (hf : ∀ i < n, f i = some (g i))
    (hg : ∀ i < n, |g i| ≤ B) (hB : n * B ≤ 2147483647) :
    sum32 n f = some (∑ i ∈ Finset.range n, g i) :=
  (Adds.loop fun i hi => Adds.term (hf i hi) (hg i hi)).start hB

theorem abs_sum_le {n : ℕ} {g : ℕ → ℤ} {B : ℤ} (hg : ∀ i < n, |g i| ≤ B) :
    |∑ i ∈ Finset.range n, g i| ≤ n * B :=
  (Adds.loop fun i hi => Adds.term rfl (hg i hi)).bound

/-- Two accumulators in one loop are two loops. -/
theorem sumPair32_eq {n : ℕ} {f g : ℕ → Option ℤ} {a b : ℤ} (hf : sum32 n f = some a)
    (hg : sum32 n g = some b) : sumPair32 n f g = some (a, b) := by
  induction n generalizing a b with
  | zero =>
    rw [sum32, iter_zero] at hf hg
    rw [sumPair32, iter_zero, ← Option.some.inj hf, ← Option.some.inj hg]
  | succ n ih =>
    rw [sum32, iter_succ, ← sum32] at hf hg
    cases hfn : sum32 n f with
    | none => simp [hfn, accumulate] at hf
    | some a' =>
      cases hgn : sum32 n g with
      | none => simp [hgn, accumulate] at hg
      | some b' =>
        rw [hfn] at hf
        rw [hgn] at hg
        rw [sumPair32, iter_succ, ← sumPair32, ih hfn hgn]
        simp [hf, hg]

/-- A loop whose rounds all have a result. -/
theorem iter_bind {α : Type} {n : ℕ} {f : ℕ → α → Option α} {g : ℕ → α → α} {a : α}
    (h : ∀ i < n, ∀ a, f i a = some (g i a)) :
    iter n (some a) (fun i s => s.bind (f i)) = some (iter n a g) :=
  (iter_hom some fun i hi b => (h i hi b).symm).symm
