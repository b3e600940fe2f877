import Mathlib.Algebra.BigOperators.Group.Finset.Basic
import Mathlib.Algebra.BigOperators.Intervals
import Mathlib.Data.Nat.Notation
import Mathlib.Logic.Function.Basic

/-!
# Counted loops

`iter n a f` is the loop `for (i = 0; i < n; ++i) a = f(i, a)`.  Two nested loops over equal
chunks are one loop over all elements in ascending order, without any law for the body; when
the body adds to the accumulator the loop is a sum, and then the elements may be dealt out to
lanes in any regular way.

## Main definitions

* `iter` — the loop; `iter_add`, `iter_mul` cut it into pieces.
* `iterStep` — `for (i = start; i < stop; i += step)`.
* `iter_hom` — two loops whose bodies correspond.
* `sum_lanes` — the elements of all lanes are all elements.
* `Fills` — a piece of code that writes an array, each place with its final value.
-/

variable {α β : Type}

/-- `for (i = 0; i < n; ++i) a = f(i, a)`. -/
def iter : ℕ → α → (ℕ → α → α) → α
  | 0, a, _ => a
  | n + 1, a, f => f n (iter n a f)

@[simp] theorem iter_zero (f : ℕ → α → α) (a : α) : iter 0 a f = a := rfl

theorem iter_succ (n : ℕ) (f : ℕ → α → α) (a : α) : iter (n + 1) a f = f n (iter n a f) := rfl

@[simp] theorem iter_one (f : ℕ → α → α) (a : α) : iter 1 a f = f 0 a := rfl

theorem iter_two (f : ℕ → α → α) (a : α) : iter 2 a f = f 1 (f 0 a) := rfl

theorem iter_four (f : ℕ → α → α) (a : α) : iter 4 a f = f 3 (f 2 (f 1 (f 0 a))) := rfl

/-- What holds at the start and is kept by every round holds at the end. -/
theorem iter_induction {P : ℕ → α → Prop} {n : ℕ} {f : ℕ → α → α} {a : α} (h0 : P 0 a)
    (hs : ∀ i < n, ∀ b, P i b → P (i + 1) (f i b)) : P n (iter n a f) := by
  induction n with
  | zero => exact h0
  | succ n ih => exact hs n (by omega) _ (ih fun i hi => hs i (by omega))

theorem iter_congr {n : ℕ} {f g : ℕ → α → α} {a : α} (h : ∀ i < n, ∀ b, f i b = g i b) :
    iter n a f = iter n a g := by
  induction n with
  | zero => rfl
  | succ n ih =>
      rw [iter_succ, iter_succ, ih fun i hi => h i (by omega), h n (by omega)]

/-- Two loops whose bodies correspond under `φ` end in corresponding states. -/
theorem iter_hom (φ : α → β) {n : ℕ} {f : ℕ → α → α} {g : ℕ → β → β} {a : α}
    (h : ∀ i < n, ∀ b, φ (f i b) = g i (φ b)) : φ (iter n a f) = iter n (φ a) g := by
  induction n with
  | zero => rfl
  | succ n ih =>
      rw [iter_succ, iter_succ, h n (by omega), ih fun i hi => h i (by omega)]

/-- Two steps in each round are two loops, one after the other, if the first step of a round can be
done before the second steps of earlier rounds. -/
theorem iter_interleave {n : ℕ} {f g : ℕ → α → α}
    (h : ∀ i < n, ∀ j < i, ∀ a, f i (g j a) = g j (f i a)) (a : α) :
    iter n a (fun i a => g i (f i a)) = iter n (iter n a f) g := by
  induction n with
  | zero => rfl
  | succ n ih =>
      have hlast : f n (iter n (iter n a f) g) = iter n (f n (iter n a f)) g :=
        iter_hom (f n) fun j hj b => h n (by omega) j hj b
      rw [iter_succ, iter_succ, iter_succ, ih fun i hi => h i (by omega), hlast]

theorem iter_add (m n : ℕ) (f : ℕ → α → α) (a : α) :
    iter (m + n) a f = iter n (iter m a f) (fun i => f (m + i)) := by
  induction n with
  | zero => rfl
  | succ n ih => rw [← Nat.add_assoc, iter_succ, iter_succ, ih]

/-- Two loops one after the other are one loop with the rounds of both. -/
theorem iter_append {m n : ℕ} {f g h : ℕ → α → α} {a : α} (hg : ∀ i < m, ∀ b, g i b = f i b)
    (hh : ∀ i < n, ∀ b, h i b = f (m + i) b) : iter n (iter m a g) h = iter (m + n) a f := by
  rw [iter_add, iter_congr hg, iter_congr hh]

/-- A loop over `m` chunks of `n` elements visits them in ascending order. -/
theorem iter_mul (m n : ℕ) (f : ℕ → α → α) (a : α) :
    iter (m * n) a f = iter m a (fun b a => iter n a fun i => f (b * n + i)) := by
  induction m with
  | zero => simp
  | succ m ih => rw [Nat.succ_mul, iter_add, ih, iter_succ]

theorem iter_eq_foldl (n : ℕ) (f : ℕ → α → α) (a : α) :
    iter n a f = (List.range n).foldl (fun a i => f i a) a := by
  induction n with
  | zero => rfl
  | succ n ih => rw [iter_succ, ih, List.range_succ, List.foldl_append]; rfl

/-- A loop whose rounds work on a place of their own each. -/
theorem iter_modify (n : ℕ) (o : ℕ → β) (f : ℕ → β → β) (k : ℕ) :
    iter n o (fun i o => Function.update o i (f i (o i))) k = if k < n then f k (o k) else o k := by
  induction n with
  | zero => simp
  | succ n ih =>
      rw [iter_succ, Function.update_apply]
      by_cases hk : k = n
      · subst hk
        rw [if_pos rfl, ih, if_neg (lt_irrefl k), if_pos (Nat.lt_succ_self k)]
      · have h1 : k < n + 1 ↔ k < n := by omega
        rw [if_neg hk, ih]
        simp only [h1]

/-- A loop that writes the first `n` places. -/
theorem iter_update (n : ℕ) (o : ℕ → β) (v : ℕ → β) (k : ℕ) :
    iter n o (fun i o => Function.update o i (v i)) k = if k < n then v k else o k :=
  iter_modify n o (fun i _ => v i) k

/-- `for (i = start; i < stop; i += step) a = f(i, a)`. -/
def iterStep (start stop step : ℕ) (a : α) (f : ℕ → α → α) : α :=
  iter ((stop - start + step - 1) / step) a fun k => f (start + k * step)

section Sum
variable {M : Type} [AddCommMonoid M]

/-- A loop that adds up is a sum. -/
theorem iter_sum (n : ℕ) (g : ℕ → M) (a : M) :
    iter n a (fun i b => b + g i) = a + ∑ i ∈ Finset.range n, g i := by
  induction n with
  | zero => simp
  | succ n ih => rw [iter_succ, ih, Finset.sum_range_succ, add_assoc]

theorem sum_range_mul (m n : ℕ) (g : ℕ → M) :
    ∑ i ∈ Finset.range (m * n), g i =
      ∑ b ∈ Finset.range m, ∑ i ∈ Finset.range n, g (b * n + i) := by
  induction m with
  | zero => simp
  | succ m ih => rw [Nat.succ_mul, Finset.sum_range_add, ih, Finset.sum_range_succ]

/-- Terms from `n` on may be added when they are zero. -/
theorem sum_range_extend {n N : ℕ} (h : n ≤ N) (g : ℕ → M) :
    ∑ i ∈ Finset.range N, (if i < n then g i else 0) = ∑ i ∈ Finset.range n, g i := by
  rw [← Finset.sum_filter]
  refine Finset.sum_congr (Finset.ext fun i => ?_) fun _ _ => rfl
  simp only [Finset.mem_filter, Finset.mem_range]
  omega

/-- The elements a lane reaches with steps of `s`, written with a guard. -/
theorem sum_step {n s l K : ℕ} (hs : 0 < s) (hK : n ≤ K * s) (g : ℕ → M) :
    ∑ k ∈ Finset.range ((n - l + s - 1) / s), g (l + k * s) =
      ∑ k ∈ Finset.range K, if l + k * s < n then g (l + k * s) else 0 := by
  set c := (n - l + s - 1) / s with hc
  have hlt : ∀ k, l + k * s < n ↔ k < c := by
    intro k
    rw [hc, Nat.lt_div_iff_mul_lt hs]
    constructor <;> intro h <;> have := Nat.mul_comm k s <;> omega
  have hcK : c ≤ K := by
    by_contra hlt'
    have h1 := (hlt K).mpr (by omega)
    omega
  rw [← sum_range_extend hcK fun k => g (l + k * s)]
  exact Finset.sum_congr rfl fun k _ => by simp only [hlt]

/-- `s` lanes with steps of `s` visit every element once. -/
theorem sum_lanes {n s : ℕ} (hs : 0 < s) (g : ℕ → M) :
    ∑ l ∈ Finset.range s, ∑ k ∈ Finset.range ((n - l + s - 1) / s), g (l + k * s) =
      ∑ i ∈ Finset.range n, g i := by
  have hn : n ≤ n * s := Nat.le_mul_of_pos_right n hs
  calc ∑ l ∈ Finset.range s, ∑ k ∈ Finset.range ((n - l + s - 1) / s), g (l + k * s)
      = ∑ l ∈ Finset.range s, ∑ k ∈ Finset.range n,
          if l + k * s < n then g (l + k * s) else 0 :=
        Finset.sum_congr rfl fun l _ => sum_step hs hn g
    _ = ∑ k ∈ Finset.range n, ∑ l ∈ Finset.range s,
          if l + k * s < n then g (l + k * s) else 0 := Finset.sum_comm
    _ = ∑ i ∈ Finset.range (n * s), if i < n then g i else 0 := by
        rw [sum_range_mul]
        refine Finset.sum_congr rfl fun k _ => Finset.sum_congr rfl fun l _ => ?_
        rw [Nat.add_comm l]
    _ = ∑ i ∈ Finset.range n, g i := sum_range_extend hn g

/-- Chunks of `s` elements, the last one with what is left. -/
theorem sum_chunks {n s : ℕ} (hs : 0 < s) (g : ℕ → M) :
    ∑ k ∈ Finset.range ((n + s - 1) / s),
        ∑ i ∈ Finset.range (if n - k * s < s then n - k * s else s), g (k * s + i) =
      ∑ i ∈ Finset.range n, g i := by
  have hin : ∀ k, ∑ i ∈ Finset.range (if n - k * s < s then n - k * s else s), g (k * s + i) =
      ∑ i ∈ Finset.range s, if k * s + i < n then g (k * s + i) else 0 := by
    intro k
    have hle : (if n - k * s < s then n - k * s else s) ≤ s := by split_ifs <;> omega
    rw [← sum_range_extend hle fun i => g (k * s + i)]
    refine Finset.sum_congr rfl fun i hi => ?_
    have hi' := Finset.mem_range.mp hi
    have hiff : i < (if n - k * s < s then n - k * s else s) ↔ k * s + i < n := by
      split_ifs <;> omega
    simp only [hiff]
  have hcover : n ≤ (n + s - 1) / s * s := by
    have h1 := Nat.div_add_mod (n + s - 1) s
    have h2 := Nat.mod_lt (n + s - 1) hs
    rw [Nat.mul_comm] at h1
    omega
  rw [Finset.sum_congr rfl fun k _ => hin k, ← sum_range_extend hcover g]
  exact (sum_range_mul _ s fun i => if i < n then g i else 0).symm

/-- Adding to one of the `n` first places adds to their sum. -/
theorem sum_update_add {n k : ℕ} (hk : k < n) (a : ℕ → M) (v : M) :
    ∑ i ∈ Finset.range n, Function.update a k (a k + v) i = ∑ i ∈ Finset.range n, a i + v := by
  have hmem : k ∈ Finset.range n := Finset.mem_range.mpr hk
  rw [Finset.sum_update_of_mem hmem, Finset.sum_eq_add_sum_sdiff_singleton_of_mem hmem a,
    add_right_comm]

end Sum

/-! ## Filling an array -/

/-- From `o` to `o'` an array of final values `g` was written at the places `S` at least, and no
place lost its value. -/
def Fills {ι β : Type} (g : ι → β) (S : ι → Prop) (o o' : ι → β) : Prop :=
  ∀ k, S k ∨ o k = g k → o' k = g k

namespace Fills

variable {ι β : Type} {g : ι → β} {o o' o'' : ι → β}

/-- One store. -/
theorem store [DecidableEq ι] {i : ι} {v : β} (hv : v = g i) :
    Fills g (fun k => k = i) o (Function.update o i v) := by
  intro k hk
  rw [Function.update_apply]
  split_ifs with h
  · rw [h, hv]
  · exact hk.resolve_left h

/-- One piece of code after another. -/
theorem trans {S S' : ι → Prop} (h : Fills g S o o') (h' : Fills g S' o' o'') :
    Fills g (fun k => S k ∨ S' k) o o'' := by
  rintro k ((hk | hk) | hk)
  · exact h' k (.inr (h k (.inl hk)))
  · exact h' k (.inl hk)
  · exact h' k (.inr (h k (.inr hk)))

theorem loop {n : ℕ} {S : ℕ → ι → Prop} {f : ℕ → (ι → β) → ι → β}
    (h : ∀ i < n, ∀ o, Fills g (S i) o (f i o)) :
    Fills g (fun k => ∃ i < n, S i k) o (iter n o f) := by
  induction n with
  | zero =>
      rintro k (⟨i, hi, _⟩ | hk)
      · omega
      · exact hk
  | succ n ih =>
      have hn := ih fun i hi => h i (by omega)
      rw [iter_succ]
      rintro k (⟨i, hi, hk⟩ | hk)
      · by_cases hin : i = n
        · exact h n (by omega) _ k (.inl (hin ▸ hk))
        · exact h n (by omega) _ k (.inr (hn k (.inl ⟨i, by omega, hk⟩)))
      · exact h n (by omega) _ k (.inr (hn k (.inr hk)))

end Fills

-- the unifier must not unroll the loops of a kernel
attribute [irreducible] iter
