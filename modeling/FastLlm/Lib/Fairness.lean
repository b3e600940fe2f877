import FastLlm.Lib.MemProg
import Mathlib.Data.Fintype.Card
import Mathlib.Order.ConditionallyCompleteLattice.Basic
import Mathlib.Order.OrderIsoNat

/-!
# Fair runs

A run is an infinite sequence of states.  An action that can be taken from some moment on
is taken in the end if the run is weakly fair to it, and a measure that no step increases
stands still in the end.

The programs over a memory with finitely many contents have a depth: no run of a program
takes more steps.

## Main definitions

* `WeakFair` — fairness to one action.
* `MemProg.depth` — the accesses of the longest run of a program.
-/

/-- An action that can be taken from some moment on is taken some time. -/
def WeakFair {α : Type} (act : α → α → Prop) (σ : ℕ → α) : Prop :=
  ∀ n, (∀ m ≥ n, ∃ t, act (σ m) t) → ∃ m ≥ n, act (σ m) (σ (m + 1))

/-- A measure that no step increases stands still in the end. -/
theorem exists_still {f : ℕ → ℕ} {n : ℕ} (h : ∀ m ≥ n, f (m + 1) ≤ f m) :
    ∃ N ≥ n, ∀ m ≥ N, f m = f N := by
  have hanti : Antitone fun k => f (n + k) :=
    antitone_nat_of_succ_le fun k => h (n + k) (Nat.le_add_right n k)
  obtain ⟨k, hk⟩ := WellFoundedLT.antitone_chain_condition hanti
  refine ⟨n + k, Nat.le_add_right n k, fun m hm => ?_⟩
  have := hk (m - n) (by omega)
  rw [show n + (m - n) = m by omega] at this
  exact this.symm

namespace MemProg
variable {L V α : Type}

/-- The accesses of the longest run. -/
noncomputable def depth : MemProg L V α → ℕ
  | pure _ => 0
  | read _ k => (⨆ v, depth (k v)) + 1
  | write _ _ k => depth k + 1

theorem depth_lt_read [Finite V] (l : L) (k : V → MemProg L V α) (v : V) :
    (k v).depth < (read l k).depth :=
  Nat.lt_succ_of_le (le_ciSup (f := fun v => (k v).depth) (Set.finite_range _).bddAbove v)

theorem depth_lt_write (l : L) (v : V) (k : MemProg L V α) : k.depth < (write l v k).depth :=
  Nat.lt_succ_self _

end MemProg
