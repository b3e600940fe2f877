import Mathlib.Data.Nat.Notation
import Mathlib.Data.Set.Insert
import Mathlib.Order.WithBot

/-!
# The lowest index of a maximum

Indices are offered one after the other, and one is kept: the one with the largest value, the
lower of two with the same.  In whatever order a set of indices is offered, the lowest one with
the largest value in the set is kept (`Best.offer`).  An index need not be offered when its value
is known to stay below that of one that is (`LowestMax.extend`).

## Main definitions

* `LowestMax` — the lowest index of a set with the largest value.
* `offer` — one step of the search.
* `Best` — what is kept, after a set of indices.
-/

variable {K : Type} [LinearOrder K] {v : ℕ → K} {S T : Set ℕ} {i j k : ℕ}

/-- `j` is the lowest of the indices in `S` with the largest value. -/
def LowestMax (v : ℕ → K) (S : Set ℕ) (j : ℕ) : Prop :=
  j ∈ S ∧ ∀ k ∈ S, v k < v j ∨ v k = v j ∧ j ≤ k

namespace LowestMax

theorem mem (h : LowestMax v S j) : j ∈ S := h.1

theorem le (h : LowestMax v S j) (hk : k ∈ S) : v k ≤ v j := by
  rcases h.2 k hk with hlt | ⟨heq, -⟩
  · exact hlt.le
  · exact heq.le

/-- There is only one. -/
theorem unique (hi : LowestMax v S i) (hj : LowestMax v S j) : i = j := by
  rcases hi.2 j hj.mem with hlt | ⟨-, hij⟩
  · exact absurd (hj.le hi.mem) (not_le.mpr hlt)
  · rcases hj.2 i hi.mem with hlt | ⟨-, hji⟩
    · exact absurd (hi.le hj.mem) (not_le.mpr hlt)
    · exact le_antisymm hij hji

theorem subset (h : LowestMax v T j) (hj : j ∈ S) (hST : S ⊆ T) : LowestMax v S j :=
  ⟨hj, fun k hk => h.2 k (hST hk)⟩

/-- Indices whose values are smaller change nothing. -/
theorem extend (h : LowestMax v S j) (hST : S ⊆ T) (hlt : ∀ k ∈ T, k ∉ S → v k < v j) :
    LowestMax v T j := by
  refine ⟨hST h.mem, fun k hk => ?_⟩
  by_cases hkS : k ∈ S
  · exact h.2 k hkS
  · exact .inl (hlt k hk hkS)

end LowestMax

/-- `if (v[j] > bv || (v[j] == bv && j < best)) { bv = v[j]; best = j; }`, where nothing has been
kept yet as long as `bv` is `⊥`. -/
def offer (v : ℕ → K) (b : WithBot K × ℕ) (j : ℕ) : WithBot K × ℕ :=
  if b.1 < v j ∨ (v j = b.1 ∧ j < b.2) then (v j, j) else b

/-- What is kept after the indices in `S` have been offered. -/
inductive Best (v : ℕ → K) (S : Set ℕ) (b : WithBot K × ℕ) : Prop
  | none : S = ∅ → b.1 = ⊥ → Best v S b
  | some : LowestMax v S b.2 → b.1 = v b.2 → Best v S b

namespace Best
variable {b : WithBot K × ℕ}

/-- One more index. -/
theorem step (h : Best v S b) (j : ℕ) : Best v (insert j S) (offer v b j) := by
  cases h with
  | none hS hb =>
    have hnew : offer v b j = (↑(v j), j) := by
      rw [offer, if_pos (.inl (hb ▸ WithBot.bot_lt_coe (v j)))]
    rw [hnew, hS]
    refine .some ⟨Set.mem_insert j ∅, fun k hk => ?_⟩ rfl
    obtain rfl : k = j := by simpa using hk
    exact .inr ⟨rfl, le_rfl⟩
  | some hmax hb =>
    rw [offer, hb]
    simp only [WithBot.coe_lt_coe, WithBot.coe_inj]
    by_cases hwin : v b.2 < v j ∨ v j = v b.2 ∧ j < b.2
    · rw [if_pos hwin]
      refine .some ⟨Set.mem_insert j S, fun k hk => ?_⟩ rfl
      rcases Set.mem_insert_iff.mp hk with rfl | hkS
      · exact .inr ⟨rfl, le_rfl⟩
      · rcases hmax.2 k hkS with hlt | ⟨heq, hle⟩ <;> rcases hwin with hlt' | ⟨heq', hlt'⟩
        · exact .inl (hlt.trans hlt')
        · exact .inl (heq' ▸ hlt)
        · exact .inl (heq ▸ hlt')
        · exact .inr ⟨heq.trans heq'.symm, hlt'.le.trans hle⟩
    · rw [if_neg hwin]
      refine .some ⟨Set.mem_insert_of_mem j hmax.mem, fun k hk => ?_⟩ hb
      rcases Set.mem_insert_iff.mp hk with rfl | hkS
      · simp only [not_or, not_and, not_lt] at hwin
        rcases hwin.1.lt_or_eq with hlt | heq
        · exact .inl hlt
        · exact .inr ⟨heq, hwin.2 heq⟩
      · exact hmax.2 k hkS

/-- Indices offered one after the other, those that do not satisfy `p` being passed over. -/
theorem foldl (h : Best v S b) (p : ℕ → Prop) [DecidablePred p] (l : List ℕ) :
    Best v (S ∪ {j | j ∈ l ∧ p j}) (l.foldl (fun b j => if p j then offer v b j else b) b) := by
  induction l generalizing S b with
  | nil => simpa using h
  | cons i l ih =>
    rw [List.foldl_cons]
    by_cases hp : p i
    · rw [if_pos hp]
      convert ih (h.step i) using 1
      ext j
      simp only [Set.mem_union, Set.mem_ofPred_eq, List.mem_cons, Set.mem_insert_iff]
      constructor
      · rintro (hj | ⟨rfl | hj, hpj⟩)
        · exact .inl (.inr hj)
        · exact .inl (.inl rfl)
        · exact .inr ⟨hj, hpj⟩
      · rintro ((rfl | hj) | ⟨hj, hpj⟩)
        · exact .inr ⟨.inl rfl, hp⟩
        · exact .inl hj
        · exact .inr ⟨.inr hj, hpj⟩
    · rw [if_neg hp]
      convert ih h using 1
      ext j
      simp only [Set.mem_union, Set.mem_ofPred_eq, List.mem_cons]
      constructor
      · rintro (hj | ⟨rfl | hj, hpj⟩)
        · exact .inl hj
        · exact absurd hpj hp
        · exact .inr ⟨hj, hpj⟩
      · rintro (hj | ⟨hj, hpj⟩)
        · exact .inl hj
        · exact .inr ⟨.inr hj, hpj⟩

/-- What is kept of a set that is not empty. -/
theorem lowestMax (h : Best v S b) (hS : S.Nonempty) : LowestMax v S b.2 ∧ b.1 = v b.2 := by
  cases h with
  | none h0 _ => exact absurd h0 hS.ne_empty
  | some hmax hb => exact ⟨hmax, hb⟩

end Best
