import Mathlib
import FastLlm.Lib.TaskFlow

/-!
# Assertions on added tasks

What the tasks added so far have left in a set of locations, and which of them have to be over for
it: an assertion speaks of a set of locations of its own, and stays true as long as no later task
touches them.  Two assertions are joined when their locations are disjoint; the join is written as
a sum, so that sums over positions and their laws are those of commutative monoids.  Assertions may
be forgotten.

## Main definitions

* `Assn` — an assertion; `P + Q` on disjoint locations, `P ≤ Q` when `P` entails `Q`.
* `Assn.filled`, `Assn.owned` — contents that are there once `ds` are over, for reading and for
  writing.
* `Assn.kept` — contents that are there at the end.
* `Assn.past` — tasks that are over once others are.
* `Assn.Reads`, `Assn.Owns`, `Assn.Takes` — what a new task needs of an assertion and leaves.
* `Assn.Performs` — what the program of a task does.
* `TaskFlow.Adds.step` — a new task.
-/

open Relation

variable {L V : Type} [DecidableEq L]

/-- What holds of a set of locations until a later task touches it. -/
structure Assn (L V : Type) [DecidableEq L] where
  holds : TaskFlow L V → Set L → Prop
  stable : ∀ {F F' : TaskFlow L V} {A : Set L}, F.Sound → F.Continues F' →
    (∀ i, F.next ≤ i → ∀ l ∈ A, ¬ F'.Touches i l) → holds F A → holds F' A

namespace Assn
variable {P Q R : Assn L V} {F F' : TaskFlow L V} {A B : Set L} {ds ds' es : List ℕ}
  {v w : L → V}

@[ext] theorem ext (h : ∀ F A, P.holds F A ↔ Q.holds F A) : P = Q := by
  cases P
  cases Q
  rw [mk.injEq]
  exact funext fun F => funext fun A => propext (h F A)

/-! ## Joining -/

instance : Zero (Assn L V) := ⟨⟨fun _ A => A = ∅, fun _ _ _ h => h⟩⟩

instance : Add (Assn L V) where
  add P Q :=
    { holds F C := ∃ A B, Disjoint A B ∧ C = A ∪ B ∧ P.holds F A ∧ Q.holds F B
      stable := by
        rintro F F' _ hF h hno ⟨A, B, hAB, rfl, hP, hQ⟩
        exact ⟨A, B, hAB, rfl, P.stable hF h (fun i hi l hl => hno i hi l (.inl hl)) hP,
          Q.stable hF h (fun i hi l hl => hno i hi l (.inr hl)) hQ⟩ }

theorem holds_zero : (0 : Assn L V).holds F A ↔ A = ∅ := Iff.rfl

theorem holds_add {C : Set L} : (P + Q).holds F C ↔
    ∃ A B, Disjoint A B ∧ C = A ∪ B ∧ P.holds F A ∧ Q.holds F B := Iff.rfl

protected theorem add_comm' (P Q : Assn L V) : P + Q = Q + P := by
  suffices h : ∀ P Q : Assn L V, ∀ F C, (P + Q).holds F C → (Q + P).holds F C from
    ext fun F C => ⟨h P Q F C, h Q P F C⟩
  rintro P Q F _ ⟨A, B, hAB, rfl, hP, hQ⟩
  exact ⟨B, A, hAB.symm, Set.union_comm A B, hQ, hP⟩

protected theorem add_assoc' (P Q R : Assn L V) : P + Q + R = P + (Q + R) := by
  ext F D
  constructor
  · rintro ⟨_, C, hC, rfl, ⟨A, B, hAB, rfl, hP, hQ⟩, hR⟩
    rw [Set.disjoint_union_left] at hC
    exact ⟨A, B ∪ C, hAB.union_right hC.1, Set.union_assoc A B C, hP, B, C, hC.2, rfl, hQ, hR⟩
  · rintro ⟨A, _, hA, rfl, hP, B, C, hBC, rfl, hQ, hR⟩
    rw [Set.disjoint_union_right] at hA
    exact ⟨A ∪ B, C, hA.2.union_left hBC, (Set.union_assoc A B C).symm,
      ⟨A, B, hA.1, rfl, hP, hQ⟩, hR⟩

protected theorem zero_add' (P : Assn L V) : 0 + P = P := by
  ext F C
  constructor
  · rintro ⟨_, B, -, rfl, rfl, hP⟩
    rwa [Set.empty_union]
  · intro hP
    exact ⟨∅, C, Set.empty_disjoint C, (Set.empty_union C).symm, rfl, hP⟩

instance : AddCommMonoid (Assn L V) where
  add_assoc := Assn.add_assoc'
  zero_add := Assn.zero_add'
  add_zero P := by rw [Assn.add_comm', Assn.zero_add']
  add_comm := Assn.add_comm'
  nsmul := nsmulRec

/-! ## Entailment -/

/-- Locations that an assertion does not speak of are forgotten. -/
instance : Preorder (Assn L V) where
  le P Q := ∀ F A, F.Sound → P.holds F A → ∃ B ⊆ A, Q.holds F B
  le_refl _ _ A _ h := ⟨A, subset_rfl, h⟩
  le_trans P Q R hPQ hQR F A hF h := by
    obtain ⟨B, hB, hQ⟩ := hPQ F A hF h
    obtain ⟨C, hC, hR⟩ := hQR F B hF hQ
    exact ⟨C, hC.trans hB, hR⟩

theorem le_of_holds (h : ∀ F A, F.Sound → P.holds F A → Q.holds F A) : P ≤ Q :=
  fun F A hF hP => ⟨A, subset_rfl, h F A hF hP⟩

instance : IsOrderedAddMonoid (Assn L V) where
  add_le_add_left P Q h R := by
    rintro F _ hF ⟨A, B, hAB, rfl, hP, hR⟩
    obtain ⟨A', hA, hQ⟩ := h F A hF hP
    exact ⟨A' ∪ B, Set.union_subset_union_left B hA, A', B, hAB.mono_left hA, rfl, hQ, hR⟩

/-- An assertion may be forgotten. -/
theorem le_zero (P : Assn L V) : P ≤ 0 :=
  fun _ A _ _ => ⟨∅, Set.empty_subset A, rfl⟩

theorem add_le_left (P Q : Assn L V) : P + Q ≤ P := add_le_of_nonpos_right (le_zero Q)

theorem add_le_right (P Q : Assn L V) : P + Q ≤ Q := add_le_of_nonpos_left (le_zero P)

/-! ## Facts -/

/-- A proposition. -/
def fact (φ : Prop) : Assn L V := ⟨fun _ A => A = ∅ ∧ φ, fun _ _ _ h => h⟩

theorem holds_fact_add {φ : Prop} : (fact φ + P).holds F A ↔ φ ∧ P.holds F A := by
  constructor
  · rintro ⟨_, B, -, rfl, ⟨rfl, hφ⟩, hP⟩
    exact ⟨hφ, by rwa [Set.empty_union]⟩
  · rintro ⟨hφ, hP⟩
    exact ⟨∅, A, Set.empty_disjoint A, (Set.empty_union A).symm, ⟨rfl, hφ⟩, hP⟩

theorem fact_add_le {φ : Prop} (h : φ → P ≤ Q) : fact φ + P ≤ Q := by
  intro F A hF hP
  obtain ⟨hφ, hP⟩ := holds_fact_add.mp hP
  exact h hφ F A hF hP

theorem le_fact_add {φ : Prop} (h : φ) : P ≤ fact φ + P :=
  le_of_holds fun _ _ _ hP => holds_fact_add.mpr ⟨h, hP⟩

/-! ## Contents -/

/-- `v` is in `A` once `ds` are over. -/
def filled (ds : List ℕ) (A : Set L) (v : L → V) : Assn L V where
  holds F B := B = A ∧ ∀ l ∈ A, F.after l = v l ∧ ∀ i, l ∈ (F.foot i).writes → F.Done ds i
  stable := by
    rintro F F' _ hF h hno ⟨rfl, hA⟩
    refine ⟨rfl, fun l hl => ?_⟩
    obtain ⟨hv, hw⟩ := hA l hl
    refine ⟨(h.after_eq fun i hi hl' => hno i hi l hl (.inr hl')).trans hv, fun i hi => ?_⟩
    by_cases hlt : i < F.next
    · exact h.done (hw i (h.foot_eq hlt ▸ hi))
    · exact absurd (.inr hi) (hno i (Nat.not_lt.mp hlt) l hl)

/-- `v` is in `A`, and nobody needs `A` any more, once `ds` are over. -/
def owned (ds : List ℕ) (A : Set L) (v : L → V) : Assn L V where
  holds F B := B = A ∧ ∀ l ∈ A, F.after l = v l ∧ ∀ i, F.Touches i l → F.Done ds i
  stable := by
    rintro F F' _ hF h hno ⟨rfl, hA⟩
    refine ⟨rfl, fun l hl => ?_⟩
    obtain ⟨hv, hw⟩ := hA l hl
    refine ⟨(h.after_eq fun i hi hl' => hno i hi l hl (.inr hl')).trans hv, fun i hi => ?_⟩
    by_cases hlt : i < F.next
    · rw [TaskFlow.Touches, h.foot_eq hlt] at hi
      exact h.done (hw i hi)
    · exact absurd hi (hno i (Nat.not_lt.mp hlt) l hl)

/-- `v` is in `A` after all tasks. -/
def kept (A : Set L) (v : L → V) : Assn L V where
  holds F B := B = A ∧ ∀ l ∈ A, F.after l = v l
  stable := by
    rintro F F' _ - h hno ⟨rfl, hA⟩
    refine ⟨rfl, fun l hl => ?_⟩
    exact (h.after_eq fun i hi hl' => hno i hi l hl (.inr hl')).trans (hA l hl)

/-- Tasks `ds` are over once `ds'` are. -/
def past (ds ds' : List ℕ) : Assn L V where
  holds F B := B = ∅ ∧ ∀ d ∈ ds, F.Done ds' d
  stable := by
    rintro F F' _ - h - ⟨rfl, hds⟩
    exact ⟨rfl, fun d hd => h.done (hds d hd)⟩

theorem holds_filled : (filled ds A v).holds F B ↔ B = A ∧
    ∀ l ∈ A, F.after l = v l ∧ ∀ i, l ∈ (F.foot i).writes → F.Done ds i := Iff.rfl

theorem holds_owned : (owned ds A v).holds F B ↔ B = A ∧
    ∀ l ∈ A, F.after l = v l ∧ ∀ i, F.Touches i l → F.Done ds i := Iff.rfl

theorem owned_le_filled : owned ds A v ≤ filled ds A v := by
  refine le_of_holds fun F B _ h => ?_
  obtain ⟨rfl, hA⟩ := h
  exact ⟨rfl, fun l hl => ⟨(hA l hl).1, fun i hi => (hA l hl).2 i (.inr hi)⟩⟩

theorem filled_le_kept : filled ds A v ≤ kept A v :=
  le_of_holds fun _ _ _ h => ⟨h.1, fun l hl => (h.2 l hl).1⟩

theorem filled_congr (h : ∀ l ∈ A, v l = w l) : filled ds A v = filled ds A w := by
  ext F B
  rw [holds_filled, holds_filled]
  refine and_congr_right fun _ => forall₂_congr fun l hl => ?_
  rw [h l hl]

theorem owned_congr (h : ∀ l ∈ A, v l = w l) : owned ds A v = owned ds A w := by
  ext F B
  rw [holds_owned, holds_owned]
  refine and_congr_right fun _ => forall₂_congr fun l hl => ?_
  rw [h l hl]

@[simp] theorem filled_empty : filled ds (∅ : Set L) v = 0 := by
  ext F B
  simp [holds_filled, holds_zero]

@[simp] theorem owned_empty : owned ds (∅ : Set L) v = 0 := by
  ext F B
  simp [holds_owned, holds_zero]

theorem filled_union (h : Disjoint A B) :
    filled ds (A ∪ B) v = filled ds A v + filled ds B v := by
  ext F C
  constructor
  · rintro ⟨rfl, hl⟩
    exact ⟨A, B, h, rfl, ⟨rfl, fun l hA => hl l (.inl hA)⟩, ⟨rfl, fun l hB => hl l (.inr hB)⟩⟩
  · rintro ⟨_, _, -, rfl, ⟨rfl, hA⟩, rfl, hB⟩
    exact ⟨rfl, fun l hl => hl.elim (hA l) (hB l)⟩

theorem owned_union (h : Disjoint A B) : owned ds (A ∪ B) v = owned ds A v + owned ds B v := by
  ext F C
  constructor
  · rintro ⟨rfl, hl⟩
    exact ⟨A, B, h, rfl, ⟨rfl, fun l hA => hl l (.inl hA)⟩, ⟨rfl, fun l hB => hl l (.inr hB)⟩⟩
  · rintro ⟨_, _, -, rfl, ⟨rfl, hA⟩, rfl, hB⟩
    exact ⟨rfl, fun l hl => hl.elim (hA l) (hB l)⟩

theorem owned_mono (h : A ⊆ B) : owned ds B v ≤ owned ds A v := by
  rintro F _ _ ⟨rfl, hB⟩
  exact ⟨A, h, rfl, fun l hl => hB l (h hl)⟩

/-- Waiting for more tasks. -/
theorem filled_le (h : ds ⊆ ds') : filled ds A v ≤ filled ds' A v := by
  refine le_of_holds fun F B _ hB => ?_
  obtain ⟨rfl, hA⟩ := hB
  exact ⟨rfl, fun l hl => ⟨(hA l hl).1, fun i hi => ((hA l hl).2 i hi).mono h⟩⟩

theorem owned_le (h : ds ⊆ ds') : owned ds A v ≤ owned ds' A v := by
  refine le_of_holds fun F B _ hB => ?_
  obtain ⟨rfl, hA⟩ := hB
  exact ⟨rfl, fun l hl => ⟨(hA l hl).1, fun i hi => ((hA l hl).2 i hi).mono h⟩⟩

theorem past_le {es' : List ℕ} (h : es ⊆ ds) (h' : ds' ⊆ es') :
    (past ds ds' : Assn L V) ≤ past es es' := by
  refine le_of_holds fun F B _ hB => ?_
  obtain ⟨rfl, hds⟩ := hB
  exact ⟨rfl, fun d hd => (hds d (h hd)).mono h'⟩

/-- What is over may be said twice. -/
theorem past_le_add_self : (past ds ds' : Assn L V) ≤ past ds ds' + past ds ds' := by
  refine le_of_holds fun F B _ hB => ?_
  obtain ⟨rfl, hds⟩ := hB
  exact ⟨∅, ∅, disjoint_bot_left, (Set.union_empty _).symm, ⟨rfl, hds⟩, rfl, hds⟩

/-- Waiting for later tasks. -/
theorem filled_add_past_le : filled ds A v + past ds ds' ≤ filled ds' A v := by
  refine le_of_holds fun F B _ hB => ?_
  obtain ⟨_, _, -, rfl, ⟨rfl, hA⟩, rfl, hds⟩ := hB
  exact ⟨Set.union_empty _, fun l hl => ⟨(hA l hl).1, fun i hi => ((hA l hl).2 i hi).trans hds⟩⟩

theorem past_add_past_le : past ds ds' + past ds' es ≤ (past ds es : Assn L V) := by
  refine le_of_holds fun F B _ hB => ?_
  obtain ⟨_, _, -, rfl, ⟨rfl, hds⟩, rfl, hds'⟩ := hB
  exact ⟨Set.union_empty _, fun d hd => (hds d hd).trans hds'⟩

/-- What nobody may touch yet is as it was. -/
theorem holds_owned_init (hF : F.Sound) (h : ∀ l ∈ A, l ∉ F.heap ∪ F.const) :
    (owned [] A F.init).holds F A := by
  refine ⟨rfl, fun l hl => ⟨?_, fun i hi => ?_⟩⟩
  · exact TaskFlow.before_of_notMem (Nat.zero_le _) fun i _ _ hw => h l hl (.inl (hF.writes i hw))
  · exact absurd (hi.elim (fun hr => hF.reads i hr) fun hw => .inl (hF.writes i hw)) (h l hl)

/-! ## What a new task needs and leaves -/

/-- A task behind `ds` may read what `P` speaks of; `P'` holds behind it. -/
structure Reads (P : Assn L V) (ds : List ℕ) (P' : ℕ → Assn L V) : Prop where
  written : ∀ F A, P.holds F A → ∀ l ∈ A, ∀ i, l ∈ (F.foot i).writes → F.Done ds i
  leaves : ∀ F F' A p id, F.Sound → F.Adds F' p ds id → P.holds F A →
    (∀ l ∈ A, l ∉ (F'.foot id).writes) → (P' id).holds F' A

/-- A task behind `ds` may write what `X` speaks of. -/
def Owns (X : Assn L V) (ds : List ℕ) : Prop :=
  ∀ F A, X.holds F A → ∀ l ∈ A, ∀ i, F.Touches i l → F.Done ds i

/-- `Y` holds of `A` when task `id` is the last to touch `A` and leaves `m`. -/
def Takes (Y : Assn L V) (id : ℕ) (A : Set L) (m : L → V) : Prop :=
  ∀ F : TaskFlow L V, (∀ l ∈ A, F.after l = m l) →
    (∀ l ∈ A, ∀ i, F.Touches i l → F.Done [id] i) → Y.holds F A

section
variable {X Y : Assn L V} {P' Q' : ℕ → Assn L V} {m : L → V} {id : ℕ}

/-- What is read stays as it is. -/
theorem reads_filled (h : ds ⊆ ds') :
    (filled ds A v).Reads ds' fun _ => filled ds A v where
  written := by
    rintro F _ ⟨rfl, hA⟩ l hl i hi
    exact ((hA l hl).2 i hi).mono h
  leaves := by
    rintro F F' _ p id hF hadd ⟨rfl, hA⟩ hno
    refine ⟨rfl, fun l hl => ?_⟩
    obtain ⟨hv, hw⟩ := hA l hl
    have hold (i : ℕ) (hi : l ∈ (F'.foot i).writes) : l ∈ (F.foot i).writes := by
      rwa [hadd.foot_of_ne hF fun he => hno l hl (he ▸ hi)] at hi
    refine ⟨(hadd.continues.after_eq fun i hi hl' => ?_).trans hv,
      fun i hi => hadd.continues.done (hw i (hold i hi))⟩
    have hhas : F.Has i := TaskFlow.Touches.has (.inr (hold i hl'))
    exact absurd (hF.has_lt i hhas) (Nat.not_lt.mpr hi)

/-- What is there before a new task is there once the new task is over. -/
theorem reads_filled_self (h : ds ⊆ ds') :
    (filled ds A v).Reads ds' fun id => filled [id] A v where
  written := (reads_filled h).written
  leaves := by
    intro F F' B p id hF hadd hP hno
    obtain ⟨-, hA'⟩ := (reads_filled h).leaves F F' B p id hF hadd hP hno
    obtain ⟨rfl, hA⟩ := hP
    refine ⟨rfl, fun l hl => ⟨(hA' l hl).1, fun i hi => ?_⟩⟩
    rw [hadd.foot_of_ne hF fun he => hno l hl (he ▸ hi)] at hi
    exact hadd.done_self (((hA l hl).2 i hi).mono h)

theorem reads_owned_self (h : ds ⊆ ds') :
    (owned ds A v).Reads ds' fun id => owned [id] A v where
  written := by
    rintro F _ ⟨rfl, hA⟩ l hl i hi
    exact ((hA l hl).2 i (.inr hi)).mono h
  leaves := by
    intro F F' B p id hF hadd hP hno
    have hfilled : (filled ds A v).holds F B :=
      ⟨hP.1, fun l hl => ⟨(hP.2 l hl).1, fun i hi => (hP.2 l hl).2 i (.inr hi)⟩⟩
    obtain ⟨-, hA'⟩ := (reads_filled h).leaves F F' B p id hF hadd hfilled hno
    obtain ⟨rfl, hA⟩ := hP
    refine ⟨rfl, fun l hl => ⟨(hA' l hl).1, fun i hi => ?_⟩⟩
    by_cases hne : i = id
    · exact TaskFlow.Done.self (by simp [hne])
    · exact hadd.done_self (((hA l hl).2 i ((hadd.touches_of_ne hF hne).mp hi)).mono h)

/-- The dependencies of a new task are over before it. -/
theorem reads_past (h : ds ⊆ ds') : (0 : Assn L V).Reads ds' fun id => past ds [id] where
  written := by
    rintro F _ rfl l hl
    exact absurd hl (Set.notMem_empty l)
  leaves := by
    rintro F F' _ p id hF hadd rfl hno
    exact ⟨rfl, fun d hd => hadd.done_self (TaskFlow.Done.self (h hd))⟩

/-- What was over before what the new task waits for is over before it. -/
theorem reads_past_self : (past es ds : Assn L V).Reads ds fun id => past es [id] where
  written := by
    rintro F _ ⟨rfl, -⟩ l hl
    exact absurd hl (Set.notMem_empty l)
  leaves := by
    rintro F F' _ p id hF hadd ⟨rfl, h⟩ hno
    exact ⟨rfl, fun d hd => hadd.done_self (h d hd)⟩

theorem reads_zero : (0 : Assn L V).Reads ds fun _ => 0 where
  written := by
    rintro F _ rfl l hl
    exact absurd hl (Set.notMem_empty l)
  leaves _ _ _ _ _ _ _ h _ := h

theorem Reads.add (h : P.Reads ds P') (h' : Q.Reads ds Q') :
    (P + Q).Reads ds fun id => P' id + Q' id where
  written := by
    rintro F _ ⟨A, B, -, rfl, hP, hQ⟩ l hl
    exact hl.elim (h.written F A hP l) (h'.written F B hQ l)
  leaves := by
    rintro F F' _ p id hF hadd ⟨A, B, hAB, rfl, hP, hQ⟩ hno
    exact ⟨A, B, hAB, rfl, h.leaves F F' A p id hF hadd hP fun l hl => hno l (.inl hl),
      h'.leaves F F' B p id hF hadd hQ fun l hl => hno l (.inr hl)⟩

theorem Reads.sum {P : ℕ → Assn L V} {P' : ℕ → ℕ → Assn L V} {n : ℕ}
    (h : ∀ p < n, (P p).Reads ds (P' p)) :
    (∑ p ∈ Finset.range n, P p).Reads ds fun id => ∑ p ∈ Finset.range n, P' p id := by
  induction n with
  | zero => exact reads_zero
  | succ n ih =>
    simp only [Finset.sum_range_succ]
    exact (ih fun p hp => h p (Nat.lt_succ_of_lt hp)).add (h n (Nat.lt_succ_self n))

theorem owns_owned (h : ds ⊆ ds') : (owned ds A v).Owns ds' := by
  rintro F _ ⟨rfl, hA⟩ l hl i hi
  exact ((hA l hl).2 i hi).mono h

theorem owns_zero : (0 : Assn L V).Owns ds := by
  rintro F _ rfl l hl
  exact absurd hl (Set.notMem_empty l)

theorem Owns.add (h : P.Owns ds) (h' : Q.Owns ds) : (P + Q).Owns ds := by
  rintro F _ ⟨A, B, -, rfl, hP, hQ⟩ l hl
  exact hl.elim (h F A hP l) (h' F B hQ l)

theorem takes_owned (h : ∀ l ∈ A, m l = v l) : (owned [id] A v).Takes id A m :=
  fun _ hm ht => ⟨rfl, fun l hl => ⟨(hm l hl).trans (h l hl), ht l hl⟩⟩

theorem takes_zero : (0 : Assn L V).Takes id ∅ m := fun _ _ _ => rfl

theorem Takes.add (hX : X.Takes id A m) (hY : Y.Takes id B m) (h : Disjoint A B) :
    (X + Y).Takes id (A ∪ B) m := by
  intro F hm ht
  exact ⟨A, B, h, rfl, hX F (fun l hl => hm l (.inl hl)) fun l hl => ht l (.inl hl),
    hY F (fun l hl => hm l (.inr hl)) fun l hl => ht l (.inr hl)⟩

theorem Reads.congr {P₂ : ℕ → Assn L V} (h : P.Reads ds P') (hP : ∀ id, P' id = P₂ id) :
    P.Reads ds P₂ := by
  obtain rfl : P' = P₂ := funext hP
  exact h

/-! ## Sums -/

section
variable {ι : Type} {g g' : ι → Assn L V} {r : ι → Set L} {l : List ι}

/-- A sum of assertions whose locations are known. -/
theorem holds_list_sum (hr : ∀ b F A, (g b).holds F A → A = r b) {S : Set L} :
    (l.map g).sum.holds F S ↔ (∀ b ∈ l, (g b).holds F (r b)) ∧
      l.Pairwise (fun a b => Disjoint (r a) (r b)) ∧ S = {x | ∃ b ∈ l, x ∈ r b} := by
  induction l generalizing S with
  | nil => simp [holds_zero]
  | cons a l ih =>
    have hsplit : {x | ∃ b ∈ a :: l, x ∈ r b} = r a ∪ {x | ∃ b ∈ l, x ∈ r b} := by
      ext x
      simp
    have hdisj : Disjoint (r a) {x | ∃ b ∈ l, x ∈ r b} ↔ ∀ b ∈ l, Disjoint (r a) (r b) := by
      rw [Set.disjoint_left]
      simp only [Set.disjoint_left, Set.mem_ofPred_eq, not_exists, not_and]
      exact ⟨fun h b hb x hx => h hx b hb, fun h x hx b hb => h b hb hx⟩
    rw [List.map_cons, List.sum_cons, holds_add, List.forall_mem_cons, List.pairwise_cons, hsplit]
    constructor
    · rintro ⟨A, B, hAB, rfl, hA, hB⟩
      obtain ⟨hall, hpair, rfl⟩ := ih.mp hB
      obtain rfl := hr a F A hA
      exact ⟨⟨hA, hall⟩, ⟨hdisj.mp hAB, hpair⟩, rfl⟩
    · rintro ⟨⟨hA, hall⟩, ⟨hab, hpair⟩, rfl⟩
      exact ⟨r a, _, hdisj.mpr hab, rfl, hA, ih.mpr ⟨hall, hpair, rfl⟩⟩

theorem Reads.list_sum {gs : ι → ℕ → Assn L V} (h : ∀ b ∈ l, (g b).Reads ds (gs b)) :
    (l.map g).sum.Reads ds fun id => (l.map fun b => gs b id).sum := by
  induction l with
  | nil => exact reads_zero
  | cons a l ih =>
    simp only [List.map_cons, List.sum_cons]
    exact (h a List.mem_cons_self).add (ih fun b hb => h b (List.mem_cons_of_mem _ hb))

theorem Owns.list_sum (h : ∀ b ∈ l, (g b).Owns ds) : (l.map g).sum.Owns ds := by
  induction l with
  | nil => exact owns_zero
  | cons a l ih =>
    rw [List.map_cons, List.sum_cons]
    exact (h a List.mem_cons_self).add (ih fun b hb => h b (List.mem_cons_of_mem _ hb))

theorem Takes.list_sum (h : ∀ b ∈ l, (g b).Takes id (r b) m)
    (hpair : l.Pairwise fun a b => Disjoint (r a) (r b)) :
    (l.map g).sum.Takes id {x | ∃ b ∈ l, x ∈ r b} m := by
  induction l with
  | nil => simpa using takes_zero
  | cons a l ih =>
    have hsplit : {x | ∃ b ∈ a :: l, x ∈ r b} = r a ∪ {x | ∃ b ∈ l, x ∈ r b} := by
      ext x
      simp
    rw [List.map_cons, List.sum_cons, hsplit]
    rw [List.pairwise_cons] at hpair
    refine (h a List.mem_cons_self).add (ih (fun b hb => h b (List.mem_cons_of_mem _ hb)) hpair.2) ?_
    rw [Set.disjoint_left]
    rintro x hx ⟨b, hb, hxb⟩
    exact Set.disjoint_left.mp (hpair.1 b hb) hx hxb

theorem sum_range_eq (g : ℕ → Assn L V) (n : ℕ) :
    ∑ p ∈ Finset.range n, g p = ((List.range n).map g).sum := by
  induction n with
  | zero => rfl
  | succ n ih => simp [Finset.sum_range_succ, List.range_succ, ih]

/-- The first terms. -/
theorem sum_range_le {g : ℕ → Assn L V} {k n : ℕ} (h : k ≤ n) :
    ∑ i ∈ Finset.range n, g i ≤ ∑ i ∈ Finset.range k, g i := by
  obtain ⟨d, rfl⟩ := Nat.exists_eq_add_of_le h
  rw [Finset.sum_range_add]
  exact add_le_left _ _

theorem holds_sum {g : ℕ → Assn L V} {r : ℕ → Set L} {n : ℕ} {S : Set L}
    (hr : ∀ p F A, (g p).holds F A → A = r p) :
    (∑ p ∈ Finset.range n, g p).holds F S ↔ (∀ p < n, (g p).holds F (r p)) ∧
      (∀ p < n, ∀ q < n, p ≠ q → Disjoint (r p) (r q)) ∧ S = {x | ∃ p < n, x ∈ r p} := by
  rw [sum_range_eq, holds_list_sum hr]
  simp only [List.mem_range]
  refine and_congr_right fun _ => and_congr_left fun _ => ⟨fun h p hp q hq hne => ?_, fun h => ?_⟩
  · have : Std.Symm fun a b => Disjoint (r a) (r b) := ⟨fun _ _ h => h.symm⟩
    exact h.forall (List.mem_range.mpr hp) (List.mem_range.mpr hq) hne
  · exact List.nodup_range.pairwise_of_forall_ne fun p hp q hq hne =>
      h p (List.mem_range.mp hp) q (List.mem_range.mp hq) hne

theorem Takes.sum {g : ℕ → Assn L V} {r : ℕ → Set L} {n : ℕ}
    (h : ∀ p < n, (g p).Takes id (r p) m)
    (hpair : ∀ p < n, ∀ q < n, p ≠ q → Disjoint (r p) (r q)) :
    (∑ p ∈ Finset.range n, g p).Takes id {x | ∃ p < n, x ∈ r p} m := by
  have hsum := Takes.list_sum (fun p hp => h p (List.mem_range.mp hp))
    (List.nodup_range.pairwise_of_forall_ne fun p hp q hq hne =>
      hpair p (List.mem_range.mp hp) q (List.mem_range.mp hq) hne)
  rw [← sum_range_eq] at hsum
  simpa only [List.mem_range] using hsum

theorem Owns.sum {g : ℕ → Assn L V} {n : ℕ} (h : ∀ p < n, (g p).Owns ds) :
    (∑ p ∈ Finset.range n, g p).Owns ds := by
  rw [sum_range_eq]
  exact Owns.list_sum fun p hp => h p (List.mem_range.mp hp)

end

/-! ## Programs -/

/-- Run when `P` and `X` hold, `p` reads what they speak of and what is never written; it writes
what `X` speaks of, and then `Y` holds of some of that. -/
def Performs (K : Set L) (μ : L → V) (p : MemProg L V Unit) (P X : Assn L V)
    (Y : ℕ → Assn L V) : Prop :=
  ∀ (F : TaskFlow L V) (A B : Set L), F.Sound → F.init = μ → F.const = K → A ∪ B ⊆ F.heap →
    Disjoint A B → P.holds F A → X.holds F B →
      (p.footprint F.after).reads ⊆ A ∪ B ∪ K ∧ (p.footprint F.after).writes ⊆ B ∧
        ∀ id, ∃ C ⊆ B, (Y id).Takes id C (p.final F.after)

theorem performs_pure {K : Set L} {μ : L → V} : Performs K μ (.pure ()) P 0 fun _ => 0 := by
  rintro F A B - - - - - - rfl
  exact ⟨Set.empty_subset _, Set.empty_subset _, fun _ => ⟨∅, subset_rfl, takes_zero⟩⟩

/-- A program that begins with a word that is read. -/
theorem Performs.get_filled {K : Set L} {μ : L → V} {l : L} {k : V → MemProg L V Unit}
    {Y : ℕ → Assn L V} (h : Performs K μ (k (v l)) P X Y) :
    Performs K μ (.bind (.get l) k) (filled ds {l} v + P) X Y := by
  rintro F _ B hF hinit hconst hheap hdisj ⟨_, A, hlA, rfl, ⟨rfl, hl⟩, hP⟩ hX
  rw [Set.disjoint_union_left] at hdisj
  obtain ⟨hr, hw, hY⟩ := h F A B hF hinit hconst
    (Set.union_subset (Set.subset_union_right.trans (Set.subset_union_left.trans hheap))
      (Set.subset_union_right.trans hheap)) hdisj.2 hP hX
  have hval : F.after l = v l := (hl l rfl).1
  rw [MemProg.footprint_bind, MemProg.final_bind]
  simp only [MemProg.val_get, MemProg.final_get, hval]
  refine ⟨Set.union_subset ?_ (hr.trans ?_), Set.union_subset (Set.empty_subset _) hw, hY⟩
  · rintro x (rfl | hx)
    · exact .inl (.inl (.inl rfl))
    · exact absurd hx (Set.notMem_empty x)
  · exact Set.union_subset_union_left _ (Set.union_subset_union_left _ Set.subset_union_right)

/-- A program that begins with what is never written. -/
theorem Performs.get {K : Set L} {μ : L → V} {l : L} {k : V → MemProg L V Unit}
    {Y : ℕ → Assn L V} (hl : l ∈ K) (h : Performs K μ (k (μ l)) P X Y) :
    Performs K μ (.bind (.get l) k) P X Y := by
  intro F A B hF hinit hconst hheap hAB hP hX
  obtain ⟨hr, hw, hY⟩ := h F A B hF hinit hconst hheap hAB hP hX
  have hval : F.after l = μ l := hinit ▸ hF.after_const (hconst ▸ hl)
  rw [MemProg.footprint_bind, MemProg.final_bind]
  simp only [MemProg.val_get, MemProg.final_get, hval]
  refine ⟨Set.union_subset ?_ hr, Set.union_subset (Set.empty_subset _) hw, hY⟩
  rintro x (rfl | hx)
  · exact .inr hl
  · exact absurd hx (Set.notMem_empty x)

end
end Assn

/-! ## One more task -/

/-- **A new task** that reads what `P` and writes what `X` speaks of, behind the tasks that they
wait for. -/
theorem TaskFlow.Adds.step {F F' : TaskFlow L V} {p : MemProg L V Unit} {ds : List ℕ} {id : ℕ}
    {P X : Assn L V} {P' Y : ℕ → Assn L V} {A B : Set L} (h : F.Adds F' p ds id) (hF : F.Sound)
    (hread : P.Reads ds P') (hown : X.Owns ds) (hAB : Disjoint A B) (hheap : A ∪ B ⊆ F.heap)
    (hP : P.holds F A) (hX : X.holds F B) (hp : Assn.Performs F.const F.init p P X Y) :
    F'.Sound ∧ (∃ C ⊆ A ∪ B, (P' id + Y id).holds F' C) ∧
      ∀ i, F.next ≤ i → ∀ l, F'.Touches i l → l ∈ A ∪ B ∪ F.const := by
  obtain ⟨hr, hw, hY⟩ := hp F A B hF rfl rfl hheap hAB hP hX
  obtain ⟨C, hC, htakes⟩ := hY id
  refine ⟨h.sound hF hr hw hheap (hread.written F A hP) (hown F B hX), ⟨A ∪ C,
    Set.union_subset_union_right A hC, A, C, hAB.mono_right hC, rfl, ?_, ?_⟩, fun i hi l hl => ?_⟩
  · refine hread.leaves F F' A p id hF h hP fun l hl hl' => ?_
    rw [h.foot_self hF] at hl'
    exact Set.disjoint_left.mp hAB hl (hw hl')
  · refine htakes F' (fun l _ => by rw [h.after_eq hF]) fun l hl i hi => ?_
    by_cases hne : i = id
    · exact TaskFlow.Done.self (by simp [hne])
    · exact h.done_self (hown F B hX l (hC hl) i ((h.touches_of_ne hF hne).mp hi))
  · by_cases hne : i = id
    · rw [hne, TaskFlow.Touches, h.foot_self hF] at hl
      exact hl.elim (fun hl => hr hl) fun hl => .inl (.inr (hw hl))
    · exact absurd hl.has (h.not_has hF hi hne)
