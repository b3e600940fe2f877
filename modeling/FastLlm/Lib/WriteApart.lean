import FastLlm.Lib.TopoOrder
import Mathlib.Data.Set.Lattice
import Mathlib.Order.CompletePartialOrder

/-!
# Programs that write apart

Programs none of which writes what it or another one reads, each with write locations of its own
that do not depend on the memory.  A run of some of them leaves in the locations of each what it
would have left there alone (`execAll_of_mem`), so that neither the order of the programs nor how
often each of them runs shows in the memory (`execAll_congr`).

## Main definitions

* `MemProg.Bounded` — the reads and writes of a program from any memory.
* `WriteApart` — the condition on the programs of a list.
-/

namespace MemProg
variable {L V α β : Type} [DecidableEq L]

/-! ## Fixed footprints -/

/-- From every memory the program reads within `R` and writes exactly `W`. -/
structure Bounded (p : MemProg L V α) (R W : Set L) : Prop where
  reads : ∀ m, (p.footprint m).reads ⊆ R
  writes : ∀ m, (p.footprint m).writes = W

namespace Bounded
variable {p : MemProg L V α} {R R' W W' : Set L}

protected theorem pure (a : α) : Bounded (.pure a : MemProg L V α) R ∅ :=
  ⟨fun _ => Set.empty_subset R, fun _ => rfl⟩

theorem get {l : L} (hl : l ∈ R) : Bounded (get l : MemProg L V V) R ∅ := by
  refine ⟨fun m => ?_, fun _ => rfl⟩
  rintro k (rfl | hk)
  · exact hl
  · exact absurd hk (Set.notMem_empty k)

theorem put (l : L) (v : V) : Bounded (put l v) R {l} :=
  ⟨fun _ => Set.empty_subset R, fun _ => insert_empty_eq l⟩

theorem bind {f : α → MemProg L V β} (hp : Bounded p R W) (hf : ∀ a, Bounded (f a) R W') :
    Bounded (p.bind f) R (W ∪ W') := by
  refine ⟨fun m => ?_, fun m => ?_⟩ <;> rw [footprint_bind]
  · exact Set.union_subset (hp.reads m) ((hf _).reads _)
  · change (p.footprint m).writes ∪ _ = _
    rw [hp.writes, (hf _).writes]

theorem mono (h : Bounded p R W) (hR : R ⊆ R') (hW : W = W') : Bounded p R' W' :=
  hW ▸ ⟨fun m => (h.reads m).trans hR, h.writes⟩

/-- A loop writes what its rounds write. -/
theorem forRange {f : ℕ → MemProg L V Unit} {W : ℕ → Set L} {n : ℕ}
    (h : ∀ i < n, Bounded (f i) R (W i)) :
    Bounded (forRange n f) R {l | ∃ i < n, l ∈ W i} := by
  induction n with
  | zero => exact (Bounded.pure ()).mono subset_rfl (by simp)
  | succ n ih =>
    have hlast := (ih fun i hi => h i (Nat.lt_succ_of_lt hi)).bind fun _ => h n (Nat.lt_succ_self n)
    refine hlast.mono subset_rfl (Set.ext fun l => ?_)
    constructor
    · rintro (⟨i, hi, hl⟩ | hl)
      · exact ⟨i, Nat.lt_succ_of_lt hi, hl⟩
      · exact ⟨n, Nat.lt_succ_self n, hl⟩
    · rintro ⟨i, hi, hl⟩
      rcases Nat.lt_succ_iff_lt_or_eq.mp hi with hlt | rfl
      · exact .inl ⟨i, hlt, hl⟩
      · exact .inr hl

end Bounded

/-! ## Rounds that write apart -/

section
variable {g : ℕ → MemProg L V Unit} {R W : ℕ → Set L} {n : ℕ}

/-- What no round writes is unchanged. -/
theorem final_forRange_of_notMem {m : L → V} {l : L}
    (hw : ∀ i < n, ∀ m, ((g i).footprint m).writes ⊆ W i) (hl : ∀ i < n, l ∉ W i) :
    (MemProg.forRange n g).final m l = m l := by
  induction n with
  | zero => rfl
  | succ n ih =>
    change (MemProg.bind (MemProg.forRange n g) fun _ => g n).final m l = m l
    rw [final_bind, final_of_notMem _ _ fun h => hl n (Nat.lt_succ_self n)
      (hw n (Nat.lt_succ_self n) _ h)]
    exact ih (fun i hi => hw i (Nat.lt_succ_of_lt hi)) fun i hi => hl i (Nat.lt_succ_of_lt hi)

/-- Rounds that begin with a word that no round writes. -/
theorem final_forRange_get {h : ℕ → V → MemProg L V Unit} {m : L → V} {l : L}
    (hw : ∀ i < n, ∀ μ, ((h i (m l)).footprint μ).writes ⊆ W i) (hl : ∀ i < n, l ∉ W i) :
    (MemProg.forRange n fun i => MemProg.bind (get l) (h i)).final m =
      (MemProg.forRange n fun i => h i (m l)).final m := by
  induction n with
  | zero => rfl
  | succ n ih =>
    have hwn : ∀ i < n, ∀ μ, ((h i (m l)).footprint μ).writes ⊆ W i :=
      fun i hi => hw i (Nat.lt_succ_of_lt hi)
    have hln : ∀ i < n, l ∉ W i := fun i hi => hl i (Nat.lt_succ_of_lt hi)
    change (MemProg.bind (MemProg.forRange n _) fun _ => MemProg.bind (get l) (h n)).final m =
      (MemProg.bind (MemProg.forRange n _) fun _ => h n (m l)).final m
    rw [final_bind, final_bind, final_bind, ih hwn hln, final_get, val_get,
      final_forRange_of_notMem hwn hln]

/-- A round that keeps away from what the other rounds write leaves what it leaves alone. -/
theorem final_forRange_apart {m : L → V} (hr : ∀ i < n, ∀ m, ((g i).footprint m).reads ⊆ R i)
    (hw : ∀ i < n, ∀ m, ((g i).footprint m).writes ⊆ W i)
    (hapart : ∀ i < n, ∀ j < n, i ≠ j → Disjoint (W i) (R j ∪ W j)) {i : ℕ} (hi : i < n) {l : L}
    (hl : l ∈ W i) : (MemProg.forRange n g).final m l = (g i).final m l := by
  induction n with
  | zero => exact absurd hi (Nat.not_lt_zero i)
  | succ n ih =>
    have hwn : ∀ j < n, ∀ m, ((g j).footprint m).writes ⊆ W j :=
      fun j hj => hw j (Nat.lt_succ_of_lt hj)
    change (MemProg.bind (MemProg.forRange n g) fun _ => g n).final m l = _
    rw [final_bind]
    rcases Nat.lt_succ_iff_lt_or_eq.mp hi with hlt | rfl
    · -- a later round does not write it
      rw [final_of_notMem _ _ fun h => Set.disjoint_left.mp
        (hapart n (Nat.lt_succ_self n) i hi hlt.ne') (hw n (Nat.lt_succ_self n) _ h) (.inr hl)]
      exact ih (fun j hj => hr j (Nat.lt_succ_of_lt hj)) hwn
        (fun a ha b hb => hapart a (Nat.lt_succ_of_lt ha) b (Nat.lt_succ_of_lt hb)) hlt
    · -- the rounds before it did not touch what it needs
      have hsame : ∀ l ∈ R i ∪ W i, (MemProg.forRange i g).final m l = m l := fun l hl =>
        final_forRange_of_notMem hwn fun j hj h =>
          Set.disjoint_left.mp (hapart j (Nat.lt_succ_of_lt hj) i hi hj.ne) h hl
      have hread : ∀ l ∈ ((g i).footprint m).reads, (MemProg.forRange i g).final m l = m l :=
        fun l hl => hsame l (.inl (hr i hi m hl))
      by_cases hmem : l ∈ ((g i).footprint m).writes
      · exact final_congr _ _ _ hread hmem
      · rw [final_of_notMem _ _ hmem, final_of_notMem, hsame l (.inr hl)]
        rwa [footprint_congr _ _ _ hread]

/-- The same for the rounds of two nested loops. -/
theorem final_forRange₂_apart {g : ℕ → ℕ → MemProg L V Unit} {R W : ℕ → ℕ → Set L} {k : ℕ}
    {m : L → V} (hb : ∀ i < k, ∀ j < n, (g i j).Bounded (R i j) (W i j))
    (hapart : ∀ i < k, ∀ j < n, ∀ a < k, ∀ b < n, ¬ (i = a ∧ j = b) →
      Disjoint (W i j) (R a b ∪ W a b))
    {i j : ℕ} (hi : i < k) (hj : j < n) {l : L} (hl : l ∈ W i j) :
    (MemProg.forRange k fun i => MemProg.forRange n (g i)).final m l = (g i j).final m l := by
  let T (S : ℕ → ℕ → Set L) (i : ℕ) : Set L := {l | ∃ j < n, l ∈ S i j}
  have hrow : ∀ i < k, (MemProg.forRange n (g i)).Bounded (T R i) (T W i) := fun i hi =>
    .forRange fun j hj => (hb i hi j hj).mono (fun l hl => ⟨j, hj, hl⟩) rfl
  rw [final_forRange_apart (fun i hi => (hrow i hi).reads) (fun i hi m => ((hrow i hi).writes m).le)
    ?_ hi ⟨j, hj, hl⟩]
  · exact final_forRange_apart (fun j hj => (hb i hi j hj).reads)
      (fun j hj m => ((hb i hi j hj).writes m).le)
      (fun j hj b hb' hne => hapart i hi j hj i hi b hb' fun h => hne h.2) hj hl
  · intro i hi a ha hne
    rw [Set.disjoint_left]
    rintro l ⟨j, hj, hl⟩ (⟨b, hb', hl'⟩ | ⟨b, hb', hl'⟩)
    · exact Set.disjoint_left.mp (hapart i hi j hj a ha b hb' fun h => hne h.1) hl (.inl hl')
    · exact Set.disjoint_left.mp (hapart i hi j hj a ha b hb' fun h => hne h.1) hl (.inr hl')

end
end MemProg

/-! ## Runs -/

section
variable {ι L V : Type} [DecidableEq L]

/-- The programs chosen by `s` write apart from what any of them reads and from each other. -/
structure WriteApart (prog : ι → MemProg L V Unit) (s : ι → Prop) (R W : ι → Set L) : Prop where
  bounded : ∀ i, s i → (prog i).Bounded (R i) (W i)
  frame : ∀ i j, s i → s j → Disjoint (W i) (R j)
  own : ∀ i j, s i → s j → i ≠ j → Disjoint (W i) (W j)

namespace WriteApart
variable {prog : ι → MemProg L V Unit} {s : ι → Prop} {R W : ι → Set L} {m : L → V} {l : L}

/-- What no program of the run writes is unchanged. -/
theorem execAll_of_notMem (h : WriteApart prog s R W) (is : List ι) (his : ∀ i ∈ is, s i)
    (hl : ∀ i ∈ is, l ∉ W i) : execAll prog is m l = m l := by
  induction is generalizing m with
  | nil => rfl
  | cons i is ih =>
    have hi := his i List.mem_cons_self
    calc execAll prog (i :: is) m l = (prog i).final m l :=
          ih (fun j hj => his j (List.mem_cons_of_mem _ hj))
            fun j hj => hl j (List.mem_cons_of_mem _ hj)
      _ = m l := by
          apply (prog i).final_of_notMem
          rw [(h.bounded i hi).writes]
          exact hl i List.mem_cons_self

/-- A program of the run leaves in its locations what it leaves there alone. -/
theorem execAll_of_mem (h : WriteApart prog s R W) (is : List ι) (his : ∀ i ∈ is, s i) {i : ι}
    (hi : i ∈ is) (hl : l ∈ W i) : execAll prog is m l = (prog i).final m l := by
  induction is using List.reverseRecOn with
  | nil => exact absurd hi List.not_mem_nil
  | append_singleton is j ih =>
    have hbefore : ∀ k ∈ is, s k := fun k hk => his k (List.mem_append_left _ hk)
    have hj : s j := his j (List.mem_append_right _ List.mem_cons_self)
    have hread : ∀ k ∈ ((prog j).footprint m).reads, execAll prog is m k = m k := by
      intro k hk
      refine h.execAll_of_notMem is hbefore fun i' hi' hw => ?_
      exact Set.disjoint_left.mp (h.frame i' j (hbefore i' hi') hj) hw ((h.bounded j hj).reads m hk)
    rw [execAll_snoc]
    by_cases hij : l ∈ W j
    · obtain rfl : i = j := by
        by_contra hne
        exact Set.disjoint_left.mp (h.own i j (his i hi) hj hne) hl hij
      exact (prog i).final_congr _ _ hread (by rwa [(h.bounded i hj).writes])
    · have hin : i ∈ is := by
        rcases List.mem_append.mp hi with hi | hi
        · exact hi
        · rw [List.mem_singleton.mp hi] at hl
          exact absurd hl hij
      rw [(prog j).final_of_notMem _ (by rwa [(h.bounded j hj).writes])]
      exact ih hbefore hin

/-- Runs of the same programs, in any order and any number of times, leave the same memory. -/
theorem execAll_congr (h : WriteApart prog s R W) {is js : List ι} (his : ∀ i ∈ is, s i)
    (hmem : ∀ i, i ∈ is ↔ i ∈ js) : execAll prog is m = execAll prog js m := by
  have hjs : ∀ j ∈ js, s j := fun j hj => his j ((hmem j).mpr hj)
  refine funext fun l => ?_
  by_cases hl : ∃ i ∈ is, l ∈ W i
  · obtain ⟨i, hi, hw⟩ := hl
    rw [h.execAll_of_mem is his hi hw, h.execAll_of_mem js hjs ((hmem i).mp hi) hw]
  · simp only [not_exists, not_and] at hl
    rw [h.execAll_of_notMem is his hl,
      h.execAll_of_notMem js hjs fun j hj => hl j ((hmem j).mpr hj)]

end WriteApart
end
