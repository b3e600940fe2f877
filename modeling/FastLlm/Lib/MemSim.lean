import FastLlm.Lib.MemProg
import Mathlib.Data.Set.Image
import Mathlib.Data.Set.Lattice

/-!
# A program at other places

A program is written with places of its own for its buffers, and run with the buffers where `f` puts
them.  Run from memories that agree on the places in `A`, the two do the same: they return the same,
and what is in `A` or was written agrees again.  What the program reads without having written it
has to be in `A`; what else is in the memory does not matter.

## Main definitions

* `MemProg.Sim f T A W p q` — `p` does at the places `f` what `q` does; it touches `T` at most and
  writes within `W`.
* `Sim.bind`, `Sim.loop`, `Sim.forRange` — the rules.
-/

namespace MemProg
variable {L L' V α β : Type} [DecidableEq L] [DecidableEq L']

/-- From memories that agree on `A`, `p` does at the places `f` what `q` does. -/
structure Sim (f : L → L') (T A W : Set L) (p : MemProg L' V α) (q : MemProg L V α) : Prop where
  val_eq : ∀ (m' : L' → V) (m : L → V), (∀ l ∈ A, m' (f l) = m l) → p.val m' = q.val m
  reads : ∀ (m' : L' → V) (m : L → V), (∀ l ∈ A, m' (f l) = m l) →
    (p.footprint m').reads ⊆ f '' T
  writes : ∀ (m' : L' → V) (m : L → V), (∀ l ∈ A, m' (f l) = m l) →
    (p.footprint m').writes ⊆ f '' W
  writes_own : ∀ (m' : L' → V) (m : L → V), (∀ l ∈ A, m' (f l) = m l) →
    (q.footprint m).writes ⊆ W
  final_eq : ∀ (m' : L' → V) (m : L → V), (∀ l ∈ A, m' (f l) = m l) →
    ∀ l ∈ A ∪ W, p.final m' (f l) = q.final m l

namespace Sim
variable {f : L → L'} {T U A A' W W' X : Set L} {p : MemProg L' V α} {q : MemProg L V α}

protected theorem pure (a : α) : Sim f T A ∅ (.pure a : MemProg L' V α) (.pure a : MemProg L V α) where
  val_eq _ _ _ := rfl
  reads _ _ _ := Set.empty_subset _
  writes _ _ _ := Set.empty_subset _
  writes_own _ _ _ := Set.empty_subset _
  final_eq m' m hm l hl := hm l (by simpa using hl)

theorem get {l : L} {l' : L'} (hf : f l = l') (hl : l ∈ A) (hT : A ⊆ T) :
    Sim f T A ∅ (get l' : MemProg L' V V) (get l) where
  val_eq m' m hm := by
    rw [val_get, val_get, ← hf, hm l hl]
  reads m' m _ := by
    rintro _ (rfl | h)
    · exact ⟨l, hT hl, hf⟩
    · exact absurd h (Set.notMem_empty _)
  writes _ _ _ := Set.empty_subset _
  writes_own _ _ _ := Set.empty_subset _
  final_eq m' m hm k hk := hm k (by simpa using hk)

/-- Different cells of which one is written have different places. -/
theorem put {l : L} {l' : L'} (hf : f l = l') (hinj : ∀ k ∈ A, f k = f l → k = l) (v : V) :
    Sim f T A {l} (put l' v) (put l v) where
  val_eq _ _ _ := rfl
  reads _ _ _ := Set.empty_subset _
  writes _ _ _ := by
    rintro _ (rfl | h)
    · exact ⟨l, Set.mem_singleton l, hf⟩
    · exact absurd h (Set.notMem_empty _)
  writes_own _ _ _ := by
    rintro _ (rfl | h)
    · exact Set.mem_singleton _
    · exact absurd h (Set.notMem_empty _)
  final_eq m' m hm k hk := by
    rw [final_put, final_put, ← hf]
    by_cases hkl : k = l
    · rw [hkl, Function.update_self, Function.update_self]
    · have hkA : k ∈ A := hk.resolve_right hkl
      rw [Function.update_of_ne hkl, Function.update_of_ne fun h => hkl (hinj k hkA h), hm k hkA]

theorem bind {k' : α → MemProg L' V β} {k : α → MemProg L V β} (h : Sim f T A W p q)
    (hk : ∀ a, Sim f T (A ∪ W) X (k' a) (k a)) : Sim f T A (W ∪ X) (p.bind k') (q.bind k) where
  val_eq m' m hm := by
    rw [val_bind, val_bind, h.val_eq m' m hm]
    exact (hk _).val_eq _ _ (h.final_eq m' m hm)
  reads m' m hm := by
    rw [footprint_bind]
    refine Set.union_subset (h.reads m' m hm) ?_
    rw [h.val_eq m' m hm]
    exact (hk _).reads _ _ (h.final_eq m' m hm)
  writes m' m hm := by
    rw [footprint_bind, Set.image_union]
    refine Set.union_subset_union (h.writes m' m hm) ?_
    rw [h.val_eq m' m hm]
    exact (hk _).writes _ _ (h.final_eq m' m hm)
  writes_own m' m hm := by
    rw [footprint_bind]
    exact Set.union_subset_union (h.writes_own m' m hm)
      ((hk _).writes_own _ _ (h.final_eq m' m hm))
  final_eq m' m hm l hl := by
    rw [final_bind, final_bind, h.val_eq m' m hm]
    exact (hk _).final_eq _ _ (h.final_eq m' m hm) l (by rwa [Set.union_assoc])

/-- With more known, and what is known counted as written. -/
theorem mono (h : Sim f T A W p q) (hA : A ⊆ A') (hW : W ⊆ W') (hW' : W' ⊆ A' ∪ W)
    (hinj : ∀ w ∈ W, ∀ k ∈ A', f k = f w → k = w) : Sim f T A' W' p q where
  val_eq m' m hm := h.val_eq m' m fun l hl => hm l (hA hl)
  reads m' m hm := h.reads m' m fun l hl => hm l (hA hl)
  writes m' m hm := (h.writes m' m fun l hl => hm l (hA hl)).trans (Set.image_mono hW)
  writes_own m' m hm := (h.writes_own m' m fun l hl => hm l (hA hl)).trans hW
  final_eq m' m hm l hl := by
    have hm0 : ∀ l ∈ A, m' (f l) = m l := fun l hl => hm l (hA hl)
    by_cases hw : l ∈ W
    · exact h.final_eq m' m hm0 l (.inr hw)
    · have hlA : l ∈ A' := hl.elim id fun hl => (hW' hl).resolve_right hw
      rw [q.final_of_notMem m fun hq => hw (h.writes_own m' m hm0 hq),
        p.final_of_notMem m' fun hp => ?_, hm l hlA]
      obtain ⟨w, hwW, hwl⟩ := h.writes m' m hm0 hp
      exact hw (hinj w hwW l hlA hwl.symm ▸ hwW)

/-- A loop whose rounds know what the rounds before them wrote. -/
theorem loop {g' : ℕ → α → MemProg L' V α} {g : ℕ → α → MemProg L V α} {W : ℕ → Set L} {n : ℕ}
    (h : ∀ i < n, ∀ a, Sim f T (A ∪ {l | ∃ j < i, l ∈ W j}) (W i) (g' i a) (g i a)) (a : α) :
    Sim f T A {l | ∃ i < n, l ∈ W i} (loop g' n a) (loop g n a) := by
  induction n with
  | zero =>
    have hnone : {l | ∃ i < 0, l ∈ W i} = (∅ : Set L) := by simp
    rw [hnone]
    exact .pure a
  | succ n ih =>
    have hsplit : {l | ∃ i < n + 1, l ∈ W i} = {l | ∃ i < n, l ∈ W i} ∪ W n := by
      ext l
      simp only [Set.mem_ofPred_eq, Set.mem_union, Nat.lt_succ_iff_lt_or_eq]
      constructor
      · rintro ⟨i, hi | rfl, hl⟩
        · exact .inl ⟨i, hi, hl⟩
        · exact .inr hl
      · rintro (⟨i, hi, hl⟩ | hl)
        · exact ⟨i, .inl hi, hl⟩
        · exact ⟨n, .inr rfl, hl⟩
    rw [hsplit]
    exact (ih fun i hi => h i (Nat.lt_succ_of_lt hi)).bind (h n (Nat.lt_succ_self n))

theorem forRange {g' : ℕ → MemProg L' V Unit} {g : ℕ → MemProg L V Unit} {W : ℕ → Set L} {n : ℕ}
    (h : ∀ i < n, Sim f T (A ∪ {l | ∃ j < i, l ∈ W j}) (W i) (g' i) (g i)) :
    Sim f T A {l | ∃ i < n, l ∈ W i} (forRange n g') (forRange n g) :=
  loop (fun i hi _ => h i hi) ()

/-! ## Rules for programs whose rounds need no more than what is known at the start -/

/-- A first part that writes nothing. -/
theorem bind_reads {k' : α → MemProg L' V β} {k : α → MemProg L V β} (h : Sim f T A ∅ p q)
    (hk : ∀ a, Sim f T A W (k' a) (k a)) : Sim f T A W (p.bind k') (q.bind k) := by
  have hbind := h.bind (X := W) fun a => by simpa using hk a
  simpa using hbind

theorem loop_reads {g' : ℕ → α → MemProg L' V α} {g : ℕ → α → MemProg L V α} {n : ℕ}
    (h : ∀ i < n, ∀ a, Sim f T A ∅ (g' i a) (g i a)) (a : α) :
    Sim f T A ∅ (MemProg.loop g' n a) (MemProg.loop g n a) := by
  have hnone (i : ℕ) : {l | ∃ j < i, l ∈ (fun _ : ℕ => (∅ : Set L)) j} = ∅ := by simp
  have hloop : Sim f T A {l | ∃ i < n, l ∈ (fun _ : ℕ => (∅ : Set L)) i}
      (MemProg.loop g' n a) (MemProg.loop g n a) :=
    loop (fun i hi b => by simpa [hnone] using h i hi b) a
  rwa [hnone] at hloop

end Sim

/-- `f` keeps the written cells apart from all others. -/
structure Places (f : L → L') (T A U : Set L) : Prop where
  known : A ⊆ T
  out : U ⊆ T
  inj : ∀ w ∈ U, ∀ k ∈ T, f k = f w → k = w

namespace Places
variable {f : L → L'} {T A U : Set L}

omit [DecidableEq L] [DecidableEq L'] in
theorem mono {A' : Set L} (h : Places f T A U) (hA : A' ⊆ A) : Places f T A' U :=
  { h with known := hA.trans h.known }

omit [DecidableEq L] [DecidableEq L'] in
/-- What was written is known. -/
theorem write (h : Places f T A U) {W : Set L} (hW : W ⊆ U) : Places f T (A ∪ W) U :=
  { h with known := Set.union_subset h.known (hW.trans h.out) }

theorem put (h : Places f T A U) {l : L} {l' : L'} (hf : f l = l') (hl : l ∈ U) (v : V) :
    Sim f T A {l} (put l' v) (put l v) :=
  .put hf (fun k hk hkl => h.inj l hl k (h.known hk) hkl) v

theorem sim_mono {p : MemProg L' V α} {q : MemProg L V α} {A' W W' : Set L}
    (h : Places f T A U) (hs : Sim f T A' W p q) (hA : A' ⊆ A) (hWU : W ⊆ U) (hW : W ⊆ W')
    (hW' : W' ⊆ A ∪ W) : Sim f T A W' p q :=
  hs.mono hA hW hW' fun w hw k hk hkw => h.inj w (hWU hw) k (h.known hk) hkw

/-- Rounds that need no more than what is known at the start. -/
theorem loop {g' : ℕ → α → MemProg L' V α} {g : ℕ → α → MemProg L V α} {W : ℕ → Set L} {n : ℕ}
    (h : Places f T A U) (hW : ∀ i < n, W i ⊆ U)
    (hg : ∀ i < n, ∀ a, Sim f T A (W i) (g' i a) (g i a)) (a : α) :
    Sim f T A {l | ∃ i < n, l ∈ W i} (MemProg.loop g' n a) (MemProg.loop g n a) := by
  refine .loop (fun i hi b => ?_) a
  have hsub : {l | ∃ j < i, l ∈ W j} ⊆ U := by
    rintro l ⟨j, hj, hl⟩
    exact hW j (hj.trans hi) hl
  exact (h.write hsub).sim_mono (hg i hi b) Set.subset_union_left (hW i hi) subset_rfl
    Set.subset_union_right

theorem forRange {g' : ℕ → MemProg L' V Unit} {g : ℕ → MemProg L V Unit} {W : ℕ → Set L} {n : ℕ}
    (h : Places f T A U) (hW : ∀ i < n, W i ⊆ U) (hg : ∀ i < n, Sim f T A (W i) (g' i) (g i)) :
    Sim f T A {l | ∃ i < n, l ∈ W i} (MemProg.forRange n g') (MemProg.forRange n g) :=
  h.loop hW (fun i hi _ => hg i hi) ()

end Places
end MemProg
