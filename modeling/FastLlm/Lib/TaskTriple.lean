import Mathlib
import FastLlm.Lib.CmdProg
import FastLlm.Lib.TaskAssn

/-!
# Triples for programs that add tasks

A program over some commands moves between states that carry tasks.  A triple says that, from a
state with `P`, it ends with `Q`, that conflicting tasks are still ordered, and that its tasks touch
only what `P` speaks of and what was handed out on the way.  So whatever else was known stays known
(`Triple.frame`), and the triples of two pieces compose.

## Main definitions

* `TaskModel` — the commands, the states and their tasks.
* `TaskModel.Triple` — the triple, with its rules `bind`, `seq`, `frame`, `mapM_range`,
  `foldlM_range`.
-/

variable {C : Type} {R : C → Type} {S L V α β : Type} [DecidableEq L]

/-- Commands on states that carry tasks; `inv` is what holds of every state. -/
structure TaskModel (C : Type) (R : C → Type) (S L V : Type) [DecidableEq L] where
  spec : (c : C) → (R c → S → Prop) → S → Prop
  mono : CmdProg.SpecMono spec
  flow : S → TaskFlow L V
  inv : S → Prop
  sound : ∀ s, inv s → (flow s).Sound

namespace TaskModel
variable (M : TaskModel C R S L V)

/-- What was handed out between `s` and `s'`. -/
def fresh (s s' : S) : Set L := (M.flow s').heap \ (M.flow s).heap

/-- The tasks between `s` and `s'` keep within `A` and what was handed out. -/
structure Within (A : Set L) (s s' : S) : Prop where
  inv : M.inv s'
  cont : (M.flow s).Continues (M.flow s')
  touches : ∀ i, (M.flow s).next ≤ i → ∀ l, (M.flow s').Touches i l →
    l ∈ A ∪ M.fresh s s' ∪ (M.flow s).const

/-- From `P` the program `x` ends in `Q`, within what `P` speaks of. -/
def Triple (P : Assn L V) (x : CmdProg C R α) (Q : α → Assn L V) : Prop :=
  ∀ s A, M.inv s → A ⊆ (M.flow s).heap → P.holds (M.flow s) A →
    CmdProg.wp M.spec x (fun a s' => M.Within A s s' ∧
      ∃ B ⊆ A ∪ M.fresh s s', (Q a).holds (M.flow s') B) s

variable {M} {A : Set L} {s s' s'' : S}

/-! ## Pieces of a run -/

theorem Within.refl (hs : M.inv s) : M.Within A s s where
  inv := hs
  cont := .refl _
  touches i hi _ hl := absurd ((M.sound s hs).has_lt i hl.has) (Nat.not_lt.mpr hi)

theorem Within.mono {B : Set L} (h : M.Within A s s') (hAB : A ⊆ B) : M.Within B s s' :=
  { h with touches := fun i hi l hl =>
      Set.union_subset_union_left _ (Set.union_subset_union_left _ hAB) (h.touches i hi l hl) }

theorem fresh_sub : M.fresh s s' ⊆ (M.flow s').heap := Set.sdiff_subset

theorem Within.trans {B : Set L} (h : M.Within A s s') (h' : M.Within B s' s'')
    (hB : B ⊆ A ∪ M.fresh s s') : M.Within A s s'' := by
  have hold : A ∪ M.fresh s s' ⊆ A ∪ M.fresh s s'' :=
    Set.union_subset_union_right A fun l hl => ⟨h'.cont.heap_sub hl.1, hl.2⟩
  refine ⟨h'.inv, h.cont.trans h'.cont, fun i hi l hl => ?_⟩
  by_cases hlt : i < (M.flow s').next
  · rw [TaskFlow.Touches, h'.cont.foot_eq hlt] at hl
    exact Set.union_subset_union_left _ hold (h.touches i hi l hl)
  · rcases h'.touches i (Nat.not_lt.mp hlt) l hl with (hl | hl) | hl
    · exact .inl (hold (hB hl))
    · exact .inl (.inr ⟨hl.1, fun hs => hl.2 (h.cont.heap_sub hs)⟩)
    · exact .inr (h.cont.const_eq ▸ hl)

namespace Triple
variable {P P' Q0 K : Assn L V} {x : CmdProg C R α} {f : α → CmdProg C R β} {Q Q' : α → Assn L V}
  {T : β → Assn L V}

/-! ## Rules -/

theorem pure {a : α} (h : P ≤ Q a) : M.Triple P (Pure.pure a) Q := by
  intro s A hs _ hP
  obtain ⟨B, hB, hQ⟩ := h _ A (M.sound s hs) hP
  exact ⟨.refl hs, B, hB.trans Set.subset_union_left, hQ⟩

theorem pre (hP : P ≤ P') (h : M.Triple P' x Q) : M.Triple P x Q := by
  intro s A hs hA hP0
  obtain ⟨B, hB, hP1⟩ := hP _ A (M.sound s hs) hP0
  apply CmdProg.wp_mono M.mono (h s B hs (hB.trans hA) hP1)
  rintro a s' ⟨hw, C, hC, hQ⟩
  exact ⟨hw.mono hB, C, hC.trans (Set.union_subset_union_left _ hB), hQ⟩

theorem post (h : M.Triple P x Q) (hQ : ∀ a, Q a ≤ Q' a) : M.Triple P x Q' := by
  intro s A hs hA hP
  apply CmdProg.wp_mono M.mono (h s A hs hA hP)
  rintro a s' ⟨hw, B, hB, hQa⟩
  obtain ⟨C, hC, hQ'⟩ := hQ a _ B (M.sound s' hw.inv) hQa
  exact ⟨hw, C, hC.trans hB, hQ'⟩

theorem bind (h : M.Triple P x Q) (hf : ∀ a, M.Triple (Q a) (f a) T) :
    M.Triple P (x >>= f) T := by
  intro s A hs hA hP
  rw [CmdProg.wp_bind]
  apply CmdProg.wp_mono M.mono (h s A hs hA hP)
  rintro a s1 ⟨hw, B, hB, hQ⟩
  have hheap : B ⊆ (M.flow s1).heap :=
    hB.trans (Set.union_subset (hA.trans hw.cont.heap_sub) fresh_sub)
  apply CmdProg.wp_mono M.mono (hf a s1 B hw.inv hheap hQ)
  rintro b s2 ⟨hw2, D, hD, hT⟩
  refine ⟨hw.trans hw2 hB, D, hD.trans ?_, hT⟩
  rintro l (hl | hl)
  · exact (hB hl).imp_right fun hn => ⟨hw2.cont.heap_sub hn.1, hn.2⟩
  · exact .inr ⟨hl.1, fun hs => hl.2 (hw.cont.heap_sub hs)⟩

/-- What else is known stays known. -/
theorem frame (h : M.Triple P x Q) (K : Assn L V) :
    M.Triple (P + K) x fun a => Q a + K := by
  rintro s _ hs hAB ⟨A, B, hdisj, rfl, hP, hK⟩
  have hA : A ⊆ (M.flow s).heap := Set.subset_union_left.trans hAB
  have hB : B ⊆ (M.flow s).heap := Set.subset_union_right.trans hAB
  apply CmdProg.wp_mono M.mono (h s A hs hA hP)
  rintro a s' ⟨hw, C, hC, hQ⟩
  have hno : ∀ l ∈ B, l ∉ A ∪ M.fresh s s' := by
    rintro l hl (hlA | hlf)
    · exact Set.disjoint_left.mp hdisj hlA hl
    · exact hlf.2 (hB hl)
  refine ⟨hw.mono Set.subset_union_left, C ∪ B, ?_, C, B, ?_, rfl, hQ, ?_⟩
  · refine Set.union_subset (hC.trans ?_) (Set.subset_union_right.trans Set.subset_union_left)
    exact Set.union_subset_union_left _ Set.subset_union_left
  · rw [Set.disjoint_left]
    exact fun l hlC hlB => hno l hlB (hC hlC)
  · refine K.stable (M.sound s hs) hw.cont (fun i hi l hl ht => ?_) hK
    rcases hw.touches i hi l ht with hin | hconst
    · exact hno l hl hin
    · exact Set.disjoint_left.mp (M.sound s hs).apart (hB hl) hconst

/-- A piece, and the rest with what the piece left. -/
theorem seq (h : M.Triple P x Q) (hP : P' ≤ P + K) (hf : ∀ a, M.Triple (Q a + K) (f a) T) :
    M.Triple P' (x >>= f) T :=
  .pre hP ((h.frame K).bind hf)

/-- A piece at the end. -/
theorem last (h : M.Triple P x Q) (hP : P' ≤ P + K) (hQ : ∀ a, Q a + K ≤ Q' a) :
    M.Triple P' x Q' :=
  .pre hP ((h.frame K).post hQ)

theorem of_fact {φ : Prop} (h : φ → M.Triple P x Q) : M.Triple (Assn.fact φ + P) x Q := by
  intro s A hs hA hP
  obtain ⟨hφ, hP⟩ := Assn.holds_fact_add.mp hP
  exact h hφ s A hs hA hP

/-! ## Loops -/

/-- One more result. -/
theorem sum_getD_concat [Inhabited α] (Q : ℕ → α → Assn L V) {as : List α} {n : ℕ}
    (hlen : as.length = n) (a : α) :
    ∑ k ∈ Finset.range (n + 1), Q k ((as ++ [a]).getD k default) =
      ∑ k ∈ Finset.range n, Q k (as.getD k default) + Q n a := by
  have hlast : (as ++ [a]).getD n default = a := by
    rw [List.getD_append_right _ _ _ _ hlen.le, hlen, Nat.sub_self]
    rfl
  rw [Finset.sum_range_succ, hlast, Finset.sum_congr rfl fun k hk => by
    rw [List.getD_append _ _ _ _ (hlen.symm ▸ Finset.mem_range.mp hk)]]

/-- `for (k = 0; k < n; ++k)` with the results of the rounds. -/
theorem mapM_range [Inhabited α] {f : ℕ → CmdProg C R α} {n : ℕ} {P : ℕ → Assn L V}
    {Q : ℕ → α → Assn L V}
    (h : ∀ k < n, M.Triple (P k + K) (f k) fun a => Q k a + K) :
    M.Triple (∑ k ∈ Finset.range n, P k + K) ((List.range n).mapM f) fun as =>
      Assn.fact (as.length = n) +
        (∑ k ∈ Finset.range n, Q k (as.getD k default) + K) := by
  induction n with
  | zero => exact .pure (Assn.le_fact_add rfl)
  | succ n ih =>
    rw [List.range_succ, List.mapM_append, Finset.sum_range_succ]
    apply (ih fun k hk => h k (Nat.lt_succ_of_lt hk)).seq (K := P n)
      (by rw [add_right_comm])
    intro as
    rw [add_assoc]
    refine .of_fact fun hlen => ?_
    rw [List.mapM_cons, bind_assoc]
    apply (h n (Nat.lt_succ_self n)).seq (K := ∑ k ∈ Finset.range n, Q k (as.getD k default))
      (by rw [add_assoc, add_comm, add_comm K])
    intro a
    refine .pure ((Assn.le_fact_add ?_).trans' ?_)
    · rw [List.length_append, hlen]
      rfl
    · change _ ≤ ∑ k ∈ Finset.range (n + 1), Q k ((as ++ [a]).getD k default) + K
      rw [sum_getD_concat Q hlen, add_comm, ← add_assoc]

/-- A loop, and the rest with the results of all rounds. -/
theorem mapM_bind [Inhabited α] {f : ℕ → CmdProg C R α} {g : List α → CmdProg C R β} {n : ℕ}
    {P : ℕ → Assn L V} {Q : ℕ → α → Assn L V}
    (h : ∀ k < n, M.Triple (P k + K) (f k) fun a => Q k a + K)
    (hg : ∀ as : List α, as.length = n →
      M.Triple (∑ k ∈ Finset.range n, Q k (as.getD k default) + K) (g as) T) :
    M.Triple (∑ k ∈ Finset.range n, P k + K) ((List.range n).mapM f >>= g) T :=
  (mapM_range h).bind fun as => .of_fact (hg as)

/-- `for (k = 0; k < n; ++k)` with an accumulator. -/
theorem foldlM_range {f : α → ℕ → CmdProg C R α} {n : ℕ} {I : ℕ → α → Assn L V}
    (h : ∀ k < n, ∀ a, M.Triple (I k a) (f a k) (I (k + 1))) (a : α) :
    M.Triple (I 0 a) ((List.range n).foldlM f a) (I n) := by
  induction n with
  | zero => exact .pure le_rfl
  | succ n ih =>
    rw [List.range_succ, List.foldlM_append]
    apply (ih fun k hk => h k (Nat.lt_succ_of_lt hk)).bind
    intro b
    rw [List.foldlM_cons]
    exact (h n (Nat.lt_succ_self n) b).bind fun c => .pure le_rfl

/-- The same when a round turns `P k` into `Q k`. -/
theorem foldlM_sum {f : α → ℕ → CmdProg C R α} {n : ℕ} {I : ℕ → α → Assn L V}
    {P Q : ℕ → Assn L V}
    (h : ∀ k < n, ∀ a, M.Triple (I k a + P k) (f a k) fun b => I (k + 1) b + Q k) (a : α) :
    M.Triple (I 0 a + ∑ k ∈ Finset.range n, P k) ((List.range n).foldlM f a) fun b =>
      I n b + ∑ k ∈ Finset.range n, Q k := by
  induction n with
  | zero => exact .pure le_rfl
  | succ n ih =>
    rw [List.range_succ, List.foldlM_append, Finset.sum_range_succ, Finset.sum_range_succ]
    apply (ih fun k hk => h k (Nat.lt_succ_of_lt hk)).seq (K := P n) (by rw [add_assoc])
    intro b
    rw [List.foldlM_cons]
    apply (h n (Nat.lt_succ_self n) b).seq (K := ∑ k ∈ Finset.range n, Q k)
      (by rw [add_right_comm])
    exact fun c => .pure (by rw [add_assoc, add_comm (Q n)])

/-- `for (k = 0; k < n; ++k)` with an accumulator and the results of the rounds. -/
theorem foldlM_collect {σ τ : Type} [Inhabited α] {f : σ → ℕ → CmdProg C R (τ × α)} {g : τ → σ}
    {n : ℕ} {I : ℕ → σ → Assn L V} {P : ℕ → Assn L V} {Q : ℕ → α → Assn L V}
    (h : ∀ k < n, ∀ t, M.Triple (I k t + P k) (f t k) fun r => I (k + 1) (g r.1) + Q k r.2)
    (t : σ) :
    M.Triple (I 0 t + ∑ k ∈ Finset.range n, P k)
      ((List.range n).foldlM (fun (s : σ × List α) k => do
        let (t, a) ← f s.1 k
        Pure.pure (g t, s.2 ++ [a])) (t, [])) fun r =>
      I n r.1 + ∑ k ∈ Finset.range n, Q k (r.2.getD k default) := by
  suffices hlen : M.Triple (I 0 t + ∑ k ∈ Finset.range n, P k)
      ((List.range n).foldlM (fun (s : σ × List α) k => do
        let (t, a) ← f s.1 k
        Pure.pure (g t, s.2 ++ [a])) (t, [])) fun r => Assn.fact (r.2.length = n) +
      (I n r.1 + ∑ k ∈ Finset.range n, Q k (r.2.getD k default)) from
    hlen.post fun r => Assn.fact_add_le fun _ => le_rfl
  induction n with
  | zero => exact .pure (Assn.le_fact_add rfl)
  | succ n ih =>
    rw [List.range_succ, List.foldlM_append, Finset.sum_range_succ]
    apply (ih fun k hk => h k (Nat.lt_succ_of_lt hk)).seq (K := P n) (by rw [add_assoc])
    rintro ⟨t, as⟩
    rw [add_assoc]
    refine .of_fact fun hlen => ?_
    have hlen : as.length = n := hlen
    rw [List.foldlM_cons, bind_assoc]
    apply (h n (Nat.lt_succ_self n) t).seq (K := ∑ k ∈ Finset.range n, Q k (as.getD k default))
      (by rw [add_right_comm])
    rintro ⟨t', a⟩
    refine .pure ((Assn.le_fact_add ?_).trans' ?_)
    · rw [List.length_append, hlen]
      rfl
    · change _ ≤ I (n + 1) (g t') + ∑ k ∈ Finset.range (n + 1), Q k ((as ++ [a]).getD k default)
      rw [sum_getD_concat Q hlen, add_assoc, add_comm (Q n a)]

end Triple
end TaskModel
