import Mathlib
import FastLlm.Model.PassExperts

/-!
# The graph of a pass in memory

The layers of a pass, its final norms and its head, from the memory the host leaves to the values of
`Pass.run`.

## Main definitions

* `triple_layer`, `triple_layers` — a layer, and all of them.
* `triple_wire` — the whole text of the builder.
-/

namespace FastLlm
open Assn Build
open TaskModel (Triple)

variable {S : Setting} {fs : UInt32 → UInt32} {m nPast : ℕ} {l rowsz : UInt32}

/-! ## Layers -/

theorem triple_ffn (h : S.Ready fs m nPast) (hl : l < S.D.hp.nLayer) {i : FfnIn} {xo : Cols}
    {v : ℕ → List Word} (hv : ∀ p < m, (v p).length = S.D.hp.nEmbd.toNat) :
    S.model.Triple
      (ffnFinds S l m i v + ∑ p ∈ Finset.range m, blank (xo.col p) S.D.hp.nEmbd.toNat S.μ)
      (ffn S.D l m rowsz i xo) fun r => ∑ p ∈ Finset.range m, ready [r p] (xo.col p)
        (Pass.ffn S.N S.D l.toNat (expertsAt S.D m p) (v p)) := by
  by_cases hdense : l < S.D.hp.nDenseLead
  · simp only [ffn, Pass.ffn, if_pos hdense, if_pos (UInt32.lt_iff_toNat_lt.mp hdense)]
    exact triple_ffnDense h hl hdense hv
  · simp only [ffn, Pass.ffn, if_neg hdense, if_neg (mt UInt32.lt_iff_toNat_lt.mpr hdense)]
    exact triple_ffnMoe h hl hdense hv

theorem length_attended {x : ℕ → List Word} {kv : KvCache} {k p : ℕ} :
    (Pass.attended S.N S.D m nPast k x kv p).length = S.D.hp.nEmbd.toNat := Pass.length_add2 ..

/-- **A layer.** -/
theorem triple_layer (h : S.Ready fs m nPast) (hl : l < S.D.hp.nLayer) {r : Residual}
    {s : (ℕ → List Word) × KvCache} (hx : ∀ p < m, (s.1 p).length = S.D.hp.nEmbd.toNat)
    (hkv : ∀ i, (s.2 l.toNat i).Fits S.D) :
    S.model.Triple
      (∑ p ∈ Finset.range m, ready (r.dep p).toList (r.x p) (s.1 p) +
        kvHeld S.D l (s.2 l.toNat))
      (layer S.D m rowsz r l) fun r' =>
        ∑ p ∈ Finset.range m, ready (r'.dep p).toList (r'.x p)
          ((Pass.layer S.N S.D m nPast l.toNat s).1 p) +
          kvStored S.D l ((Pass.layer S.N S.D m nPast l.toNat s).2 l.toNat) := by
  have hrows : (Pass.layer S.N S.D m nPast l.toNat s).2 l.toNat =
      Pass.appended S.N S.D m nPast l.toNat s.1 s.2 := Function.update_self ..
  rw [layer, hrows]
  refine (triple_attention h hl hx hkv).seq (K := 0) (by rw [add_zero, add_comm]) fun i => ?_
  rw [add_zero]
  refine (triple_bufAllocCols h.laid h.sized.embd h.few).seq (zero_add _).ge fun xo => ?_
  refine (triple_ffn h hl fun p _ => length_attended).seq
    (K := kvStored S.D l (Pass.appended S.N S.D m nPast l.toNat s.1 s.2)) (le_of_eq (by abel))
    fun tLo => .pure le_rfl

theorem layers_zero_length {N : Numerics} {D : Decoder} {x : ℕ → List Word} {kv : KvCache}
    (hx : ∀ p < m, (x p).length = D.hp.nEmbd.toNat) (k : ℕ) {p : ℕ} (hp : p < m) :
    ((Pass.layers N D m nPast x kv k).1 p).length = D.hp.nEmbd.toNat := by
  cases k with
  | zero => exact hx p hp
  | succ k =>
    change (Pass.ffn N D k _ _).length = _
    rw [Pass.ffn]
    split_ifs
    · exact Pass.length_wmerge ..
    · exact Pass.length_wmerge ..

theorem layers_cache_ge {N : Numerics} {D : Decoder} {x : ℕ → List Word} {kv : KvCache} {k j : ℕ}
    (h : k ≤ j) : (Pass.layers N D m nPast x kv k).2 j = kv j := by
  induction k with
  | zero => rfl
  | succ k ih =>
    change Function.update _ k _ j = _
    rw [Function.update_of_ne (by omega), ih (Nat.le_of_succ_le h)]

theorem layers_cache_lt {N : Numerics} {D : Decoder} {x : ℕ → List Word} {kv : KvCache} {k j : ℕ}
    (h : j < k) : (Pass.layers N D m nPast x kv k).2 j = (Pass.layers N D m nPast x kv (j + 1)).2 j := by
  induction k, h using Nat.le_induction with
  | base => rfl
  | succ k hk ih =>
    have hne : j ≠ k := Nat.ne_of_lt hk
    rw [← ih]
    change Function.update _ k _ j = _
    rw [Function.update_of_ne hne]

theorem toNat_layer {n : UInt32} {k : ℕ} (hk : k < n.toNat) :
    (UInt32.ofNat k).toNat = k ∧ UInt32.ofNat k < n := by
  have htoNat : (UInt32.ofNat k).toNat = k := UInt32.toNat_ofNat_of_lt' (hk.trans n.toNat_lt)
  exact ⟨htoNat, UInt32.lt_iff_toNat_lt.mpr (htoNat.trans_lt hk)⟩

/-- **The layers.** -/
theorem triple_layers (h : S.Ready fs m nPast) {x : ℕ → List Word} {kv : KvCache} {r : Residual}
    (hx : ∀ p < m, (x p).length = S.D.hp.nEmbd.toNat) (hkv : ∀ j i, (kv j i).Fits S.D) :
    S.model.Triple
      (∑ p ∈ Finset.range m, ready (r.dep p).toList (r.x p) (x p) +
        ∑ k ∈ Finset.range S.D.hp.nLayer.toNat, kvHeld S.D (.ofNat k) (kv k))
      ((List.range S.D.hp.nLayer.toNat).foldlM (fun r l => layer S.D m rowsz r (.ofNat l)) r)
      fun r' => ∑ p ∈ Finset.range m, ready (r'.dep p).toList (r'.x p)
          ((Pass.layers S.N S.D m nPast x kv S.D.hp.nLayer.toNat).1 p) +
        ∑ k ∈ Finset.range S.D.hp.nLayer.toNat, kvStored S.D (.ofNat k)
          ((Pass.layers S.N S.D m nPast x kv S.D.hp.nLayer.toNat).2 k) := by
  have hloop := Triple.foldlM_sum (M := S.model) (n := S.D.hp.nLayer.toNat)
    (f := fun r l => layer S.D m rowsz r (.ofNat l))
    (I := fun k (r : Residual) => ∑ p ∈ Finset.range m, ready (r.dep p).toList (r.x p)
      ((Pass.layers S.N S.D m nPast x kv k).1 p)) (P := fun k => kvHeld S.D (.ofNat k) (kv k))
    (Q := fun k => kvStored S.D (.ofNat k) ((Pass.layers S.N S.D m nPast x kv (k + 1)).2 k))
    (fun k hk r => ?_) r
  · refine hloop.post fun r' => add_le_add_right (le_of_eq (Finset.sum_congr rfl fun k hk => ?_)) _
    rw [layers_cache_lt (Finset.mem_range.mp hk)]
  · obtain ⟨htoNat, hlt⟩ := toNat_layer hk
    have hlayer : S.model.Triple _ (layer S.D m rowsz r (.ofNat k)) _ := triple_layer
      (s := Pass.layers S.N S.D m nPast x kv k) h hlt (fun p hp => layers_zero_length hx k hp)
      fun i => by
        rw [htoNat, layers_cache_ge le_rfl]
        exact hkv k i
    rw [htoNat, layers_cache_ge le_rfl] at hlayer
    exact hlayer

/-! ## The head -/

theorem triple_finalNorm (h : S.Ready fs m nPast) {r : Residual} {xF : Cols} {x : ℕ → List Word}
    (hx : ∀ p < m, (x p).length = S.D.hp.nEmbd.toNat) :
    S.model.Triple
      (∑ p ∈ Finset.range m, ready (r.dep p).toList (r.x p) (x p) +
        ∑ p ∈ Finset.range m, blank (xF.col p) S.D.hp.nEmbd.toNat S.μ)
      (finalNorm S.D m r xF) fun q => ∑ p ∈ Finset.range m, ready [q p] (xF.col p)
        (Pass.rmsNorm S.N S.D (Pass.weight S.D .outputNorm) (x p) S.D.hp.nEmbd.toNat) := by
  have hdep (p : ℕ) : (r.dep p).toList ⊆ [(r.dep p).getD noTask] := by
    cases r.dep p with
    | none => exact List.nil_subset _
    | some d => exact List.Subset.refl _
  exact (triple_norms h hx fun p _ => hdep p).post fun q => add_le_right _ _

/-- The logits of a position, where the head leaves them. -/
def logitsAt (y : Option Loc) (v : List Word) : Assn Loc Word :=
  match y with
  | none => 0
  | some x => stored x v

theorem triple_head (h : S.Ready fs m nPast) (hm : m ≠ 0) {rowsz : UInt32} {xF : Cols}
    {q : ℕ → ℕ} {v : ℕ → List Word} (hv : ∀ p < m, (v p).length = S.D.hp.nEmbd.toNat) :
    S.model.Triple (∑ p ∈ Finset.range m, ready [q p] (xF.col p) (v p)) (head S.D m rowsz xF q)
      fun r => ∑ p ∈ Finset.range m, ready [q p] (xF.col p) (v p) +
        ∑ p ∈ Finset.range m, logitsAt (r.1 p) (Pass.dot S.N (Pass.weight S.D .output)
          (Pass.weight S.D .output).p (v p)) := by
  have hfew := h.few
  have hvocab := h.sized.vocab
  rw [head]
  split_ifs with hmode
  · exact .pure (by simp [logitsAt])
  have hbatch : (UInt32.ofNat m).toNat = m :=
    UInt32.toNat_ofNat_of_lt' (by rw [UInt32.size]; omega)
  have hwords : (S.D.hp.nVocab * .ofNat m).toNat = m * S.D.hp.nVocab.toNat := by
    have hlt : S.D.hp.nVocab.toNat * m < 2 ^ 32 :=
      (Nat.mul_le_mul hvocab.le hfew).trans_lt (by decide)
    rw [UInt32.toNat_mul, hbatch, Nat.mod_eq_of_lt hlt, Nat.mul_comm]
  have hzeros (k : ℕ) : List.replicate (m * k) (0 : Word) =
      (List.range m).flatMap fun _ => List.replicate k 0 := by
    simp [List.flatMap_def]
  refine (triple_slotAlloc h.laid _).seq (zero_add _).ge fun lg => ?_
  rw [hwords, hzeros, idle_flatMap fun _ _ => List.length_replicate]
  refine triple_tensor fun w hw => ?_
  obtain ⟨w', hw', hload, hrows, hcols, -⟩ := h.consistent.output
  obtain rfl : w = w' := Option.some.inj (hw.symm.trans hw')
  have hcut : w.Cut rowsz := h.sized.cut hw hload (by rw [hrows]; exact hvocab)
    (by rw [hcols]; exact h.sized.embd)
  have hmem (p : ℕ) (hp : p < m) : [q p] ⊆ (List.range m).map q := by
    simpa using ⟨p, hp, rfl⟩
  refine (triple_addDotM (y := ⟨lg, S.D.hp.nVocab⟩) h.laid hm hcut
    (fun p hp => (hv p hp).trans (by rw [hcols])) hmem fun _ _ => List.nil_subset _).seq (K := 0)
    ?_ fun sig => .pure ?_
  · rw [add_zero, add_comm, hrows]
    exact le_rfl
  · rw [add_zero, Pass.weight, hw, Option.getD_some]
    exact add_le_add_right (Finset.sum_le_sum fun p _ => idle_le_ready.trans ready_le_stored) _

/-- The terminal. -/
theorem triple_terminal {α : Type} (a : α) (sigs : List ℕ) :
    S.model.Triple 0 (do
      let term ← add { kind := .SIGNAL, affinity := .CPU }
      sigs.forM fun d => edge d term
      pure a) fun b => fact (b = a) := by
  have hterm (s : Plan) : CmdProg.wp Plan.effect (do
      let term ← add { kind := .SIGNAL, affinity := .CPU }
      sigs.forM fun d => edge d term
      pure term) (fun id s' =>
        NewTask s s' { kind := .SIGNAL, affinity := .CPU } sigs id ∧ ∀ d ∈ sigs, d < id) s := by
    intro id hid
    change CmdProg.wp Plan.effect ((sigs.forM fun d => edge d id) >>= fun _ => pure id) _ _
    rw [CmdProg.wp_bind]
    exact effect_newTask (f := fun d => edge d id) hid fun d s1 hlt => ⟨hlt, rfl, rfl, rfl, rfl⟩
  have htask : S.model.Triple (0 + 0) _ fun _ => 0 + 0 :=
    triple_newTask hterm reads_zero owns_zero performs_pure
  rw [add_zero] at htask
  have h := htask.bind fun _ => .pure (M := S.model) (a := a) (Q := fun b => fact (b = a))
    ((le_fact_add rfl).trans_eq (add_zero _))
  simpa only [bind_assoc, pure_bind] using h

/-! ## The pass -/

/-- **The text of the builder**: its tasks turn the embeddings of the positions and the cache into
the final norms, the cache and the logits of `Pass.run`. -/
theorem triple_wire (h : S.Ready fs m nPast) (hm : m ≠ 0) {kv : KvCache}
    (hkv : ∀ j i, (kv j i).Fits S.D) :
    S.model.Triple (∑ k ∈ Finset.range S.D.hp.nLayer.toNat, kvHeld S.D (.ofNat k) (kv k))
      (wire S.D m) fun taps =>
        ∑ k ∈ Finset.range S.D.hp.nLayer.toNat, kvStored S.D (.ofNat k) ((Pass.run S.N S.D m nPast
          (fun p => (taps.xCur p).contents S.D.hp.nEmbd.toNat S.μ) kv).2 k) +
        ∑ p ∈ Finset.range m, stored (taps.xF.col p) ((Pass.run S.N S.D m nPast
          (fun p => (taps.xCur p).contents S.D.hp.nEmbd.toNat S.μ) kv).1 p) +
        ∑ p ∈ Finset.range m, logitsAt (taps.logits p) (Pass.dot S.N (Pass.weight S.D .output)
          (Pass.weight S.D .output).p ((Pass.run S.N S.D m nPast
            (fun p => (taps.xCur p).contents S.D.hp.nEmbd.toNat S.μ) kv).1 p)) := by
  set Kv := ∑ k ∈ Finset.range S.D.hp.nLayer.toNat, kvHeld S.D (.ofNat k) (kv k)
  have hcur : S.model.Triple (∑ p ∈ Finset.range m, (0 : Assn Loc Word) + 0)
      (positions m fun _ => bufAlloc S.D.hp.nEmbd) fun c =>
        ∑ p ∈ Finset.range m, ready [] (c p)
          ((c p).contents S.D.hp.nEmbd.toNat S.μ) + 0 := by
    refine triple_positions (Q := fun _ (c : Loc) =>
      ready [] c (c.contents S.D.hp.nEmbd.toNat S.μ)) fun p _ => ?_
    simp only [add_zero]
    exact (triple_bufAlloc h.laid h.sized.embd).post fun c =>
      (add_le_left _ _).trans idle_le_ready
  rw [Finset.sum_const_zero, add_zero] at hcur
  rw [wire]
  refine hcur.seq (zero_add _).ge fun xCur => ?_
  rw [add_zero]
  refine (triple_layers h (r := ⟨xCur, fun _ => none⟩) (fun p _ => Loc.length_contents) hkv).seq
    (K := 0) (add_zero _).ge fun r => ?_
  set x : ℕ → List Word := fun p => (xCur p).contents S.D.hp.nEmbd.toNat S.μ with hx
  set last := Pass.layers S.N S.D m nPast x kv S.D.hp.nLayer.toNat with hlast
  set X := ∑ p ∈ Finset.range m, ready (r.dep p).toList (r.x p) (last.1 p)
  set Kv' := ∑ k ∈ Finset.range S.D.hp.nLayer.toNat, kvStored S.D (.ofNat k) (last.2 k)
  rw [add_zero]
  refine (triple_bufAllocCols h.laid h.sized.embd h.few).seq (zero_add _).ge fun xF => ?_
  refine (triple_finalNorm (x := last.1) h fun p hp =>
    layers_zero_length (fun p _ => Loc.length_contents) _ hp).seq (K := Kv') (le_of_eq (by abel))
    fun q => ?_
  refine (triple_head (v := fun p => (Pass.run S.N S.D m nPast x kv).1 p) h hm
    fun p _ => Pass.length_rmsNorm ..).seq (K := Kv') le_rfl fun lg => ?_
  refine (triple_terminal (⟨xCur, lg.1, xF⟩ : Taps) lg.2).last (zero_add _).ge fun taps => ?_
  refine fact_add_le fun htaps => ?_
  subst htaps
  calc ∑ p ∈ Finset.range m, ready [q p] (xF.col p) ((Pass.run S.N S.D m nPast x kv).1 p) + _ + Kv'
      ≤ ∑ p ∈ Finset.range m, stored (xF.col p) ((Pass.run S.N S.D m nPast x kv).1 p) + _ + Kv' :=
        add_le_add_left (add_le_add_left (Finset.sum_le_sum fun p _ => ready_le_stored) _) _
    _ = _ := by
      rw [add_comm, ← add_assoc]
      rfl

end FastLlm
