import FastLlm.Lib.TopoOrder
import Mathlib.Algebra.BigOperators.Group.Finset.Basic
import Mathlib.Data.Fintype.EquivFin
import Mathlib.Algebra.Order.BigOperators.Group.Finset
import Mathlib.Tactic.Ring

/-!
# Kahn's algorithm with a stack

A graph on `0 .. n - 1` is given by the list of consumers of every node, with
repetitions for repeated edges, and by a counter of open edges into every node.
The loop pops a ready node, visits it and counts down its consumers.

## Main definitions

* `openEdges cons n S c` — the edges into `c` from nodes outside `S`.
* `kahn cons n dep visit st` — the loop, with a visitor threading a state.
* `kahnOrder` — the nodes in the order they are visited.
* `kahn_spec` — the loop ends, and its order is topological.
* `Acyclic` — no node reaches itself; `length_kahnOrder_iff` — the loop visits all
  nodes exactly then, and `Acyclic.exists_path_sink` — every node reaches a sink.
-/

section OpenEdges
variable (cons : ℕ → List ℕ) (n : ℕ)

/-- Node `c` consumes what node `p` produces. -/
def EdgeOf (p c : ℕ) : Prop := p < n ∧ c ∈ cons p

/-- The number of edges into `c` from nodes that are not in `S`. -/
def openEdges (S : List ℕ) (c : ℕ) : ℕ :=
  ∑ p ∈ (Finset.range n).filter (· ∉ S), (cons p).count c

variable {cons n} {S : List ℕ} {c i : ℕ}

/-- With no node finished, all edges into `c` are open. -/
theorem openEdges_nil : openEdges cons n [] c = ∑ p ∈ Finset.range n, (cons p).count c := by
  simp [openEdges]

/-- No open edge is left exactly when every producer is in `S`. -/
theorem openEdges_eq_zero :
    openEdges cons n S c = 0 ↔ ∀ p, EdgeOf cons n p c → p ∈ S := by
  simp only [openEdges, Finset.sum_eq_zero_iff, Finset.mem_filter, Finset.mem_range,
    List.count_eq_zero, EdgeOf]
  constructor
  · intro h p hp
    by_contra hS
    exact h p ⟨hp.1, hS⟩ hp.2
  · intro h p hp hc
    exact hp.2 (h p ⟨hp.1, hc⟩)

/-- A node that joins `S` closes its edges. -/
theorem openEdges_snoc (cons : ℕ → List ℕ) (hi : i < n) (hS : i ∉ S) :
    openEdges cons n (S ++ [i]) c + (cons i).count c = openEdges cons n S c := by
  have hmem : i ∈ (Finset.range n).filter (· ∉ S) := by simp [hi, hS]
  have herase : (Finset.range n).filter (· ∉ S ++ [i]) =
      ((Finset.range n).filter (· ∉ S)).erase i := by
    ext p
    simp only [Finset.mem_filter, Finset.mem_range, List.mem_append, List.mem_singleton,
      not_or, Finset.mem_erase]
    tauto
  rw [openEdges, herase, openEdges]
  exact Finset.sum_erase_add _ _ hmem

theorem openEdges_append (cons : ℕ → List ℕ) {l : List ℕ} (hnd : (S ++ l).Nodup) (hl : ∀ i ∈ l, i < n) :
    openEdges cons n (S ++ l) c + (l.flatMap cons).count c = openEdges cons n S c := by
  induction l generalizing S with
  | nil => simp
  | cons i l ih =>
      have hi : i ∉ S := fun h =>
        (List.nodup_append.mp hnd).2.2 i h i (List.mem_cons_self ..) rfl
      rw [List.append_cons] at hnd ⊢
      have h1 := ih hnd fun j hj => hl j (List.mem_cons_of_mem _ hj)
      have h2 := openEdges_snoc cons (c := c) (hl i (List.mem_cons_self ..)) hi
      rw [List.flatMap_cons, List.count_append]
      omega

end OpenEdges

section Loop
variable {σ : Type} (cons : ℕ → List ℕ)

/-- Count down every consumer; one that reaches zero is pushed. -/
def decAll : List ℕ → (ℕ → ℤ) → List ℕ → (ℕ → ℤ) × List ℕ
  | [], deps, ready => (deps, ready)
  | c :: cs, deps, ready =>
      decAll cs (Function.update deps c (deps c - 1))
        (if deps c - 1 = 0 then c :: ready else ready)

/-- The loop `while (!ready.empty())`, the top of the stack first.  It returns the
visitor's state and the stack it stopped with. -/
def kahnLoop (visit : σ → ℕ → σ) : ℕ → (ℕ → ℤ) → List ℕ → σ → σ × List ℕ
  | 0, _, ready, st => (st, ready)
  | _ + 1, _, [], st => (st, [])
  | fuel + 1, deps, i :: ready, st =>
      let r := decAll (cons i) deps ready
      kahnLoop visit fuel r.1 r.2 (visit st i)

/-- The nodes without open edges, the last one on top of the stack. -/
def roots (n : ℕ) (dep : ℕ → ℤ) : List ℕ := ((List.range n).filter (dep · = 0)).reverse

/-- The whole algorithm on `n` nodes with counters `dep`. -/
def kahn (n : ℕ) (dep : ℕ → ℤ) (visit : σ → ℕ → σ) (st : σ) : σ × List ℕ :=
  kahnLoop cons visit n dep (roots n dep) st

/-- The nodes in the order of their visits. -/
def kahnOrder (n : ℕ) (dep : ℕ → ℤ) : List ℕ :=
  (kahn cons n dep (fun out i => out ++ [i]) []).1

variable {cons}

theorem decAll_fst (cs : List ℕ) (deps : ℕ → ℤ) (ready : List ℕ) (c : ℕ) :
    (decAll cs deps ready).1 c = deps c - cs.count c := by
  induction cs generalizing deps ready with
  | nil => simp [decAll]
  | cons a cs ih =>
      rw [decAll, ih, List.count_cons]
      by_cases h : a = c
      · subst h
        simp only [Function.update_self, beq_self_eq_true, if_true]
        push_cast
        ring
      · rw [Function.update_of_ne (Ne.symm h)]
        simp [h]

/-- The pushed nodes are those whose last open edges were closed, each once. -/
theorem decAll_snd (cs : List ℕ) (deps : ℕ → ℤ) (ready : List ℕ)
    (hle : ∀ c, (cs.count c : ℤ) ≤ deps c) :
    ∃ new, (decAll cs deps ready).2 = new ++ ready ∧ new.Nodup ∧
      ∀ c, c ∈ new ↔ c ∈ cs ∧ deps c = cs.count c := by
  induction cs generalizing deps ready with
  | nil => exact ⟨[], by simp [decAll]⟩
  | cons a cs ih =>
      have hcount : ∀ c, ((a :: cs).count c : ℤ) = cs.count c + if a = c then 1 else 0 := by
        intro c
        by_cases h : a = c <;> simp [h]
      have ha := hle a
      rw [hcount, if_pos rfl] at ha
      obtain ⟨new, hnew, hnd, hmem⟩ := ih (Function.update deps a (deps a - 1))
        (if deps a - 1 = 0 then a :: ready else ready) (by
          intro c
          by_cases h : c = a
          · subst h; rw [Function.update_self]; omega
          · have := hle c
            rw [hcount, if_neg (Ne.symm h)] at this
            rw [Function.update_of_ne h]
            omega)
      by_cases hz : deps a - 1 = 0
      · have ha0 : a ∉ cs := by
          rw [← List.count_eq_zero]
          omega
        refine ⟨new ++ [a], ?_, ?_, fun c => ?_⟩
        · rw [decAll, hnew, if_pos hz]
          simp
        · refine List.nodup_append.mpr ⟨hnd, List.nodup_singleton a, fun x hx y hy => ?_⟩
          obtain rfl : y = a := by simpa using hy
          exact fun he => ha0 (he ▸ ((hmem x).mp hx).1)
        · rw [List.mem_append, hmem, List.mem_singleton, hcount, List.mem_cons]
          by_cases hc : c = a
          · subst hc
            have := List.count_eq_zero.mpr ha0
            simp [ha0, this]
            omega
          · rw [Function.update_of_ne hc]
            simp [hc, Ne.symm hc]
      · refine ⟨new, by rw [decAll, hnew, if_neg hz], hnd, fun c => ?_⟩
        rw [hmem, hcount, List.mem_cons]
        by_cases hc : c = a
        · subst hc
          simp only [Function.update_self, true_or, true_and, if_true]
          constructor
          · rintro ⟨-, h⟩; omega
          · intro h
            have hpos : 0 < cs.count c := by omega
            exact ⟨List.count_pos_iff.mp hpos, by omega⟩
        · rw [Function.update_of_ne hc]
          simp [hc, Ne.symm hc]

/-- Only the visitor looks at its state, so any visitor sees the same order. -/
theorem kahnLoop_eq (cons : ℕ → List ℕ) (visit : σ → ℕ → σ) (fuel : ℕ) (deps : ℕ → ℤ) (ready out : List ℕ) (st : σ) :
    kahnLoop cons visit fuel deps ready (out.foldl visit st) =
      let r := kahnLoop cons (fun out i => out ++ [i]) fuel deps ready out
      (r.1.foldl visit st, r.2) := by
  induction fuel generalizing deps ready out with
  | zero => rfl
  | succ fuel ih =>
      cases ready with
      | nil => rfl
      | cons i ready =>
          have := ih (decAll (cons i) deps ready).1 (decAll (cons i) deps ready).2 (out ++ [i])
          simpa [kahnLoop] using this

/-- The visitor's result is a fold over the order. -/
theorem kahn_fst (cons : ℕ → List ℕ) (n : ℕ) (dep : ℕ → ℤ) (visit : σ → ℕ → σ) (st : σ) :
    (kahn cons n dep visit st).1 = (kahnOrder cons n dep).foldl visit st := by
  have := kahnLoop_eq cons visit n dep (roots n dep) [] st
  rw [List.foldl_nil] at this
  rw [kahn, this]
  rfl

/-- What holds whenever the loop tests its condition: `out` has been visited. -/
structure KahnInv (cons : ℕ → List ℕ) (n : ℕ) (deps : ℕ → ℤ) (ready out : List ℕ) : Prop where
  nodup : (ready ++ out).Nodup
  lt : ∀ i ∈ ready ++ out, i < n
  counted : ∀ c, deps c = openEdges cons n out c
  zero_iff : ∀ c < n, c ∈ ready ++ out ↔ deps c = 0
  topo : Topo (EdgeOf cons n) out

theorem KahnInv.init {n : ℕ} {dep : ℕ → ℤ} (hdep : ∀ c, dep c = openEdges cons n [] c) :
    KahnInv cons n dep (roots n dep) [] where
  nodup := by simpa [roots] using List.Nodup.filter _ List.nodup_range
  lt := by
    intro i hi
    simp only [roots, List.append_nil, List.mem_reverse, List.mem_filter, List.mem_range] at hi
    exact hi.1
  counted := hdep
  zero_iff := by intro c hc; simp [roots, hc]
  topo := .nil

/-- The step lemma: popping `i` visits a node all of whose producers are visited. -/
theorem KahnInv.pop {n : ℕ} {deps : ℕ → ℤ} {ready out : List ℕ} {i : ℕ}
    (hcons : ∀ p < n, ∀ c ∈ cons p, c < n) (h : KahnInv cons n deps (i :: ready) out) :
    KahnInv cons n (decAll (cons i) deps ready).1 (decAll (cons i) deps ready).2 (out ++ [i]) := by
  have hi : i < n := h.lt i (by simp)
  have hiout : i ∉ out := by
    have := h.nodup
    simp only [List.cons_append, List.nodup_cons, List.mem_append, not_or] at this
    exact this.1.2
  have hsnoc : ∀ c, openEdges cons n (out ++ [i]) c + (cons i).count c = openEdges cons n out c :=
    fun c => openEdges_snoc cons hi hiout
  have hfst : ∀ c, (decAll (cons i) deps ready).1 c = openEdges cons n (out ++ [i]) c := by
    intro c
    rw [decAll_fst, h.counted c, ← hsnoc c]
    push_cast
    ring
  obtain ⟨new, hnew, hnd, hmem⟩ := decAll_snd (cons i) deps ready fun c => by
    rw [h.counted c, ← hsnoc c]; push_cast; omega
  have hdz : ∀ c ∈ i :: ready ++ out, deps c = 0 := fun c hc => (h.zero_iff c (h.lt c hc)).mp hc
  have hdisj : ∀ c ∈ new, c ∉ i :: ready ++ out := fun c hc hc' => by
    obtain ⟨hci, hcd⟩ := (hmem c).mp hc
    have hpos := List.count_pos_iff.mpr hci
    have := hdz c hc'
    omega
  have hperm : (new ++ (i :: ready ++ out)).Perm (new ++ ready ++ (out ++ [i])) := by
    rw [List.append_assoc]
    refine List.Perm.append_left new ?_
    rw [← List.append_assoc]
    exact (List.perm_append_singleton i (ready ++ out)).symm
  have hnd' : (new ++ (i :: ready ++ out)).Nodup :=
    List.nodup_append.mpr ⟨hnd, h.nodup, fun a ha b hb he => hdisj a ha (he ▸ hb)⟩
  rw [hnew]
  refine ⟨hperm.nodup_iff.mp hnd', fun c hc => ?_, hfst, fun c hc => ?_, ?_⟩
  · rcases List.mem_append.mp (hperm.mem_iff.mpr hc) with hc | hc
    · exact hcons i hi c ((hmem c).mp hc).1
    · exact h.lt c hc
  · rw [← hperm.mem_iff, List.mem_append, hmem, h.zero_iff c hc, decAll_fst, h.counted c]
    have hle : (cons i).count c ≤ openEdges cons n out c := by have := hsnoc c; omega
    constructor
    · rintro (⟨-, h1⟩ | h1) <;> omega
    · intro h1
      by_cases hz : openEdges cons n out c = 0
      · exact .inr (by omega)
      · refine .inl ⟨?_, by omega⟩
        exact List.count_pos_iff.mp (by omega)
  · refine h.topo.snoc hiout (openEdges_eq_zero.mp ?_)
    have := hdz i (by simp)
    rw [h.counted i] at this
    exact_mod_cast this

/-- The run lemma. -/
theorem KahnInv.loop {n fuel : ℕ} {deps : ℕ → ℤ} {ready out : List ℕ}
    (hcons : ∀ p < n, ∀ c ∈ cons p, c < n) (h : KahnInv cons n deps ready out)
    (hfuel : n ≤ fuel + out.length) :
    let r := kahnLoop cons (fun out i => out ++ [i]) fuel deps ready out
    r.2 = [] ∧ ∃ deps', KahnInv cons n deps' [] r.1 := by
  induction fuel generalizing deps ready out with
  | zero =>
      have hlen : (ready ++ out).length ≤ n := by
        have hsub : (ready ++ out).Subperm (List.range n) :=
          h.nodup.subperm fun i hi => List.mem_range.mpr (h.lt i hi)
        simpa using hsub.length_le
      have hr : ready = [] := by
        rw [List.length_append] at hlen
        exact List.length_eq_zero_iff.mp (by omega)
      subst hr
      exact ⟨rfl, deps, h⟩
  | succ fuel ih =>
      cases ready with
      | nil => exact ⟨rfl, deps, h⟩
      | cons i ready =>
          exact ih (h.pop hcons) (by rw [List.length_append]; simp only [List.length_singleton]; omega)

/-- When the loop ends nothing is ready and its order has been visited. -/
theorem kahnInv_kahnOrder {n : ℕ} {dep : ℕ → ℤ} (hcons : ∀ p < n, ∀ c ∈ cons p, c < n)
    (hdep : ∀ c, dep c = openEdges cons n [] c) (visit : σ → ℕ → σ) (st : σ) :
    (kahn cons n dep visit st).2 = [] ∧
      ∃ deps, KahnInv cons n deps [] (kahnOrder cons n dep) := by
  obtain ⟨hend, hinv⟩ := (KahnInv.init hdep).loop hcons (show n ≤ n + [].length by simp)
  refine ⟨?_, hinv⟩
  have heq := kahnLoop_eq cons visit n dep (roots n dep) [] st
  rw [List.foldl_nil] at heq
  rw [kahn, heq]
  exact hend

/-- **Kahn's algorithm.**  On a graph whose counters are the in-degrees the loop runs
until no node is ready, and visits nodes in a topological order. -/
theorem kahn_spec {n : ℕ} {dep : ℕ → ℤ} (hcons : ∀ p < n, ∀ c ∈ cons p, c < n)
    (hdep : ∀ c, dep c = openEdges cons n [] c) (visit : σ → ℕ → σ) (st : σ) :
    (kahn cons n dep visit st).2 = [] ∧ Topo (EdgeOf cons n) (kahnOrder cons n dep) ∧
      ∀ i ∈ kahnOrder cons n dep, i < n := by
  obtain ⟨hend, deps, hinv⟩ := kahnInv_kahnOrder hcons hdep visit st
  exact ⟨hend, hinv.topo, fun i hi => hinv.lt i hi⟩

/-- An order that visits as many nodes as there are visits each of them once. -/
theorem kahnOrder_perm {n : ℕ} {dep : ℕ → ℤ} (hcons : ∀ p < n, ∀ c ∈ cons p, c < n)
    (hdep : ∀ c, dep c = openEdges cons n [] c) (hlen : (kahnOrder cons n dep).length = n) :
    (kahnOrder cons n dep).Perm (List.range n) := by
  obtain ⟨-, htopo, hlt⟩ := kahn_spec hcons hdep (fun (u : Unit) _ => u) ()
  refine (htopo.nodup.subperm fun i hi => List.mem_range.mpr (hlt i hi)).perm_of_length_le ?_
  simp [hlen]

/-! ## Acyclic graphs -/

open Relation

/-- No node reaches itself. -/
def Acyclic (cons : ℕ → List ℕ) (n : ℕ) : Prop := ∀ i, ¬ TransGen (EdgeOf cons n) i i

/-- What holds of a node once it holds of its producers holds of every node. -/
theorem Acyclic.induction {n : ℕ} (h : Acyclic cons n) {P : ℕ → Prop}
    (hstep : ∀ c < n, (∀ p, EdgeOf cons n p c → P p) → P c) : ∀ c < n, P c := by
  let r (a b : Fin n) : Prop := TransGen (EdgeOf cons n) a b
  have htrans : IsTrans (Fin n) r := ⟨fun _ _ _ hab hbc => hab.trans hbc⟩
  have hirr : Std.Irrefl r := ⟨fun a => h a⟩
  have hwf : WellFounded r := Finite.wellFounded_of_trans_of_irrefl r
  have hall (c : Fin n) : P c := by
    induction c using hwf.induction with
    | _ c ih => exact hstep c c.isLt fun p hp => ih ⟨p, hp.1⟩ (.single hp)
  exact fun c hc => hall ⟨c, hc⟩

/-- What holds of a node once it holds of its consumers holds of every node. -/
theorem Acyclic.coinduction {n : ℕ} (h : Acyclic cons n) {P : ℕ → Prop}
    (hcons : ∀ p < n, ∀ c ∈ cons p, c < n)
    (hstep : ∀ p < n, (∀ c ∈ cons p, P c) → P p) : ∀ p < n, P p := by
  let r (a b : Fin n) : Prop := TransGen (EdgeOf cons n) b a
  have htrans : IsTrans (Fin n) r := ⟨fun _ _ _ hab hbc => hbc.trans hab⟩
  have hirr : Std.Irrefl r := ⟨fun a => h a⟩
  have hwf : WellFounded r := Finite.wellFounded_of_trans_of_irrefl r
  have hall (p : Fin n) : P p := by
    induction p using hwf.induction with
    | _ p ih =>
      exact hstep p p.isLt fun c hc => ih ⟨c, hcons p p.isLt c hc⟩ (.single ⟨p.isLt, hc⟩)
  exact fun p hp => hall ⟨p, hp⟩

/-- The order visits every node exactly when there is no cycle. -/
theorem length_kahnOrder_iff {n : ℕ} {dep : ℕ → ℤ} (hcons : ∀ p < n, ∀ c ∈ cons p, c < n)
    (hdep : ∀ c, dep c = openEdges cons n [] c) :
    (kahnOrder cons n dep).length = n ↔ Acyclic cons n := by
  obtain ⟨-, deps, hinv⟩ := kahnInv_kahnOrder hcons hdep (fun (u : Unit) _ => u) ()
  constructor
  · intro hlen i hpath
    obtain ⟨c, hic, -⟩ := TransGen.head'_iff.mp hpath
    have hi : i ∈ kahnOrder cons n dep :=
      (kahnOrder_perm hcons hdep hlen).mem_iff.mpr (List.mem_range.mpr hic.1)
    exact hinv.topo.not_path_self hi hpath
  · intro hac
    -- a node whose producers are all visited has no open edge, so it is visited
    have hall : ∀ c < n, c ∈ kahnOrder cons n dep := by
      refine hac.induction (P := fun c => c ∈ kahnOrder cons n dep) fun c hc hpred => ?_
      have hopen : openEdges cons n (kahnOrder cons n dep) c = 0 := openEdges_eq_zero.mpr hpred
      have hzero : deps c = 0 := by rw [hinv.counted c, hopen, Nat.cast_zero]
      simpa using (hinv.zero_iff c hc).mpr hzero
    have hnd : (kahnOrder cons n dep).Nodup := by simpa using hinv.nodup
    have hperm : (kahnOrder cons n dep).Perm (List.range n) := by
      apply (List.perm_ext_iff_of_nodup hnd List.nodup_range).mpr
      intro i
      rw [List.mem_range]
      exact ⟨fun hi => hinv.lt i hi, hall i⟩
    rw [hperm.length_eq, List.length_range]

/-- Every node reaches a node without consumers. -/
theorem Acyclic.exists_path_sink {n : ℕ} (h : Acyclic cons n)
    (hcons : ∀ p < n, ∀ c ∈ cons p, c < n) :
    ∀ p < n, ∃ s < n, cons s = [] ∧ ReflTransGen (EdgeOf cons n) p s := by
  refine h.coinduction (P := fun p => ∃ s < n, cons s = [] ∧ ReflTransGen (EdgeOf cons n) p s)
    hcons fun p hp ih => ?_
  cases hc : cons p with
  | nil => exact ⟨p, hp, hc, .refl⟩
  | cons c cs =>
    have hmem : c ∈ cons p := by simp [hc]
    obtain ⟨s, hs, hsink, hpath⟩ := ih c hmem
    exact ⟨s, hs, hsink, hpath.head ⟨hp, hmem⟩⟩

end Loop
