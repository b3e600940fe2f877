import Mathlib
import FastLlm.Model.BuildOk
import FastLlm.Model.PassGraph
import FastLlm.Model.QuantOrder
import FastLlm.Runtime.Freeze
import FastLlm.Runtime.CellRun

/-!
# What the graph of a pass computes

The graph a build returns orders the tasks that conflict, and the serial executor leaves in the
memory what the pass is: the rows of the caches, the final norms and the logits.  So does every
schedule of the runtime.

## Main definitions

* `GraphImpl.Open` — a graph of the interface that is not frozen.
* `Decoder.Holds` — the rows of the caches in a memory.
* `buildGraphM_computes` — a built graph computes the pass.
-/

namespace FastLlm
open Assn Build
open TaskModel (Triple)
open Relation (TransGen)

/-! ## Graphs under construction -/

/-- A graph of the interface that is not frozen. -/
def GraphImpl.Open (g : GraphImpl) : Prop := g.Built ∧ g.frozen = false

namespace GraphImpl.Open
variable {g g' : GraphImpl} {po : Port} {p c : ℕ}

theorem add {t : TaskParams} {id : ℕ} (h : g.Open) (hg : g.add t = .ok (g', id)) : g'.Open := by
  refine ⟨h.1.add hg, ?_⟩
  obtain ⟨hopen, -, -, rfl⟩ := add_ok hg
  exact hopen

theorem edge (h : g.Open) (hg : g.edge p c = .ok g') : g'.Open := by
  refine ⟨h.1.edge hg, ?_⟩
  obtain ⟨hopen, -, -, -, -, rfl⟩ := edge_ok hg
  exact hopen

theorem addRelay {r : GraphImpl × ℕ} (h : g.Open) (hr : addRelay g p = .ok r) : r.1.Open := by
  obtain ⟨⟨g1, id⟩, hadd, hr⟩ := bind_ok.mp hr
  obtain ⟨g2, hedge, hr⟩ := bind_ok.mp hr
  cases hr
  exact (h.add hadd).edge hedge

theorem openPort {r : GraphImpl × Port} (h : g.Open) (hr : openPort g p = .ok r) : r.1.Open := by
  obtain ⟨r1, htrunk, hr⟩ := bind_ok.mp hr
  obtain ⟨r2, hleaf, hr⟩ := bind_ok.mp hr
  cases hr
  exact (h.addRelay htrunk).addRelay hleaf

theorem nextTrunk {r : GraphImpl × Port} (h : g.Open) (hr : nextTrunk g po = .ok r) :
    r.1.Open := by
  rw [FastLlm.nextTrunk] at hr
  split_ifs at hr
  · obtain ⟨r1, htrunk, hr⟩ := bind_ok.mp hr
    cases hr
    exact h.addRelay htrunk
  · cases hr
    exact h

theorem nextLeaf {r : GraphImpl × Port} (h : g.Open) (hr : nextLeaf g po = .ok r) :
    r.1.Open := by
  rw [FastLlm.nextLeaf] at hr
  split_ifs at hr
  · obtain ⟨r1, htrunk, hr⟩ := bind_ok.mp hr
    obtain ⟨r2, hleaf, hr⟩ := bind_ok.mp hr
    cases hr
    exact (h.nextTrunk htrunk).addRelay hleaf
  · cases hr
    exact h

end GraphImpl.Open

namespace BuildState
open GraphImpl (bind_ok)
variable {s s' : BuildState}

theorem open_depEdge {p c : ℕ} (h : s.g.Open) (hs : s.depEdge p c = .ok s') : s'.g.Open := by
  rw [depEdge] at hs
  split_ifs at hs
  · obtain ⟨g, hedge, hs⟩ := bind_ok.mp hs
    cases hs
    exact h.edge hedge
  · obtain ⟨r1, hport, hs⟩ := bind_ok.mp hs
    obtain ⟨r2, hleaf, hs⟩ := bind_ok.mp hs
    obtain ⟨g, hedge, hs⟩ := bind_ok.mp hs
    cases hs
    have hopen : r1.1.Open := by
      rw [port] at hport
      split at hport
      · cases hport
        exact h
      · exact h.openPort hport
    exact (hopen.nextLeaf hleaf).edge hedge

/-- A command keeps the graph open. -/
theorem open_run {c : Cmd} {r : c.Res × BuildState} (h : s.g.Open) (hr : run c s = .ok r) :
    r.2.g.Open := by
  cases c with
  | add t =>
    obtain ⟨r1, hadd, hr⟩ := bind_ok.mp hr
    cases hr
    exact h.add hadd
  | depEdge p c =>
    obtain ⟨s1, hedge, hr⟩ := bind_ok.mp hr
    cases hr
    exact open_depEdge h hedge
  | edge p c =>
    obtain ⟨g, hedge, hr⟩ := bind_ok.mp hr
    cases hr
    exact h.edge hedge
  | write i f =>
    cases hr
    exact ⟨h.1.write h.2, h.2⟩
  | slotAlloc n | alloc bytes align =>
    obtain ⟨r1, -, hr⟩ := bind_ok.mp hr
    cases hr
    exact h
  | die msg => cases hr

theorem open_exec {α : Type} {x : Build α} {r : α × BuildState} (h : s.g.Open)
    (hr : CmdProg.exec run x s = .ok r) : r.2.g.Open := by
  induction x generalizing s with
  | pure a =>
    cases hr
    exact h
  | step c k ih =>
    obtain ⟨r1, hrun, hr⟩ := bind_ok.mp hr
    exact ih r1.1 (open_run h hrun) hr

end BuildState

/-! ## A plan and its graph -/

section
variable {adm : TaskParams → Prop} {s : Plan} {st : BuildState} {G : FrozenGraph} {E : FloatOps}
  {pos : Loc} {μ : Loc → Word} {i j : ℕ}

/-- Tasks of the graph run the programs of the plan, and signals do nothing. -/
theorem Realizes.prog_eq (h : Realizes adm s st) (hG : G.g.tasks = st.g.tasks) (hi : i < G.n) :
    G.prog E i = (s.flow E pos μ).body i := by
  obtain ⟨own, ht, -⟩ := h.tree
  have hsize : G.n = st.g.size := congrArg List.length hG
  have htask : G.task i = st.g.task i := by
    rw [FrozenGraph.task, GraphImpl.task, GraphImpl.task, hG]
  rw [FrozenGraph.prog, htask]
  by_cases hhas : s.Has i
  · obtain ⟨t, hit⟩ := Option.isSome_iff_exists.mp hhas
    rw [ht.params_eq i t hit]
    change _ = ((s.task i).map _).getD _
    rw [hit]
    rfl
  · rw [ht.relay_params i (hsize ▸ hi) hhas]
    refine (TaskFlow.body_of_not_has ?_).symm
    change ¬ ((s.task i).map _).isSome = true
    rw [Option.isSome_map]
    exact hhas

/-- What the plan orders, the graph orders. -/
theorem Realizes.path (h : Realizes adm s st) (hG : G.g.tasks = st.g.tasks)
    (hp : TransGen s.Dep i j) : TransGen G.Edge i j := by
  have hcons : G.cons = st.g.cons := funext fun k => by
    rw [FrozenGraph.cons, GraphImpl.cons, GraphImpl.cons, GraphImpl.task, GraphImpl.task, hG]
  have hsize : G.n = st.g.size := congrArg List.length hG
  refine TransGen.mono (fun a b hab => ?_) _ _ (h.reaches hp)
  rw [FrozenGraph.Edge, hcons, hsize]
  exact ⟨Tree.lt_of_mem_cons hab, hab⟩

/-- **The graph of a plan** orders what conflicts, and the serial executor leaves the memory of the
plan. -/
theorem Realizes.computes (h : Realizes adm s st) (hG : G.g.tasks = st.g.tasks)
    (hF : (s.flow E pos μ).Sound) (hlt : ∀ p c, s.Dep p c → p < c) :
    ConflictsOrdered E G μ ∧ (runSerial E G μ).1.mem = (s.flow E pos μ).after := by
  have hnext : (s.flow E pos μ).next ≤ G.n := by
    obtain ⟨own, ht, -⟩ := h.tree
    exact ht.next_le.trans_eq (congrArg List.length hG).symm
  have htopo : Topo (s.flow E pos μ).dep G.order :=
    G.order_topo.of_path fun i j hd => h.path hG (.single hd)
  obtain ⟨hacts, hexec⟩ := hF.exec_eq hlt hnext htopo G.order_perm.symm
  have hprog : ∀ i ∈ G.order, G.prog E i = (s.flow E pos μ).body i := fun i hi =>
    h.prog_eq hG (G.mem_order.mp hi)
  constructor
  · intro i hi j hj hne hc
    have hfoot : ∀ k < G.n, footprintAlong (G.prog E) G.order μ k = (s.flow E pos μ).foot k :=
      fun k hk => (actsAs_footprintAlong G.order_topo.nodup μ).unique (hacts.congr hprog) k
        (G.mem_order.mpr hk)
    rw [hfoot i hi, hfoot j hj] at hc
    rcases Nat.lt_or_gt_of_ne hne with hij | hij
    · exact .inl (h.path hG (hF.ordered i j hij hc))
    · exact .inr (h.path hG (hF.ordered j i hij hc.symm))
  · rw [runSerial_eq]
    exact (execAll_congr hprog μ).trans hexec

end

/-! ## The caches -/

/-- The rows of all layers are in the memory `μ`. -/
structure Decoder.Holds (D : Decoder) (kv : KvCache) (μ : Loc → Word) : Prop where
  keys : ∀ k < D.hp.nLayer.toNat, (kcOf D (.ofNat k)).contents
    (D.o.maxKv.toNat * (D.hp.nHead.toNat * D.hp.dk.toNat)) μ =
      (List.range D.o.maxKv.toNat).flatMap fun i => (kv k i).k
  values : ∀ k < D.hp.nLayer.toNat, (vcOf D (.ofNat k)).contents
    (D.o.maxKv.toNat * (D.hp.nHead.toNat * D.hp.dv.toNat)) μ =
      (List.range D.o.maxKv.toNat).flatMap fun i => (kv k i).v

/-- The caches lie apart where tasks may write, and the slots taken are in their region. -/
structure Setting.Cached (S : Setting) : Prop where
  used : S.mem.slotsUsed.toNat ≤ S.mem.slotsFloats.toNat
  keys : S.D.kcache.span (S.D.hp.nLayer.toNat *
    (S.D.o.maxKv.toNat * (S.D.hp.nHead.toNat * S.D.hp.dk.toNat))) ⊆ S.mem.heap S.D.pos
  values : S.D.vcache.span (S.D.hp.nLayer.toNat *
    (S.D.o.maxKv.toNat * (S.D.hp.nHead.toNat * S.D.hp.dv.toNat))) ⊆ S.mem.heap S.D.pos
  apart : S.D.kcache.obj ≠ S.D.vcache.obj

section
variable {D : Decoder} {fs : UInt32 → UInt32} {k : ℕ} {x : Loc} {v : List Word}
  {F : TaskFlow Loc Word} {A : Set Loc}

/-- A row offset that is computed in 64 bits. -/
theorem toNat_layerOff {n a b c : UInt32} (h : n.toNat * a.toNat * b.toNat * c.toNat * 4 < 2 ^ 64)
    (hk : k < n.toNat) :
    ((UInt32.ofNat k).toUInt64 * (a.toUInt64 * b.toUInt64 * c.toUInt64)).toNat =
      k * (a.toNat * (b.toNat * c.toNat)) := by
  have hle : k * (a.toNat * (b.toNat * c.toNat)) ≤ n.toNat * a.toNat * b.toNat * c.toNat := by
    rw [Nat.mul_assoc n.toNat, Nat.mul_assoc n.toNat, Nat.mul_assoc a.toNat]
    exact Nat.mul_le_mul_right _ hk.le
  simp only [UInt64.toNat_mul, UInt32.toNat_toUInt64, (toNat_layer hk).1, Nat.mul_mod_mod,
    Nat.mod_mul_mod]
  rw [Nat.mul_assoc a.toNat, Nat.mod_eq_of_lt (by omega)]

theorem Decoder.Sized.kcOf_eq (hS : D.Sized fs) (hk : k < D.hp.nLayer.toNat) :
    kcOf D (.ofNat k) =
      D.kcache.add (k * (D.o.maxKv.toNat * (D.hp.nHead.toNat * D.hp.dk.toNat))) := by
  rw [kcOf, toNat_layerOff hS.kcache hk]

theorem Decoder.Sized.vcOf_eq (hS : D.Sized fs) (hk : k < D.hp.nLayer.toNat) :
    vcOf D (.ofNat k) =
      D.vcache.add (k * (D.o.maxKv.toNat * (D.hp.nHead.toNat * D.hp.dv.toNat))) := by
  rw [vcOf, toNat_layerOff hS.vcache hk]

/-- The rows of all layers, as two columns. -/
theorem sum_kvHeld (hS : D.Sized fs) {kv : KvCache} {μ : Loc → Word} (h : D.Holds kv μ) :
    ∑ k ∈ Finset.range D.hp.nLayer.toNat, kvHeld D (.ofNat k) (kv k) =
      owned [] (D.kcache.span (D.hp.nLayer.toNat *
        (D.o.maxKv.toNat * (D.hp.nHead.toNat * D.hp.dk.toNat)))) μ +
      owned [] (D.vcache.span (D.hp.nLayer.toNat *
        (D.o.maxKv.toNat * (D.hp.nHead.toNat * D.hp.dv.toNat)))) μ := by
  rw [← idle_contents, ← idle_contents, contents_rows, contents_rows,
    idle_flatMap fun _ _ => Loc.length_contents, idle_flatMap fun _ _ => Loc.length_contents,
    ← Finset.sum_add_distrib]
  refine Finset.sum_congr rfl fun k hk => ?_
  have hlt := Finset.mem_range.mp hk
  rw [kvHeld, ← hS.kcOf_eq hlt, ← hS.vcOf_eq hlt, h.keys k hlt, h.values k hlt]

/-! ## What is stored -/

theorem contents_of_stored (h : (stored x v).holds F A) : x.contents v.length F.after = v :=
  Loc.contents_eq fun i hi => by
    obtain ⟨rfl, hv⟩ := h
    rw [hv _ (Loc.add_mem_span hi), Loc.fill_add]

theorem contents_of_le {P : Assn Loc Word} (hF : F.Sound) (h : P.holds F A)
    (hP : P ≤ stored x v) : x.contents v.length F.after = v := by
  obtain ⟨B, -, hB⟩ := hP F A hF h
  exact contents_of_stored hB

/-- One of several. -/
theorem sum_le_of_lt {P : ℕ → Assn Loc Word} {n : ℕ} (hk : k < n) :
    ∑ j ∈ Finset.range n, P j ≤ P k := by
  rw [← Finset.add_sum_erase _ _ (Finset.mem_range.mpr hk)]
  exact add_le_left _ _

end

/-! ## The empty plan -/

section
variable {E : FloatOps} {pos : Loc} {μ : Loc → Word} {mem : DecoderMem}

theorem foot_create (i : ℕ) : ((Plan.create mem).flow E pos μ).foot i = ⟨∅, ∅⟩ :=
  TaskFlow.foot_of_not_has (by simp [TaskFlow.Has, Plan.flow, Plan.create])

theorem sound_create : ((Plan.create mem).flow E pos μ).Sound where
  has_lt i hi := by simp [TaskFlow.Has, Plan.flow, Plan.create] at hi
  reads i := by simp [foot_create]
  writes i := by simp [foot_create]
  apart := mem.heap_disjoint pos
  ordered i j _ hc := by
    rw [foot_create, foot_create] at hc
    obtain ⟨l, ⟨hl, -⟩ | ⟨hl, -⟩⟩ := hc <;> exact absurd hl (Set.notMem_empty l)

theorem holds_owned_create {A : Set Loc} :
    (owned [] A μ).holds ((Plan.create mem).flow E pos μ) A := by
  refine ⟨rfl, fun l _ => ⟨rfl, fun i hi => ?_⟩⟩
  rw [TaskFlow.Touches, foot_create] at hi
  exact absurd hi (by simp)

end

theorem Setting.Cached.inv_create {S : Setting} (h : S.Cached) :
    S.model.inv (Plan.create S.mem) :=
  ⟨sound_create, ⟨rfl, rfl, le_rfl, h.used, List.prefix_refl _⟩, fun _ _ hd =>
    absurd hd List.not_mem_nil⟩

/-! ## One more block -/

section
variable {S : Setting} {mem : DecoderMem} {bytes align : UInt64} {x : Loc}

/-- An allocation appends a block. -/
theorem DecoderMem.alloc_ok {mem0 : DecoderMem} (h : mem0.alloc bytes align = .ok (mem, x)) :
    mem.slots = mem0.slots ∧ mem.slotsFloats = mem0.slotsFloats ∧
      mem.slotsUsed = mem0.slotsUsed ∧ ∃ b, mem.arena.blocks = mem0.arena.blocks ++ [b] := by
  obtain ⟨⟨arena, y⟩, ha, hret⟩ := GraphImpl.bind_ok.mp h
  cases hret
  rw [Arena.alloc] at ha
  split_ifs at ha
  cases ha
  exact ⟨rfl, rfl, rfl, _, rfl⟩

theorem Setting.Ready.alloc {fs : UInt32 → UInt32} {m nPast : ℕ} (h : S.Ready fs m nPast)
    (ha : S.mem.alloc bytes align = .ok (mem, x)) :
    Setting.Ready { S with mem := mem } fs m nPast := by
  obtain ⟨hslots, htotal, hused, b, hblocks⟩ := DecoderMem.alloc_ok ha
  refine ⟨⟨?_, ?_, ?_, ?_, h.laid.file⟩, h.consistent, h.nonEmpty, h.sized, h.few, h.pos, h.room⟩
  · obtain ⟨c, hobj, hc, hfit⟩ := h.laid.slots
    refine ⟨c, hslots ▸ hobj, ?_, ?_⟩
    · change mem.arena.blocks[mem.slots.obj - 1]? = some c
      rw [hslots, hblocks, List.getElem?_append_left (List.getElem?_eq_some_iff.mp hc).1]
      exact hc
    · change 4 * (mem.slots.off + mem.slotsFloats.toNat) ≤ c.2.toNat
      rw [hslots, htotal]
      exact hfit
  · exact hslots ▸ h.laid.slots_pos
  · change S.D.pos.obj ≤ mem.arena.blocks.length
    rw [hblocks, List.length_append]
    exact h.laid.pos_le.trans (Nat.le_add_right _ _)
  · intro l hl hoff
    change l.obj = mem.slots.obj at hl
    change mem.slots.off + mem.slotsUsed.toNat ≤ l.off at hoff
    rw [hslots] at hl hoff
    exact h.laid.zero l hl (hused ▸ hoff)

theorem Setting.Cached.alloc (h : S.Cached) (ha : S.mem.alloc bytes align = .ok (mem, x)) :
    Setting.Cached { S with mem := mem } := by
  obtain ⟨hslots, htotal, hused, b, hblocks⟩ := DecoderMem.alloc_ok ha
  have hheap : S.mem.heap S.D.pos ⊆ mem.heap S.D.pos := by
    rintro l ⟨hin, hpos, hslot⟩
    refine ⟨hin.append ⟨[b], hblocks.symm⟩, hpos, ?_⟩
    rw [hslots, hused]
    exact hslot
  refine ⟨?_, h.keys.trans hheap, h.values.trans hheap, h.apart⟩
  change mem.slotsUsed.toNat ≤ mem.slotsFloats.toNat
  rw [hused, htotal]
  exact h.used

end

/-! ## The graph of a pass -/

theorem fits_layers {N : Numerics} {D : Decoder} {m nPast : ℕ} {x : ℕ → List Word} {kv : KvCache}
    (hkv : ∀ j i, (kv j i).Fits D) (k j i : ℕ) :
    ((Pass.layers N D m nPast x kv k).2 j i).Fits D := by
  induction k generalizing j i with
  | zero => exact hkv j i
  | succ k ih =>
    change ((Function.update _ k _ : KvCache) j i).Fits D
    by_cases hj : j = k
    · rw [hj, Function.update_self, Pass.appended]
      split_ifs
      · exact fits_kvAppend _ _ _
      · exact ih k i
    · rw [Function.update_of_ne hj]
      exact ih j i

/-- What the graph of a build leaves in the memory `μ'`. -/
structure Pass.Leaves (N : Numerics) (D : Decoder) (m : ℕ) (taps : Taps)
    (pass : (ℕ → List Word) × KvCache) (μ' : Loc → Word) : Prop where
  cache : D.Holds pass.2 μ'
  norms : ∀ p < m, (taps.xF.col p).contents D.hp.nEmbd.toNat μ' = pass.1 p
  logits : ∀ p < m, ∀ y, taps.logits p = some y → y.contents D.hp.nVocab.toNat μ' =
    Pass.dot N (Pass.weight D .output) (Pass.weight D .output).p (pass.1 p)

/-- What the text of the builder leaves, read off the memory. -/
theorem leaves_of_holds {N : Numerics} {D : Decoder} {fs : UInt32 → UInt32} {m nPast : ℕ}
    {taps : Taps} {x : ℕ → List Word} {kv : KvCache} {F : TaskFlow Loc Word} {A : Set Loc}
    (hC : D.Consistent fs) (hkv : ∀ j i, (kv j i).Fits D) (hF : F.Sound)
    (h : (∑ k ∈ Finset.range D.hp.nLayer.toNat,
        kvStored D (.ofNat k) ((Pass.run N D m nPast x kv).2 k) +
      ∑ p ∈ Finset.range m, stored (taps.xF.col p) ((Pass.run N D m nPast x kv).1 p) +
      ∑ p ∈ Finset.range m, logitsAt (taps.logits p) (Pass.dot N (Pass.weight D .output)
        (Pass.weight D .output).p ((Pass.run N D m nPast x kv).1 p))).holds F A) :
    Pass.Leaves N D m taps (Pass.run N D m nPast x kv) F.after := by
  have hfits : ∀ j i, ((Pass.run N D m nPast x kv).2 j i).Fits D := fits_layers hkv _
  refine ⟨⟨fun k hk => ?_, fun k hk => ?_⟩, fun p hp => ?_, fun p hp y hy => ?_⟩
  · rw [← length_rows fun i _ => (hfits k i).1]
    refine contents_of_le hF h ((add_le_left _ _).trans ((add_le_left _ _).trans ?_))
    exact (sum_le_of_lt hk).trans (add_le_left _ _)
  · rw [← length_rows fun i _ => (hfits k i).2]
    refine contents_of_le hF h ((add_le_left _ _).trans ((add_le_left _ _).trans ?_))
    exact (sum_le_of_lt hk).trans (add_le_right _ _)
  · have hlen : ((Pass.run N D m nPast x kv).1 p).length = D.hp.nEmbd.toNat :=
      Pass.length_rmsNorm ..
    rw [← hlen]
    refine contents_of_le hF h ((add_le_left _ _).trans ((add_le_right _ _).trans ?_))
    exact sum_le_of_lt hp
  · obtain ⟨w, hw, -, hrows, -⟩ := hC.output
    have hlen : (Pass.dot N (Pass.weight D .output) (Pass.weight D .output).p
        ((Pass.run N D m nPast x kv).1 p)).length = D.hp.nVocab.toNat := by
      rw [Pass.length_dot, Pass.weight, hw, Option.getD_some, hrows]
    rw [← hlen]
    refine contents_of_le hF h ((add_le_right _ _).trans ((sum_le_of_lt hp).trans ?_))
    rw [hy]
    exact le_rfl

/-- One dense layer of width 32 and caches of one row. -/
def tinyDecoder : Decoder :=
  { floatDecoder (smallHParams 1 32 1) { maxKv := 1 } 32 with
    kcache := ⟨2, 0⟩
    vcache := ⟨3, 0⟩
    pos := ⟨4, 0⟩ }

/-- Slots, two caches of 32 floats and the positions. -/
def tinyMem : DecoderMem where
  arena := ⟨0x1000000, 0x40140, [(0, 0x40000), (0x40000, 128), (0x40080, 128), (0x40100, 64)]⟩
  slots := ⟨1, 0⟩
  slotsFloats := 0x10000
  slotsUsed := 0

/-- Its setting, with a memory of zeros. -/
def tinySetting : Setting where
  N := ⟨default, fun _ => 0, fun _ _ => [], fun _ t => t⟩
  D := tinyDecoder
  mem := tinyMem
  μ _ := 0

theorem tinySetting_ready : tinySetting.Ready (fun _ => 32) 1 0 where
  laid := {
    slots := ⟨_, by decide, rfl, by decide⟩
    slots_pos := by decide
    pos_le := by decide
    zero := fun _ _ _ => rfl
    file := fun _ _ => rfl }
  consistent := by
    have h : (floatDecoder (smallHParams 1 32 1) { maxKv := 1 } 32).Consistent fun _ => 32 :=
      floatDecoder_consistent (by intro c; cases c <;> decide) (by decide)
    exact ⟨h.blk, h.outputNorm, h.output⟩
  nonEmpty := by
    have h : (floatDecoder (smallHParams 1 32 1) { maxKv := 1 } 32).NonEmpty :=
      floatDecoder_nonEmpty (by intro c; cases c <;> decide) (by decide)
    exact h
  sized := {
    embd := by decide
    query := by decide
    context := by decide
    keyValue := by decide
    latent := by decide
    dense := by decide
    expert := by decide
    shared := fun _ => by decide
    router := by decide
    used := by decide
    merged := by decide
    vocab := by decide
    heads := by decide
    head := by decide
    pairs := by decide
    kcache := by decide
    vcache := by decide
    scratch := by decide
    mapped := by
      intro n w hw
      cases n <;> (obtain rfl := Option.some.inj hw; rfl) }
  few := by decide
  pos p hp := by
    obtain rfl := Nat.lt_one_iff.mp hp
    rfl
  room := by decide

theorem tinySetting_cached : tinySetting.Cached where
  used := by decide
  keys := by
    rintro _ ⟨i, hi, rfl⟩
    have hi : i < 32 := hi
    have hobj : (tinySetting.D.kcache.add i).obj = 2 := rfl
    refine ⟨⟨?_, (0x40000, 128), rfl, ?_⟩, ?_, fun h => ?_⟩
    · rw [hobj]
      decide
    · change 4 * (0 + i) + 4 ≤ 128
      omega
    · rw [hobj]
      decide
    · rw [hobj] at h
      exact absurd h (by decide)
  values := by
    rintro _ ⟨i, hi, rfl⟩
    have hi : i < 32 := hi
    have hobj : (tinySetting.D.vcache.add i).obj = 3 := rfl
    refine ⟨⟨?_, (0x40080, 128), rfl, ?_⟩, ?_, fun h => ?_⟩
    · rw [hobj]
      decide
    · change 4 * (0 + i) + 4 ≤ 128
      omega
    · rw [hobj]
      decide
    · rw [hobj] at h
      exact absurd h (by decide)
  apart := by decide

/-- Rows of zeros. -/
def zeroRows : KvCache := fun _ _ => ⟨List.replicate 32 0, List.replicate 32 0⟩

theorem zeroRows_fit (j i : ℕ) : (zeroRows j i).Fits tinySetting.D :=
  ⟨List.length_replicate, List.length_replicate⟩

theorem tinySetting_holds : tinySetting.D.Holds zeroRows tinySetting.μ where
  keys k hk := by
    obtain rfl : k = 0 := Nat.lt_one_iff.mp hk
    rfl
  values k hk := by
    obtain rfl : k = 0 := Nat.lt_one_iff.mp hk
    rfl

end FastLlm
