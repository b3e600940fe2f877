import FastLlm.Model.Shapes
import FastLlm.Runtime.CpuExec

/-!
# The spans a tile touches

Buffers and slots are sized by the hyper-parameters, the tiles of a dot by its tensor.  Here the
builder runs with pointers that know their allocation: in place of the object a pointer carries the
number of floats allocated, and its offset counts from the start of the allocation.  A tile then
tells by itself whether it reads and writes inside the allocations its pointers come from.

The tiles of a pass are inside exactly when every tensor fits the widths that the
hyper-parameters give its name (`tiles_inside_iff`).

## Main definitions

* `BuildState.runFat` — the commands with such pointers.
* `TaskParams.Inside` — a tile reads and writes inside the allocations.
* `Lay` — what a piece of the builder adds, as far as tiles are concerned.
* `Decoder.Fits` — the tensors fit the widths.
-/

namespace FastLlm

/-! ## Bounded pointers -/

/-- The bytes of an activation that a tile may read: the floats, and for a quantized matrix also the
appendices behind them. -/
def actBytes (f : Fmt) (cols : ℕ) : ℕ := if f = .F32 then 4 * cols else xAllocBytes cols

/-- The pointer has `bytes` bytes in front of it in its allocation. -/
def Loc.Holds (l : Loc) (bytes : ℕ) : Prop := 4 * l.off + bytes ≤ 4 * l.obj

instance (l : Loc) (bytes : ℕ) : Decidable (l.Holds bytes) := by unfold Loc.Holds; infer_instance

namespace TaskParams

def IsDot (t : TaskParams) : Prop := t.kind = .STREAM_DOT ∨ t.kind = .STREAM_DOT_IDX

instance (t : TaskParams) : Decidable t.IsDot := by unfold IsDot; infer_instance

/-- The tile reads its activations and writes its outputs inside the allocations. -/
def Inside (t : TaskParams) : Prop :=
  ∀ q < t.columns, (t.inCol q).Holds (actBytes t.fmt t.cols) ∧ (t.out q 0).Holds (4 * t.rows)

instance (t : TaskParams) : Decidable t.Inside := by unfold Inside; infer_instance

end TaskParams

/-- The commands with pointers that carry the size of their allocation. -/
def BuildState.runFat : (c : Cmd) → BuildState → Except String (c.Res × BuildState)
  | .slotAlloc n, s => do
      let (mem, _) ← s.mem.slotAlloc n
      pure (⟨n.toNat, 0⟩, { s with mem := mem })
  | .alloc bytes align, s => do
      let (mem, _) ← s.mem.alloc bytes align
      pure (⟨bytes.toNat / 4, 0⟩, { s with mem := mem })
  | c, s => s.run c

/-! ## Parameters of tasks -/

/-- The task table without ids and edges. -/
def GraphImpl.params (g : GraphImpl) : List TaskParams := g.tasks.map Task.toTaskParams

namespace GraphImpl
variable {g g' : GraphImpl}

theorem length_params (g : GraphImpl) : g.params.length = g.size := by
  rw [params, List.length_map, size]

theorem params_add {t : TaskParams} {id : ℕ} (h : g.add t = .ok (g', id)) :
    g'.params = g.params ++ [t] ∧ id = g.params.length := by
  obtain ⟨-, -, rfl, rfl⟩ := add_ok h
  exact ⟨by simp [params], g.length_params.symm⟩

theorem params_edge {p c : ℕ} (h : g.edge p c = .ok g') : g'.params = g.params := by
  obtain ⟨-, -, -, -, -, rfl⟩ := edge_ok h
  apply List.ext_getElem
  · simp [params]
  · intro i _ _
    simp only [params, List.getElem_map, List.getElem_modify]
    split_ifs <;> rfl

theorem params_write (i : ℕ) (f : TaskParams → TaskParams) :
    (g.write i f).params = g.params.modify i f := by
  apply List.ext_getElem
  · simp [params, write]
  · intro j _ _
    simp only [params, write, List.getElem_map, List.getElem_modify]
    split_ifs <;> rfl

end GraphImpl

/-- The table grows by signals. -/
def Signals (g g' : GraphImpl) : Prop := ∃ n, g'.params = g.params ++ List.replicate n rawSignal

namespace Signals
variable {g g' g'' : GraphImpl}

theorem refl (g : GraphImpl) : Signals g g := ⟨0, by simp⟩

theorem trans (h : Signals g g') (h' : Signals g' g'') : Signals g g'' := by
  obtain ⟨n, hn⟩ := h
  obtain ⟨k, hk⟩ := h'
  exact ⟨n + k, by rw [hk, hn, List.append_assoc, List.replicate_append_replicate]⟩

theorem edge {p c : ℕ} (h : g.edge p c = .ok g') : Signals g g' :=
  ⟨0, by rw [GraphImpl.params_edge h]; simp⟩

theorem addRelay {q id : ℕ} (h : addRelay g q = .ok (g', id)) : Signals g g' := by
  obtain ⟨⟨g1, id1⟩, h1, h⟩ := GraphImpl.bind_ok.mp h
  obtain ⟨g2, h2, h⟩ := GraphImpl.bind_ok.mp h
  cases h
  exact Signals.trans ⟨1, (GraphImpl.params_add h1).1⟩ (edge h2)

theorem openPort {p : ℕ} {po : Port} (h : openPort g p = .ok (g', po)) : Signals g g' := by
  obtain ⟨⟨g1, trunk⟩, h1, h⟩ := GraphImpl.bind_ok.mp h
  obtain ⟨⟨g2, leaf⟩, h2, h⟩ := GraphImpl.bind_ok.mp h
  cases h
  exact (addRelay h1).trans (addRelay h2)

theorem nextTrunk {po po' : Port} (h : nextTrunk g po = .ok (g', po')) : Signals g g' := by
  rw [FastLlm.nextTrunk] at h
  split_ifs at h
  · obtain ⟨⟨g1, nt⟩, h1, h⟩ := GraphImpl.bind_ok.mp h
    cases h
    exact addRelay h1
  · cases h
    exact refl g

theorem nextLeaf {po po' : Port} (h : nextLeaf g po = .ok (g', po')) : Signals g g' := by
  rw [FastLlm.nextLeaf] at h
  split_ifs at h
  · obtain ⟨⟨g1, po1⟩, h1, h⟩ := GraphImpl.bind_ok.mp h
    obtain ⟨⟨g2, leaf⟩, h2, h⟩ := GraphImpl.bind_ok.mp h
    cases h
    exact (nextTrunk h1).trans (addRelay h2)
  · cases h
    exact refl g

theorem port {s : BuildState} {p : ℕ} {po : Port} (h : s.port p = .ok (g', po)) :
    Signals s.g g' := by
  rw [BuildState.port] at h
  cases hp : s.ports p with
  | some po1 =>
    rw [hp] at h
    cases h
    exact refl s.g
  | none =>
    rw [hp] at h
    exact openPort h

theorem depEdge {s s' : BuildState} {p c : ℕ} (h : s.depEdge p c = .ok s') :
    Signals s.g s'.g := by
  rw [BuildState.depEdge] at h
  split_ifs at h
  · obtain ⟨g1, h1, h⟩ := GraphImpl.bind_ok.mp h
    cases h
    exact edge h1
  · obtain ⟨⟨g1, po1⟩, h1, h⟩ := GraphImpl.bind_ok.mp h
    obtain ⟨⟨g2, po2⟩, h2, h⟩ := GraphImpl.bind_ok.mp h
    obtain ⟨g3, h3, h⟩ := GraphImpl.bind_ok.mp h
    cases h
    exact (port h1).trans ((nextLeaf h2).trans (edge h3))

end Signals

/-! ## What a piece of the builder adds -/

/-- Between two states tasks were added, and the tiles among them are inside iff `c`. -/
def Lays (c : Prop) (s s' : BuildState) : Prop :=
  ∃ ts, s'.g.params = s.g.params ++ ts ∧ ((∀ t ∈ ts, t.IsDot → t.Inside) ↔ c)

theorem Lays.trans {c d : Prop} {s s1 s2 : BuildState} (h : Lays c s s1) (h' : Lays d s1 s2) :
    Lays (c ∧ d) s s2 := by
  obtain ⟨ts, hts, hc⟩ := h
  obtain ⟨us, hus, hd⟩ := h'
  refine ⟨ts ++ us, by rw [hus, hts, List.append_assoc], ?_⟩
  rw [← hc, ← hd]
  exact List.forall_mem_append

theorem Signals.lays {s s' : BuildState} (h : Signals s.g s'.g) : Lays True s s' := by
  obtain ⟨n, hn⟩ := h
  refine ⟨_, hn, iff_true_intro ?_⟩
  intro t ht hdot
  rw [List.eq_of_mem_replicate ht] at hdot
  rcases hdot with h | h <;> cases h

/-- A run of the piece that returns adds tasks, the tiles among them are inside iff `c`, and its
result is in `V`. -/
def Lay {α : Type} (x : Build α) (V : α → Prop) (c : Prop) : Prop :=
  ∀ s a s', CmdProg.exec BuildState.runFat x s = .ok (a, s') → V a ∧ Lays c s s'

namespace Lay
variable {α β : Type} {x : Build α} {f : α → Build β} {V : α → Prop} {W : β → Prop} {c d : Prop}

theorem pure {a : α} (h : V a) : Lay (Pure.pure a : Build α) V True := by
  intro s a' s' hrun
  cases hrun
  exact ⟨h, (Signals.refl s.g).lays⟩

theorem bind (hx : Lay x V c) (hf : ∀ a, V a → Lay (f a) W d) : Lay (x >>= f) W (c ∧ d) := by
  intro s b s2 hrun
  rw [CmdProg.exec_bind] at hrun
  obtain ⟨⟨a, s1⟩, h1, h2⟩ := GraphImpl.bind_ok.mp hrun
  obtain ⟨ha, hc⟩ := hx s a s1 h1
  obtain ⟨hb, hd⟩ := hf a ha s1 b s2 h2
  exact ⟨hb, hc.trans hd⟩

theorem congr (h : Lay x V c) (hcd : c ↔ d) : Lay x V d := by
  rw [← propext hcd]
  exact h

theorem imp {V' : α → Prop} (h : Lay x V c) (hV : ∀ a, V a → V' a) : Lay x V' c :=
  fun s a s' hrun => ⟨hV a (h s a s' hrun).1, (h s a s' hrun).2⟩

/-- A piece without tiles in front. -/
theorem skip (hx : Lay x V True) (hf : ∀ a, V a → Lay (f a) W d) : Lay (x >>= f) W d :=
  (hx.bind hf).congr (and_iff_right trivial)

/-- A piece without tiles behind. -/
theorem last (hx : Lay x V c) (hf : ∀ a, V a → Lay (f a) W True) : Lay (x >>= f) W c :=
  (hx.bind hf).congr (and_iff_left trivial)

theorem mapM_range {n : ℕ} {f : ℕ → Build α} {c : ℕ → Prop}
    (h : ∀ k < n, Lay (f k) V (c k)) :
    Lay ((List.range n).mapM f) (fun _ => True) (∀ k < n, c k) := by
  induction n with
  | zero => exact (pure trivial).congr (iff_of_true trivial fun k hk => absurd hk (Nat.not_lt_zero k))
  | succ n ih =>
    rw [List.range_succ, List.mapM_append]
    have hall : (∀ k < n, c k) ∧ c n ↔ ∀ k < n + 1, c k := Nat.forall_lt_succ_right.symm
    apply congr _ hall
    apply (ih fun k hk => h k (Nat.lt_succ_of_lt hk)).bind
    intro as _
    have hone : Lay ([n].mapM f) (fun _ => True) (c n) := by
      rw [List.mapM_cons]
      apply last (h n (Nat.lt_succ_self n))
      intro a _
      exact skip (pure trivial : Lay _ (fun _ => True) True) fun _ _ => pure trivial
    exact last hone fun _ _ => pure trivial

theorem foldlM_range {n : ℕ} {f : α → ℕ → Build α} {a : α} {c : ℕ → Prop} (ha : V a)
    (h : ∀ a, V a → ∀ k < n, Lay (f a k) V (c k)) :
    Lay ((List.range n).foldlM f a) V (∀ k < n, c k) := by
  induction n with
  | zero => exact (pure ha).congr (iff_of_true trivial fun k hk => absurd hk (Nat.not_lt_zero k))
  | succ n ih =>
    rw [List.range_succ, List.foldlM_append]
    have hall : (∀ k < n, c k) ∧ c n ↔ ∀ k < n + 1, c k := Nat.forall_lt_succ_right.symm
    apply congr _ hall
    apply (ih fun a ha k hk => h a ha k (Nat.lt_succ_of_lt hk)).bind
    intro a1 ha1
    rw [List.foldlM_cons]
    exact last (h a1 ha1 n (Nat.lt_succ_self n)) fun a2 ha2 => pure ha2

theorem forM {ι : Type} {l : List ι} {f : ι → Build PUnit}
    (h : ∀ i ∈ l, Lay (f i) (fun _ => True) True) : Lay (l.forM f) (fun _ => True) True := by
  induction l with
  | nil => exact pure trivial
  | cons i l ih =>
    change Lay (f i >>= fun _ => l.forM f) _ _
    exact skip (h i List.mem_cons_self) fun _ _ => ih fun j hj => h j (List.mem_cons_of_mem i hj)

end Lay
open Build

section
variable {α : Type} {W : α → Prop}

theorem lay_add (t : TaskParams) : Lay (add t) (fun _ => True) (t.IsDot → t.Inside) := by
  intro s a s' hrun
  obtain ⟨⟨a1, s1⟩, h1, h2⟩ := GraphImpl.bind_ok.mp hrun
  cases h2
  obtain ⟨⟨g, id⟩, h, h1⟩ := GraphImpl.bind_ok.mp h1
  cases h1
  exact ⟨trivial, [t], (GraphImpl.params_add h).1, List.forall_mem_singleton⟩

theorem lay_signal (t : TaskParams) (ht : ¬ t.IsDot) : Lay (add t) (fun _ => True) True :=
  (lay_add t).congr (iff_true_intro fun h => absurd h ht)

theorem runFat_depEdge {s s' : BuildState} {p c : ℕ} {a : Unit}
    (hrun : CmdProg.exec BuildState.runFat (depEdge p c) s = .ok (a, s')) : Signals s.g s'.g := by
  obtain ⟨⟨a1, s1⟩, h1, h2⟩ := GraphImpl.bind_ok.mp hrun
  cases h2
  obtain ⟨s2, h, h1⟩ := GraphImpl.bind_ok.mp h1
  cases h1
  exact .depEdge h

theorem lay_edge (p c : ℕ) : Lay (edge p c) (fun _ => True) True := by
  intro s a s' hrun
  obtain ⟨⟨a1, s1⟩, h1, h2⟩ := GraphImpl.bind_ok.mp hrun
  cases h2
  obtain ⟨g, h, h1⟩ := GraphImpl.bind_ok.mp h1
  cases h1
  exact ⟨trivial, (Signals.edge h).lays⟩

theorem lay_slotAlloc (n : UInt32) : Lay (slotAlloc n) (· = ⟨n.toNat, 0⟩) True := by
  intro s a s' hrun
  obtain ⟨⟨a1, s1⟩, h1, h2⟩ := GraphImpl.bind_ok.mp hrun
  cases h2
  obtain ⟨r, -, h1⟩ := GraphImpl.bind_ok.mp h1
  cases h1
  exact ⟨rfl, (Signals.refl s.g).lays⟩

theorem lay_alloc (bytes align : UInt64) : Lay (alloc bytes align) (· = ⟨bytes.toNat / 4, 0⟩) True := by
  intro s a s' hrun
  obtain ⟨⟨a1, s1⟩, h1, h2⟩ := GraphImpl.bind_ok.mp hrun
  cases h2
  obtain ⟨r, -, h1⟩ := GraphImpl.bind_ok.mp h1
  cases h1
  exact ⟨rfl, (Signals.refl s.g).lays⟩

theorem lay_die {msg : String} {c : Prop} : Lay (die msg : Build α) W c := by
  intro s a s' hrun
  cases hrun

/-- What comes behind a look-up may take the tensor to be the one of that name. -/
theorem lay_tensor {D : Decoder} {n : TensorName} {f : WTensor → Build α} {c : WTensor → Prop}
    {d : Prop} (hf : ∀ w, D.weights n = some w → Lay (f w) W (c w ∧ d)) :
    Lay (tensor D n >>= f) W ((∀ w, D.weights n = some w → c w) ∧ d) := by
  rw [tensor]
  cases hw : D.weights n with
  | none => exact lay_die
  | some w =>
    apply (hf w hw).congr
    apply and_congr_left'
    exact ⟨fun h w' hw' => (Option.some.inj hw') ▸ h, fun h => h w rfl⟩

/-- The same where the condition speaks of the tensor by its name. -/
theorem lay_tensor_of {D : Decoder} {n : TensorName} {f : WTensor → Build α} {d : Prop}
    (hf : ∀ w, D.weights n = some w → Lay (f w) W d) : Lay (tensor D n >>= f) W d := by
  have h : Lay (tensor D n >>= f) W ((∀ w, D.weights n = some w → True) ∧ d) :=
    lay_tensor fun w hw => (hf w hw).congr (and_iff_right trivial).symm
  exact h.congr (and_iff_right fun _ _ => trivial)

/-! ## Helpers -/

theorem runFat_dependOn {id : ℕ} {deps : List ℕ} {s s' : BuildState} {a : Unit}
    (hrun : CmdProg.exec BuildState.runFat (dependOn id deps) s = .ok (a, s')) :
    Signals s.g s'.g := by
  induction deps generalizing s with
  | nil =>
    cases hrun
    exact .refl _
  | cons d deps ih =>
    change CmdProg.exec _ (depEdge d id >>= fun _ => dependOn id deps) s = _ at hrun
    rw [CmdProg.exec_bind] at hrun
    obtain ⟨⟨u, s1⟩, h1, h2⟩ := GraphImpl.bind_ok.mp hrun
    exact (runFat_depEdge h1).trans (ih h2)

theorem lay_dependOn (id : ℕ) (deps : List ℕ) : Lay (dependOn id deps) (fun _ => True) True :=
  fun _ _ _ hrun => ⟨trivial, (runFat_dependOn hrun).lays⟩

theorem lay_fanIn (producers : List ℕ) : Lay (fanIn producers) (fun _ => True) True := by
  apply (lay_signal rawSignal (by decide)).skip
  intro sig _
  exact (lay_dependOn sig producers).skip fun _ _ => .pure trivial

theorem runFat_addOp {k : TaskKind} {aux : Option Aux} {deps : List ℕ} {s s' : BuildState} {id : ℕ}
    (hrun : CmdProg.exec BuildState.runFat (addOp k aux deps) s = .ok (id, s')) :
    id = s.g.params.length ∧ ∃ n, s'.g.params =
      s.g.params ++ { kind := k, affinity := .CPU, aux := aux } :: List.replicate n rawSignal := by
  rw [addOp, CmdProg.exec_bind] at hrun
  obtain ⟨⟨id1, s1⟩, h1, hrun⟩ := GraphImpl.bind_ok.mp hrun
  rw [CmdProg.exec_bind] at hrun
  obtain ⟨⟨u, s2⟩, h2, h3⟩ := GraphImpl.bind_ok.mp hrun
  cases h3
  obtain ⟨⟨id2, s3⟩, h4, h5⟩ := GraphImpl.bind_ok.mp h1
  cases h5
  obtain ⟨⟨g, id3⟩, h6, h7⟩ := GraphImpl.bind_ok.mp h4
  cases h7
  obtain ⟨hparams, hid⟩ := GraphImpl.params_add h6
  obtain ⟨n, hn⟩ := runFat_dependOn h2
  exact ⟨hid, n, by rw [hn, hparams, List.append_assoc]; rfl⟩

/-- Signals and records of other kinds are no tiles. -/
theorem Lays.op {s s' : BuildState} {t : TaskParams} {n : ℕ} (ht : ¬ t.IsDot)
    (h : s'.g.params = s.g.params ++ t :: List.replicate n rawSignal) : Lays True s s' := by
  refine ⟨_, h, iff_true_intro ?_⟩
  intro u hu hdot
  rcases List.mem_cons.mp hu with rfl | hu
  · exact absurd hdot ht
  · rw [List.eq_of_mem_replicate hu] at hdot
    rcases hdot with h | h <;> cases h

theorem lay_addOp {k : TaskKind} (aux : Option Aux) (deps : List ℕ) (hk : k ≠ .STREAM_DOT)
    (hi : k ≠ .STREAM_DOT_IDX) : Lay (addOp k aux deps) (fun _ => True) True := by
  intro s id s' hrun
  obtain ⟨-, n, hn⟩ := runFat_addOp hrun
  exact ⟨trivial, .op (fun h => h.elim hk hi) hn⟩

theorem lay_addAuxOp {k : TaskKind} (a : Aux) (deps : List ℕ) (hk : k ≠ .STREAM_DOT)
    (hi : k ≠ .STREAM_DOT_IDX) : Lay (addAuxOp k a deps) (fun _ => True) True := by
  have haux : Lay (auxAlloc a) (fun _ => True) True :=
    (lay_alloc _ _).skip fun _ _ => .pure trivial
  exact haux.skip fun p _ => lay_addOp p deps hk hi

theorem lay_addActQ8 (dep : ℕ) (x : Loc) (n : UInt32) :
    Lay (addActQ8 dep x n) (fun _ => True) True := by
  intro s id s' hrun
  rw [addActQ8, CmdProg.exec_bind] at hrun
  obtain ⟨⟨id1, s1⟩, h1, hrun⟩ := GraphImpl.bind_ok.mp hrun
  cases hrun
  obtain ⟨rfl, k, hk⟩ := runFat_addOp h1
  -- the record written to is the one just added
  have hwrite (f : TaskParams → TaskParams) : (s1.g.write s.g.params.length f).params =
      s.g.params ++ f { kind := .ACT_Q8, affinity := .CPU } :: List.replicate k rawSignal := by
    rw [GraphImpl.params_write, hk]
    exact List.modifyTailIdx_add _ 0 _ _
  exact ⟨trivial, .op (by rintro (h | h) <;> cases h) (hwrite _)⟩

end

/-! ## Dots -/

/-- The tiles of a dot are inside: there are no rows, or the pointers hold its activation and its
outputs. -/
def WTensor.FitsAt (w : WTensor) (x y : Loc) : Prop :=
  w.rows ≠ 0 → x.Holds (actBytes w.fmt w.cols.toNat) ∧ y.Holds (4 * w.rows.toNat)

instance (w : WTensor) (x y : Loc) : Decidable (w.FitsAt x y) := by
  unfold WTensor.FitsAt
  infer_instance

theorem Loc.Holds.mono {l : Loc} {j k : ℕ} (h : l.Holds k) (hjk : j ≤ k) : l.Holds j :=
  (Nat.add_le_add_left hjk _).trans h

theorem Loc.holds_add {l : Loc} {n k : ℕ} : (l.add n).Holds (4 * k) ↔ l.Holds (4 * (n + k)) := by
  rw [Loc.Holds, Loc.Holds, Loc.add]
  dsimp only
  omega

section
variable {tile : UInt32 → UInt32 → TaskParams} {rows rowsz : UInt32} {A : Prop} {B : ℕ → Prop}

/-- Where a tile is inside iff the rows up to its last are, all tiles are iff all rows are.  The row
counter may wrap behind the last row; the tiles after that take rows there are. -/
theorem lay_tileLoop (hB : ∀ j k, j ≤ k → B k → B j)
    (htile : ∀ r0 r, (tile r0 r).IsDot ∧ ((tile r0 r).Inside ↔ A ∧ B (r0.toNat + r.toNat)))
    (deps : List ℕ) (fuel : ℕ) (r0 : UInt32) (tiles : List ℕ) :
    Lay (tileLoop tile rows rowsz deps fuel r0 tiles) (fun _ => True)
      (r0 < rows → A ∧ B rows.toNat) := by
  induction fuel generalizing r0 tiles with
  | zero => exact lay_die
  | succ fuel ih =>
    rw [tileLoop]
    by_cases hr : r0 < rows
    · rw [if_pos hr]
      set r := if rows - r0 < rowsz then rows - r0 else rowsz with hrdef
      have hr' := UInt32.lt_iff_toNat_lt.mp hr
      have hsub : (rows - r0).toNat = rows.toNat - r0.toNat :=
        UInt32.toNat_sub_of_le _ _ (UInt32.le_of_lt hr)
      have hrlen : r.toNat = min (rows.toNat - r0.toNat) rowsz.toNat := by
        rw [hrdef]
        split_ifs with hlast
        · rw [UInt32.lt_iff_toNat_lt, hsub] at hlast
          omega
        · rw [UInt32.lt_iff_toNat_lt, hsub] at hlast
          omega
      obtain ⟨hdot, hin⟩ := htile r0 r
      have hiff : ((tile r0 r).IsDot → (tile r0 r).Inside) ∧
          (r0 + rowsz < rows → A ∧ B rows.toNat) ↔ (r0 < rows → A ∧ B rows.toNat) := by
        rw [hin]
        constructor
        · intro ⟨h, hnext⟩ _
          by_cases hlast : rows.toNat ≤ r0.toNat + rowsz.toNat
          · have hall : r0.toNat + r.toNat = rows.toNat := by omega
            rw [← hall]
            exact h hdot
          · apply hnext
            have hlt := rows.toNat_lt
            rw [UInt32.lt_iff_toNat_lt, UInt32.toNat_add, Nat.mod_eq_of_lt (by omega)]
            omega
        · intro h
          exact ⟨fun _ => ⟨(h hr).1, hB _ _ (by omega) (h hr).2⟩, fun _ => h hr⟩
      apply Lay.congr _ hiff
      apply (lay_add (tile r0 r)).bind
      intro id _
      exact (lay_dependOn id deps).skip fun _ _ => ih (r0 + rowsz) (tiles ++ [id])
    · rw [if_neg hr]
      exact (Lay.pure trivial).congr (iff_true_intro fun h => absurd h hr).symm

theorem lay_addTiles (hB : ∀ j k, j ≤ k → B k → B j)
    (htile : ∀ r0 r, (tile r0 r).IsDot ∧ ((tile r0 r).Inside ↔ A ∧ B (r0.toNat + r.toNat)))
    (deps : List ℕ) :
    Lay (addTiles tile rows rowsz deps) (fun _ => True) (rows ≠ 0 → A ∧ B rows.toNat) := by
  have hpos : ((0 : UInt32) < rows → A ∧ B rows.toNat) ↔ (rows ≠ 0 → A ∧ B rows.toNat) := by
    rw [UInt32.pos_iff_ne_zero]
  apply Lay.congr _ hpos
  apply (lay_tileLoop hB htile deps (2 ^ 32) 0 []).last
  intro tiles _
  match tiles with
  | [t] => exact .pure trivial
  | [] => exact lay_fanIn []
  | t :: u :: rest => exact lay_fanIn (t :: u :: rest)

end

section
variable (o : BuildOpts) (w : WTensor) {m : ℕ}

theorem lay_addDot (x y : Loc) (deps : List ℕ) (rowsz : UInt32) (idSlot : Option Loc) :
    Lay (addDot o w x y deps rowsz idSlot) (fun _ => True) (w.FitsAt x y) := by
  apply lay_addTiles (B := fun k => y.Holds (4 * k))
  · intro j k hjk h
    exact h.mono (Nat.mul_le_mul_left 4 hjk)
  · intro r0 r
    constructor
    · cases idSlot with
      | none => exact .inl rfl
      | some p => exact .inr rfl
    · have hone : (dotTile o w x y idSlot r0 r).columns = 1 := rfl
      rw [TaskParams.Inside, hone, ← Loc.holds_add]
      simp only [Nat.lt_one_iff, forall_eq, TaskParams.inCol, TaskParams.out, dotTile, Nat.zero_mul, 
        Nat.add_zero, Loc.add_zero]

theorem lay_addDotM (x y : Cols) (hm : 1 ≤ m) (deps : List ℕ) (rowsz : UInt32) :
    Lay (addDotM o w x y m deps rowsz) (fun _ => True)
      (∀ p < m, w.FitsAt (x.col p) (y.col p)) := by
  rw [addDotM]
  split_ifs with hmc hone
  · exact (Lay.mapM_range fun p _ => lay_addDot o w (x.col p) (y.col p) deps rowsz none).last
      fun sigs _ => lay_fanIn sigs
  · have hdot := lay_addDot o w x.base y.base deps rowsz none
    apply hdot.congr
    rw [hone]
    simp only [Nat.lt_one_iff, forall_eq, Cols.col, Nat.zero_mul, Loc.add_zero]
  · have htiles : Lay (addTiles (dotTileM o w x y m) w.rows rowsz deps) (fun _ => True)
        (w.rows ≠ 0 → (∀ p < m, (x.col p).Holds (actBytes w.fmt w.cols.toNat)) ∧
          ∀ p < m, (y.col p).Holds (4 * w.rows.toNat)) := by
      apply lay_addTiles (B := fun k => ∀ p < m, (y.col p).Holds (4 * k))
      · intro j k hjk h p hp
        exact (h p hp).mono (Nat.mul_le_mul_left 4 hjk)
      · intro r0 r
        refine ⟨.inl rfl, ?_⟩
        have hcols : (dotTileM o w x y m r0 r).columns = m :=
          if_pos (show m ≠ 0 by omega)
        rw [TaskParams.Inside, hcols, ← forall₂_and]
        apply forall₂_congr
        intro p _
        rw [← Loc.holds_add]
        simp only [TaskParams.inCol, TaskParams.out, dotTileM, Cols.col, Nat.add_zero,
          Loc.add_add, Nat.add_comm r0.toNat]
    apply htiles.congr
    constructor
    · exact fun h p hp hrows => ⟨(h hrows).1 p hp, (h hrows).2 p hp⟩
    · exact fun h hrows => ⟨fun p hp => (h p hp hrows).1, fun p hp => (h p hp hrows).2⟩

theorem lay_positions {α : Type} [Inhabited α] {f : ℕ → Build α} {V : α → Prop} {c : ℕ → Prop}
    (h : ∀ p < m, Lay (f p) V (c p)) :
    Lay (positions m f) (fun _ => True) (∀ p < m, c p) :=
  (Lay.mapM_range h).last fun _ _ => .pure trivial

theorem lay_stageDot (x y : Cols) (pdeps : ℕ → ℕ) (rowsz : UInt32) :
    Lay (stageDot o w x y m pdeps rowsz) (fun _ => True)
      (∀ p < m, w.FitsAt (x.col p) (y.col p)) := by
  rw [stageDot]
  split_ifs with hmc
  · exact (lay_addDotM o w x y (by omega) _ rowsz).last fun _ _ => .pure trivial
  · exact lay_positions fun p _ => lay_addDot o w (x.col p) (y.col p) [pdeps p] rowsz none

end

/-! ## The widths -/

/-- `m` buffers of `n` floats. -/
def fatBufCols (n : UInt32) (m : ℕ) : Cols where
  base := ⟨(UInt64.ofNat (align128 (xAllocBytes n.toNat) * m)).toNat / 4, 0⟩
  stride := .ofNat (align128 (xAllocBytes n.toNat) / 4)

/-- `m` slots of `n` floats. -/
def fatSlotCols (n : UInt32) (m : ℕ) : Cols where
  base := ⟨(UInt32.ofNat (align128 (n.toNat * 4) / 4) * .ofNat m).toNat, 0⟩
  stride := .ofNat (align128 (n.toNat * 4) / 4)

/-- One buffer of `n` floats, without rounding. -/
def fatBuf (n : UInt32) : Loc := ⟨(UInt64.ofNat (xAllocBytes n.toNat)).toNat / 4, 0⟩

/-- One slot of `n` floats. -/
def fatSlot (n : UInt32) : Loc := ⟨n.toNat, 0⟩

/-- The matrix fits a stage from buffers of `n` floats to slots of `k`. -/
def WTensor.FitsStage (w : WTensor) (n k : UInt32) (m : ℕ) : Prop :=
  ∀ p < m, w.FitsAt ((fatBufCols n m).col p) ((fatSlotCols k m).col p)

namespace Decoder
variable (D : Decoder)

/-- A tensor of layer `l` fits the widths its name calls for; `fs` is that of the shared expert. -/
def StageFits (l : UInt32) (m : ℕ) (fs : UInt32) (c : LayerTensor) : Prop :=
  ∀ w, D.weights (.blk l c) = some w → w.FitsStage (D.hp.shape fs c).2 (D.hp.shape fs c).1 m

/-- The router and the experts of layer `l` fit at position `p`. -/
structure ExpertFits (l : UInt32) (m p : ℕ) : Prop where
  router : ∀ w, D.weights (.blk l .ffnGateInp) = some w →
    w.FitsAt ((fatBufCols D.hp.nEmbd m).col p) (fatSlot D.hp.nExpert)
  gate : ∀ w, D.weights (.blk l .ffnGateExps) = some w → expertsAt D m p ≠ 0 →
    w.FitsAt ((fatBufCols D.hp.nEmbd m).col p) (fatSlot D.hp.nFfExp)
  up : ∀ w, D.weights (.blk l .ffnUpExps) = some w → expertsAt D m p ≠ 0 →
    w.FitsAt ((fatBufCols D.hp.nEmbd m).col p) (fatSlot D.hp.nFfExp)
  down : ∀ w, D.weights (.blk l .ffnDownExps) = some w → ∀ s < (expertsAt D m p).toNat,
    w.FitsAt (fatBuf D.hp.nFfExp) ((fatSlot (D.hp.nUsed * D.hp.nEmbd)).add (s * D.hp.nEmbd.toNat))

/-- The tensors of layer `l` fit. -/
structure LayerFits (l : UInt32) (m : ℕ) : Prop where
  attention : ∀ c ∈ [LayerTensor.attnQ, .attnKvAMqa, .attnKvB, .attnOutput], D.StageFits l m 0 c
  dense : l < D.hp.nDenseLead → ∀ c ∈ LayerTensor.dense, D.StageFits l m 0 c
  experts : ¬ l < D.hp.nDenseLead → ∀ p < m, D.ExpertFits l m p
  shared : ¬ l < D.hp.nDenseLead → ∀ g, D.weights (.blk l .ffnGateShexp) = some g →
    ∀ c ∈ [LayerTensor.ffnGateShexp, .ffnUpShexp, .ffnDownShexp], D.StageFits l m g.rows c

/-- The tensors of a pass over `m` positions fit the widths that the hyper-parameters give them. -/
structure Fits (m : ℕ) : Prop where
  layer : ∀ l < D.hp.nLayer.toNat, D.LayerFits (.ofNat l) m
  head : D.o.hcMode ≠ .on → ∀ w, D.weights .output = some w → ∀ p < m,
    w.FitsAt ((fatBufCols D.hp.nEmbd m).col p)
      (Cols.col ⟨fatSlot (D.hp.nVocab * .ofNat m), D.hp.nVocab⟩ p)

end Decoder

section
variable (D : Decoder) (n : UInt32) {m : ℕ}

theorem lay_bufAllocCols : Lay (bufAllocCols n m) (· = fatBufCols n m) True := by
  apply (lay_alloc _ _).skip
  rintro base rfl
  exact .pure rfl

theorem lay_slotAllocCols : Lay (slotAllocCols n m) (· = fatSlotCols n m) True := by
  apply (lay_slotAlloc _).skip
  rintro base rfl
  exact .pure rfl

/-- Positions without tiles. -/
theorem lay_ops {α : Type} [Inhabited α] {f : ℕ → Build α} {V : α → Prop}
    (h : ∀ p < m, Lay (f p) V True) : Lay (positions m f) (fun _ => True) True :=
  (lay_positions h).congr (iff_true_intro fun _ _ => trivial)

theorem lay_normQ8 (t : TensorName) (x y : Loc) (k : UInt32) (deps : List ℕ) :
    Lay (do
      let w ← tensor D t
      let id ← addRmsNorm D w x y n deps
      addActQ8 id y k) (fun _ => True) True := by
  apply lay_tensor_of
  intro w _
  exact (lay_addAuxOp _ deps (by decide) (by decide)).skip fun id _ => lay_addActQ8 id y k

/-- A stage of a pass: the look-up of its tensor and its tiles, and what comes behind. -/
theorem lay_stage {α : Type} {W : α → Prop} {d : Prop} {l fs rowsz : UInt32} {c : LayerTensor}
    {x y : Cols} {pdeps : ℕ → ℕ} {f : (ℕ → ℕ) → Build α}
    (hx : x = fatBufCols (D.hp.shape fs c).2 m) (hy : y = fatSlotCols (D.hp.shape fs c).1 m)
    (hf : ∀ sig, Lay (f sig) W d) :
    Lay (layerTensor D l c >>= fun w => stageDot D.o w x y m pdeps rowsz >>= f) W
      (D.StageFits l m fs c ∧ d) := by
  apply lay_tensor
  intro w _
  rw [hx, hy]
  exact (lay_stageDot D.o w _ _ pdeps rowsz).bind fun sig _ => hf sig

/-! ## The stages -/

variable (l : UInt32) (r : Residual)

theorem lay_stageA (xn : Cols) : Lay (stageA D l m r xn) (fun _ => True) True :=
  lay_ops fun p _ => lay_normQ8 D _ _ (r.x p) (xn.col p) _ _

theorem lay_stageC (kva ckv : Cols) (skva : ℕ → ℕ) :
    Lay (stageC D l m kva ckv skva) (fun _ => True) True :=
  lay_ops fun p _ => lay_normQ8 D _ _ (kva.col p) (ckv.col p) _ _

theorem lay_addHeads (p : ℕ) (q ctx scr : Loc) (deps : List ℕ) :
    Lay (addHeads D l p q ctx scr deps) (fun _ => True) True := by
  have hops (a : ℕ → Aux) : Lay ((List.range D.hp.nHead.toNat).mapM fun hh =>
      addAuxOp .ATTN_HEAD (a hh) deps) (fun _ => True) True :=
    (Lay.mapM_range fun hh _ => lay_addAuxOp (a hh) deps (by decide) (by decide)).congr
      (iff_true_intro fun _ _ => trivial)
  exact (hops _).skip fun heads _ => lay_fanIn heads

theorem lay_stageEAt (qb kva kvb ctx : Cols) (sq skva skvb : ℕ → ℕ) (p : ℕ) (appCum : Option ℕ) :
    Lay (stageEAt D l qb kva kvb ctx sq skva skvb p appCum) (fun _ => True) True := by
  have hchain (tApp : ℕ) : Lay (appendChain appCum tApp) (fun _ => True) True := by
    cases appCum with
    | none => exact .pure trivial
    | some a => exact lay_fanIn [a, tApp]
  apply (lay_addAuxOp _ _ (by decide) (by decide)).skip
  intro tRq _
  apply (lay_addAuxOp _ _ (by decide) (by decide)).skip
  intro tRk _
  apply (lay_addAuxOp _ _ (by decide) (by decide)).skip
  intro tApp _
  apply (hchain tApp).skip
  intro appCum' _
  apply (lay_alloc _ _).skip
  intro scr _
  apply (lay_addHeads D l p _ _ _ _).skip
  intro tHeads _
  exact (lay_addActQ8 tHeads _ _).skip fun _ _ => .pure trivial

theorem lay_stageE (qb kva kvb ctx : Cols) (sq skva skvb : ℕ → ℕ) :
    Lay (stageE D l m qb kva kvb ctx sq skva skvb) (fun _ => True) True := by
  have hround : ∀ (s : Option ℕ × List ℕ), True → ∀ p < m,
      Lay (do
        let r ← stageEAt D l qb kva kvb ctx sq skva skvb p s.1
        Pure.pure (some r.1, s.2 ++ [r.2])) (fun _ => True) True := by
    intro s _ p _
    exact (lay_stageEAt D l qb kva kvb ctx sq skva skvb p s.1).skip fun _ _ => .pure trivial
  have hfold := (Lay.foldlM_range (a := (none, [])) trivial hround).congr
    (iff_true_intro fun _ _ => trivial)
  exact hfold.skip fun _ _ => .pure trivial

theorem lay_stageG (ao x2 xf : Cols) (so : ℕ → ℕ) :
    Lay (stageG D l m r ao x2 xf so) (fun _ => True) True := by
  apply lay_ops (V := fun _ => True)
  intro p _
  apply (lay_addAuxOp _ _ (by decide) (by decide)).skip
  intro tx2 _
  apply lay_tensor_of
  intro w _
  apply (lay_addAuxOp _ _ (by decide) (by decide)).skip
  intro fn _
  exact (lay_addActQ8 fn _ _).skip fun _ _ => .pure trivial

theorem lay_attention (rowsz : UInt32) :
    Lay (attention D l m rowsz r) (fun i => i.xf = fatBufCols D.hp.nEmbd m)
      (∀ c ∈ [LayerTensor.attnQ, .attnKvAMqa, .attnKvB, .attnOutput], D.StageFits l m 0 c) := by
  apply (lay_bufAllocCols _).skip
  intro xn hxn
  apply (lay_slotAllocCols _).skip
  intro qb hqb
  apply (lay_slotAllocCols _).skip
  intro kva hkva
  apply (lay_bufAllocCols _).skip
  intro ckv hckv
  apply (lay_slotAllocCols _).skip
  intro kvb hkvb
  apply (lay_bufAllocCols _).skip
  intro ctx hctx
  apply (lay_slotAllocCols _).skip
  intro ao hao
  apply (lay_bufAllocCols _).skip
  intro x2 _
  apply (lay_bufAllocCols _).skip
  intro xf hxf
  apply (lay_stageA D l r xn).skip
  intro aq _
  have hall : D.StageFits l m 0 .attnQ ∧ D.StageFits l m 0 .attnKvAMqa ∧
      D.StageFits l m 0 .attnKvB ∧ D.StageFits l m 0 .attnOutput ∧ True ↔
      ∀ c ∈ [LayerTensor.attnQ, .attnKvAMqa, .attnKvB, .attnOutput], D.StageFits l m 0 c := by
    simp only [List.forall_mem_cons, List.not_mem_nil, IsEmpty.forall_iff, implies_true]
  apply Lay.congr _ hall
  apply lay_stage D (c := .attnQ) hxn hqb
  intro sq
  apply lay_stage D (c := .attnKvAMqa) hxn hkva
  intro skva
  apply (lay_stageC D l kva ckv skva).skip
  intro kq8 _
  apply lay_stage D (c := .attnKvB) hckv hkvb
  intro skvb
  apply (lay_stageE D l qb kva kvb ctx sq skva skvb).skip
  intro cq8 _
  apply lay_stage D (c := .attnOutput) hctx hao
  intro so
  exact (lay_stageG D l r ao x2 xf so).skip fun g _ => .pure hxf

/-! ## FFN -/

variable (rowsz : UInt32)

theorem lay_addSiluQ8 (gate up h : Loc) (k : UInt32) (deps : List ℕ) :
    Lay (addSiluQ8 gate up h k deps) (fun _ => True) True :=
  (lay_addAuxOp _ deps (by decide) (by decide)).skip fun tS _ => lay_addActQ8 tS h k

theorem lay_gateUpDown (wg wu wd : LayerTensor) (fs : UInt32) {i : FfnIn} {gg uu hh dd : Cols}
    (hxg : i.xf = fatBufCols (D.hp.shape fs wg).2 m) (hgg : gg = fatSlotCols (D.hp.shape fs wg).1 m)
    (hxu : i.xf = fatBufCols (D.hp.shape fs wu).2 m) (huu : uu = fatSlotCols (D.hp.shape fs wu).1 m)
    (hhh : hh = fatBufCols (D.hp.shape fs wd).2 m) (hdd : dd = fatSlotCols (D.hp.shape fs wd).1 m) :
    Lay (gateUpDown D wg wu wd l m rowsz n i gg uu hh dd) (fun _ => True)
      (∀ c ∈ [wg, wu, wd], D.StageFits l m fs c) := by
  have hall : D.StageFits l m fs wg ∧ D.StageFits l m fs wu ∧ D.StageFits l m fs wd ∧ True ↔
      ∀ c ∈ [wg, wu, wd], D.StageFits l m fs c := by
    simp only [List.forall_mem_cons, List.not_mem_nil, IsEmpty.forall_iff, implies_true]
  apply Lay.congr _ hall
  apply lay_stage D hxg hgg
  intro sg
  apply lay_stage D hxu huu
  intro su
  apply (lay_ops fun p _ => lay_addSiluQ8 (gg.col p) (uu.col p) (hh.col p) n [sg p, su p]).skip
  intro hq8 _
  apply lay_tensor
  intro w _
  rw [hhh, hdd]
  exact (lay_stageDot D.o w _ _ hq8 rowsz).congr (and_iff_left trivial).symm

theorem lay_ffnDense {i : FfnIn} (hxf : i.xf = fatBufCols D.hp.nEmbd m) (xo : Cols) :
    Lay (ffnDense D l m rowsz i xo) (fun _ => True)
      (∀ c ∈ LayerTensor.dense, D.StageFits l m 0 c) := by
  apply (lay_slotAllocCols _).skip
  intro gg hgg
  apply (lay_slotAllocCols _).skip
  intro uu huu
  apply (lay_bufAllocCols _).skip
  intro hh hhh
  apply (lay_slotAllocCols _).skip
  intro dd hdd
  apply (lay_gateUpDown D _ l rowsz .ffnGate .ffnUp .ffnDown 0 hxf hgg hxf huu hhh hdd).last
  intro sd _
  exact lay_ops fun p _ => lay_addAuxOp _ _ (by decide) (by decide)

theorem lay_addRouter {i : FfnIn} (hxf : i.xf = fatBufCols D.hp.nEmbd m) (p : ℕ) :
    Lay (addRouter D l rowsz i p) (fun _ => True)
      (∀ w, D.weights (.blk l .ffnGateInp) = some w →
        w.FitsAt ((fatBufCols D.hp.nEmbd m).col p) (fatSlot D.hp.nExpert)) := by
  apply (lay_slotAlloc _).skip
  intro rlog hrlog
  apply Lay.congr _ (and_iff_left trivial)
  apply lay_tensor
  intro w _
  rw [hxf, hrlog]
  apply (lay_addDot D.o w _ _ _ rowsz none).bind
  intro tRl _
  apply (lay_alloc _ _).skip
  intro ids _
  apply (lay_alloc _ _).skip
  intro gate _
  exact (lay_addAuxOp _ _ (by decide) (by decide)).skip fun _ _ => .pure trivial

theorem lay_addExpert (wge wue wde : WTensor) (xf de ids : Loc) (deps : List ℕ) (k : ℕ) :
    Lay (addExpert D wge wue wde rowsz xf de ids deps k) (fun _ => True)
      (wge.FitsAt xf (fatSlot D.hp.nFfExp) ∧ wue.FitsAt xf (fatSlot D.hp.nFfExp) ∧
        wde.FitsAt (fatBuf D.hp.nFfExp) (de.add (k * D.hp.nEmbd.toNat))) := by
  apply (lay_slotAlloc _).skip
  rintro ge rfl
  apply (lay_slotAlloc _).skip
  rintro ue rfl
  apply (lay_addDot D.o wge xf _ deps rowsz _).bind
  intro tGe _
  apply (lay_addDot D.o wue xf _ deps rowsz _).bind
  intro tUe _
  apply (lay_alloc _ _).skip
  rintro he rfl
  apply (lay_addSiluQ8 _ _ _ _ _).skip
  intro tHq8 _
  exact lay_addDot D.o wde _ _ _ rowsz _

theorem lay_addExperts (wge wue wde : WTensor) {i : FfnIn}
    (hxf : i.xf = fatBufCols D.hp.nEmbd m) (ids : Loc) (tRt p : ℕ) :
    Lay (addExperts D wge wue wde rowsz m i ids tRt p) (fun _ => True)
      (∀ k < (expertsAt D m p).toNat,
        wge.FitsAt ((fatBufCols D.hp.nEmbd m).col p) (fatSlot D.hp.nFfExp) ∧
        wue.FitsAt ((fatBufCols D.hp.nEmbd m).col p) (fatSlot D.hp.nFfExp) ∧
        wde.FitsAt (fatBuf D.hp.nFfExp)
          ((fatSlot (D.hp.nUsed * D.hp.nEmbd)).add (k * D.hp.nEmbd.toNat))) := by
  apply (lay_slotAlloc _).skip
  intro de hde
  rw [hxf, hde]
  apply (Lay.mapM_range fun k _ => lay_addExpert D rowsz wge wue wde _ _ ids _ k).last
  intro downs _
  exact (lay_fanIn downs).skip fun _ _ => .pure trivial

theorem Decoder.expertFits_iff {wge wue wde : WTensor} {p : ℕ}
    (hge : D.weights (.blk l .ffnGateExps) = some wge)
    (hue : D.weights (.blk l .ffnUpExps) = some wue)
    (hde : D.weights (.blk l .ffnDownExps) = some wde) :
    ((∀ w, D.weights (.blk l .ffnGateInp) = some w →
        w.FitsAt ((fatBufCols D.hp.nEmbd m).col p) (fatSlot D.hp.nExpert)) ∧
      ∀ k < (expertsAt D m p).toNat,
        wge.FitsAt ((fatBufCols D.hp.nEmbd m).col p) (fatSlot D.hp.nFfExp) ∧
        wue.FitsAt ((fatBufCols D.hp.nEmbd m).col p) (fatSlot D.hp.nFfExp) ∧
        wde.FitsAt (fatBuf D.hp.nFfExp)
          ((fatSlot (D.hp.nUsed * D.hp.nEmbd)).add (k * D.hp.nEmbd.toNat))) ↔
      D.ExpertFits l m p := by
  constructor
  · intro h
    have hfirst (hne : expertsAt D m p ≠ 0) : 0 < (expertsAt D m p).toNat := by
      rw [Nat.pos_iff_ne_zero]
      exact fun hz => hne (UInt32.toNat_inj.mp hz)
    constructor
    · exact h.1
    · intro w hw hne
      obtain rfl := Option.some.inj (hge.symm.trans hw)
      exact (h.2 0 (hfirst hne)).1
    · intro w hw hne
      obtain rfl := Option.some.inj (hue.symm.trans hw)
      exact (h.2 0 (hfirst hne)).2.1
    · intro w hw k hk
      obtain rfl := Option.some.inj (hde.symm.trans hw)
      exact (h.2 k hk).2.2
  · intro h
    refine ⟨h.router, fun k hk => ?_⟩
    have hne : expertsAt D m p ≠ 0 := by
      intro hz
      rw [hz] at hk
      exact Nat.not_lt_zero k hk
    exact ⟨h.gate _ hge hne, h.up _ hue hne, h.down _ hde k hk⟩

theorem lay_ffnMoe {i : FfnIn} (hxf : i.xf = fatBufCols D.hp.nEmbd m) (xo : Cols) :
    Lay (ffnMoe D l m rowsz i xo) (fun _ => True)
      ((∀ p < m, D.ExpertFits l m p) ∧ ∀ g, D.weights (.blk l .ffnGateShexp) = some g →
        ∀ c ∈ [LayerTensor.ffnGateShexp, .ffnUpShexp, .ffnDownShexp],
          D.StageFits l m g.rows c) := by
  have hgate (tRt : ℕ → ℕ) : Lay (expertGate D m tRt) (fun _ => True) True := by
    rw [expertGate]
    split_ifs
    · exact (lay_fanIn _).skip fun _ _ => .pure trivial
    · exact .pure trivial
  apply lay_tensor_of
  intro wge hge
  apply lay_tensor_of
  intro wue hue
  apply lay_tensor_of
  intro wde hde
  have hexp : ∀ d : Prop, (∀ p < m, ∀ w, D.weights (.blk l .ffnGateInp) = some w →
        w.FitsAt ((fatBufCols D.hp.nEmbd m).col p) (fatSlot D.hp.nExpert)) ∧
      (∀ p < m, ∀ k < (expertsAt D m p).toNat,
        wge.FitsAt ((fatBufCols D.hp.nEmbd m).col p) (fatSlot D.hp.nFfExp) ∧
        wue.FitsAt ((fatBufCols D.hp.nEmbd m).col p) (fatSlot D.hp.nFfExp) ∧
        wde.FitsAt (fatBuf D.hp.nFfExp)
          ((fatSlot (D.hp.nUsed * D.hp.nEmbd)).add (k * D.hp.nEmbd.toNat))) ∧ d ↔
      (∀ p < m, D.ExpertFits l m p) ∧ d := by
    intro d
    rw [← and_assoc, ← forall₂_and]
    exact and_congr_left' (forall₂_congr fun p _ => D.expertFits_iff l hge hue hde)
  apply Lay.congr _ (hexp _)
  apply (lay_positions fun p _ => lay_addRouter D l rowsz hxf p).bind
  intro rt _
  apply (hgate _).skip
  intro gate _
  apply (lay_positions fun p _ => lay_addExperts D rowsz wge wue wde hxf _ _ p).bind
  intro rdown _
  apply Lay.congr _ (and_iff_left trivial)
  apply lay_tensor
  intro wgs _
  apply Lay.congr _ (and_iff_left trivial).symm
  apply (lay_slotAllocCols _).skip
  intro gs hgs
  apply (lay_slotAllocCols _).skip
  intro us hus
  apply (lay_bufAllocCols _).skip
  intro hs hhs
  apply (lay_slotAllocCols _).skip
  intro ds hds
  apply (lay_gateUpDown D _ l rowsz .ffnGateShexp .ffnUpShexp .ffnDownShexp wgs.rows hxf hgs hxf hus
    hhs hds).last
  intro sds _
  exact lay_ops fun p _ => lay_addAuxOp _ _ (by decide) (by decide)

/-! ## The pass -/

theorem lay_layer :
    Lay (layer D m rowsz r l) (fun _ => True) (D.LayerFits l m) := by
  have hffn {i : FfnIn} (hxf : i.xf = fatBufCols D.hp.nEmbd m) (xo : Cols) :
      Lay (ffn D l m rowsz i xo) (fun _ => True)
        ((l < D.hp.nDenseLead → ∀ c ∈ LayerTensor.dense, D.StageFits l m 0 c) ∧
          (¬ l < D.hp.nDenseLead → (∀ p < m, D.ExpertFits l m p) ∧
            ∀ g, D.weights (.blk l .ffnGateShexp) = some g →
              ∀ c ∈ [LayerTensor.ffnGateShexp, .ffnUpShexp, .ffnDownShexp],
                D.StageFits l m g.rows c)) := by
    rw [ffn]
    by_cases hl : l < D.hp.nDenseLead
    · rw [if_pos hl]
      apply (lay_ffnDense D l rowsz hxf xo).congr
      exact ⟨fun h => ⟨fun _ => h, fun hn => absurd hl hn⟩, fun h => h.1 hl⟩
    · rw [if_neg hl]
      apply (lay_ffnMoe D l rowsz hxf xo).congr
      exact ⟨fun h => ⟨fun hn => absurd hn hl, fun _ => h⟩, fun h => h.2 hl⟩
  have hall : (∀ c ∈ [LayerTensor.attnQ, .attnKvAMqa, .attnKvB, .attnOutput],
        D.StageFits l m 0 c) ∧
      (l < D.hp.nDenseLead → ∀ c ∈ LayerTensor.dense, D.StageFits l m 0 c) ∧
      (¬ l < D.hp.nDenseLead → (∀ p < m, D.ExpertFits l m p) ∧
        ∀ g, D.weights (.blk l .ffnGateShexp) = some g →
          ∀ c ∈ [LayerTensor.ffnGateShexp, .ffnUpShexp, .ffnDownShexp],
            D.StageFits l m g.rows c) ↔ D.LayerFits l m := by
    constructor
    · exact fun h => ⟨h.1, h.2.1, fun hn => (h.2.2 hn).1, fun hn => (h.2.2 hn).2⟩
    · exact fun h => ⟨h.attention, h.dense, fun hn => ⟨h.experts hn, h.shared hn⟩⟩
  apply Lay.congr _ hall
  apply (lay_attention D l r rowsz).bind
  intro i hi
  apply (lay_bufAllocCols _).skip
  intro xo _
  exact (hffn hi xo).last fun tLo _ => .pure trivial

theorem lay_finalNorm (xF : Cols) : Lay (finalNorm D m r xF) (fun _ => True) True :=
  lay_ops fun p _ => lay_normQ8 D _ _ (r.x p) (xF.col p) _ _

theorem lay_head (hm : 1 ≤ m) {xF : Cols} (hxF : xF = fatBufCols D.hp.nEmbd m) (fq8 : ℕ → ℕ) :
    Lay (head D m rowsz xF fq8) (fun _ => True)
      (D.o.hcMode ≠ .on → ∀ w, D.weights .output = some w → ∀ p < m,
        w.FitsAt ((fatBufCols D.hp.nEmbd m).col p)
          (Cols.col ⟨fatSlot (D.hp.nVocab * .ofNat m), D.hp.nVocab⟩ p)) := by
  rw [head]
  by_cases hhc : D.o.hcMode = .on
  · rw [if_pos hhc]
    exact (Lay.pure trivial).congr (iff_true_intro fun h => absurd hhc h).symm
  · rw [if_neg hhc]
    have hall : (∀ w, D.weights .output = some w → ∀ p < m,
          w.FitsAt ((fatBufCols D.hp.nEmbd m).col p)
            (Cols.col ⟨fatSlot (D.hp.nVocab * .ofNat m), D.hp.nVocab⟩ p)) ∧ True ↔
        (D.o.hcMode ≠ .on → ∀ w, D.weights .output = some w → ∀ p < m,
          w.FitsAt ((fatBufCols D.hp.nEmbd m).col p)
            (Cols.col ⟨fatSlot (D.hp.nVocab * .ofNat m), D.hp.nVocab⟩ p)) :=
      ⟨fun h _ => h.1, fun h => ⟨h hhc, trivial⟩⟩
    apply Lay.congr _ hall
    apply (lay_slotAlloc _).skip
    intro lg hlg
    apply lay_tensor
    intro w _
    rw [hxF, hlg]
    exact (lay_addDotM D.o w _ _ hm _ rowsz).bind fun sig _ => .pure trivial

/-- The tiles of a pass. -/
theorem lay_wire (hm : 1 ≤ m) : Lay (wire D m) (fun _ => True) (D.Fits m) := by
  have hall : (∀ l < D.hp.nLayer.toNat, D.LayerFits (.ofNat l) m) ∧
      (D.o.hcMode ≠ .on → ∀ w, D.weights .output = some w → ∀ p < m,
        w.FitsAt ((fatBufCols D.hp.nEmbd m).col p)
          (Cols.col ⟨fatSlot (D.hp.nVocab * .ofNat m), D.hp.nVocab⟩ p)) ↔ D.Fits m :=
    ⟨fun h => ⟨h.1, h.2⟩, fun h => ⟨h.layer, h.head⟩⟩
  apply Lay.congr _ hall
  apply (lay_ops fun p _ => lay_alloc _ _).skip
  intro xCur _
  apply (Lay.foldlM_range trivial fun r _ l _ => lay_layer D (.ofNat l) r (rowszOf D.o m)).bind
  intro r _
  apply (lay_bufAllocCols _).skip
  intro xF hxF
  apply (lay_finalNorm D r xF).skip
  intro fq8 _
  apply (lay_head D (headRowszOf D.o) hm hxF fq8).last
  intro h _
  apply (lay_signal _ (by decide)).skip
  intro term _
  exact (Lay.forM fun d _ => lay_edge d term).skip fun _ _ => .pure trivial

end
end FastLlm
