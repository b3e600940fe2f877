import FastLlm.Model.Plan
import FastLlm.Model.Shapes
import FastLlm.Runtime.Freeze
import Mathlib.Data.Set.Lattice
import Mathlib.Order.Interval.Set.Basic

/-!
# Stages of a build

A piece of the builder is summed up by what it does for the edges: the producers it
gives a consumer, and the tasks of its own it leaves without one.  Stages compose; in a
pass that is wired right, what one stage leaves open a later one consumes.

## Main definitions

* `Plan.Le` — a plan continued by more requests.
* `Stage` — the summary of a piece; `Stage.seq` — composition.
* `Wires` — a program whose runs are stages with admissible tasks.
* `wires_fanIn`, `wires_addOp`, `wires_addTiles`, `wires_positions`, … — the helpers.
-/

namespace FastLlm

/-- The messages with which a build may die: a budget is used up. -/
def budgetErrors : List String :=
  ["graph capacity exceeded", "slots region overflow", "arena exhausted"]

namespace Plan

/-- Ids come in order, and a dependency has a producer. -/
structure Bounded (s : Plan) : Prop where
  has_lt : ∀ i, s.Has i → i < s.next
  dep_has : ∀ e ∈ s.deps, s.Has e.1

/-- A task not asked for has no consumer. -/
theorem Bounded.out_eq_zero {s : Plan} (h : s.Bounded) {i : ℕ} (hi : ¬ s.Has i) : s.out i = 0 := by
  rw [Plan.out_eq_zero]
  intro c hc
  exact hi (h.dep_has _ hc)

theorem Bounded.create (mem : DecoderMem) : (create mem).Bounded :=
  ⟨fun i hi => absurd hi (by simp), fun e he => absurd he (by simp)⟩

/-- `p` has a consumer. -/
def Fed (s : Plan) (p : ℕ) : Prop := ∃ c, (p, c) ∈ s.deps

/-- `s'` continues `s`. -/
structure Le (s s' : Plan) : Prop where
  has : ∀ i, s.Has i → s'.Has i
  deps : ∀ e ∈ s.deps, e ∈ s'.deps
  bounded : s'.Bounded

theorem Le.trans {s s' s'' : Plan} (h : Le s s') (h' : Le s' s'') : Le s s'' :=
  ⟨fun i hi => h'.has i (h.has i hi), fun e he => h'.deps e (h.deps e he), h'.bounded⟩

theorem Le.fed {s s' : Plan} (h : Le s s') {p : ℕ} (hp : s.Fed p) : s'.Fed p := by
  obtain ⟨c, hc⟩ := hp
  exact ⟨c, h.deps _ hc⟩

theorem fed_iff_out {s : Plan} {p : ℕ} : s.Fed p ↔ s.out p ≠ 0 := by
  rw [Ne, out_eq_zero]
  simp [Fed]

end Plan

/-- Between `s` and `s'` the producers in `ins` get a consumer, and every new task but
those in `outs` has one. -/
structure Stage (s s' : Plan) (ins outs : Set ℕ) : Prop extends Plan.Le s s' where
  fed : ∀ i ∈ ins, s'.Fed i
  out : ∀ i ∈ outs, s'.Has i
  rest : ∀ i, s'.Has i → s.Has i ∨ s'.Fed i ∨ i ∈ outs

namespace Stage
variable {s s1 s2 : Plan} {ins ins' outs outs' : Set ℕ}

theorem refl (h : s.Bounded) : Stage s s ∅ ∅ where
  has _ hi := hi
  deps _ he := he
  bounded := h
  fed _ hi := absurd hi (Set.notMem_empty _)
  out _ hi := absurd hi (Set.notMem_empty _)
  rest _ hi := .inl hi

/-- Composition: what the first stage leaves open the second consumes, but for `keep`. -/
theorem seq (keep : Set ℕ) (h : Stage s s1 ins outs) (h' : Stage s1 s2 ins' outs')
    (hkeep : keep ⊆ outs) (houts : outs ⊆ ins' ∪ keep) :
    Stage s s2 (ins ∪ ins') (keep ∪ outs') where
  toLe := h.toLe.trans h'.toLe
  fed i hi := by
    rcases hi with hi | hi
    · exact h'.toLe.fed (h.fed i hi)
    · exact h'.fed i hi
  out i hi := by
    rcases hi with hi | hi
    · exact h'.has i (h.out i (hkeep hi))
    · exact h'.out i hi
  rest i hi := by
    rcases h'.rest i hi with hi1 | hf | ho
    · rcases h.rest i hi1 with hi0 | hf | ho
      · exact .inl hi0
      · exact .inr (.inl (h'.toLe.fed hf))
      · rcases houts ho with hin | hk
        · exact .inr (.inl (h'.fed i hin))
        · exact .inr (.inr (.inl hk))
    · exact .inr (.inl hf)
    · exact .inr (.inr (.inr ho))

/-- The second stage consumes all the first leaves open. -/
theorem andThen (h : Stage s s1 ins outs) (h' : Stage s1 s2 ins' outs') (houts : outs ⊆ ins') :
    Stage s s2 (ins ∪ ins') outs' := by
  have hseq := h.seq _ h' (Set.empty_subset outs) (houts.trans Set.subset_union_left)
  rw [Set.empty_union] at hseq
  exact hseq

/-- The second stage consumes nothing of the first. -/
theorem also (h : Stage s s1 ins outs) (h' : Stage s1 s2 ins' outs') :
    Stage s s2 (ins ∪ ins') (outs ∪ outs') :=
  h.seq _ h' subset_rfl Set.subset_union_right

theorem withMem (h : Stage s s1 ins outs) (mem : DecoderMem) :
    Stage s (s1.withMem mem) ins outs where
  has := h.has
  deps := h.deps
  bounded := ⟨h.bounded.has_lt, h.bounded.dep_has⟩
  fed := h.fed
  out := h.out
  rest := h.rest

theorem of_ins {ins' : Set ℕ} (h : Stage s s1 ins outs) (hins : ins' ⊆ ins) :
    Stage s s1 ins' outs :=
  { h with fed := fun i hi => h.fed i (hins hi) }

theorem of_outs (h : Stage s s1 ins outs) (houts : outs = outs') : Stage s s1 ins outs' :=
  houts ▸ h

end Stage

/-! ## Programs -/

/-- `x` runs from `s` as a stage, with admissible tasks. -/
def Wires {α : Type} (x : Build α) (s : Plan) (Q : α → Plan → Prop) : Prop :=
  CmdProg.wp (Plan.spec GraphImpl.Passes (· ∈ budgetErrors)) x Q s

namespace Wires
variable {α β : Type} {s : Plan}

theorem pure {a : α} {Q : α → Plan → Prop} (h : Q a s) : Wires (Pure.pure a) s Q := h

theorem mono {x : Build α} {Q Q' : α → Plan → Prop} (h : Wires x s Q)
    (hQ : ∀ a s', Q a s' → Q' a s') : Wires x s Q' :=
  CmdProg.wp_mono (Plan.spec_mono _ _) h hQ

theorem bind {x : Build α} {f : α → Build β} {P : α → Plan → Prop} {Q : β → Plan → Prop}
    (hx : Wires x s P) (hf : ∀ a s', P a s' → Wires (f a) s' Q) : Wires (x >>= f) s Q := by
  rw [Wires, CmdProg.wp_bind]
  exact mono hx hf

end Wires

open Build
variable {s : Plan}

/-! ## Commands -/

theorem wires_add {t : TaskParams} (hs : s.Bounded) (ht : GraphImpl.Passes t) :
    Wires (add t) s fun id s' => Stage s s' ∅ {id} ∧ (∀ i, s.Has i → i < id) ∧
      s' = s.add id t := by
  refine ⟨ht, fun id hid => ?_⟩
  refine ⟨⟨⟨fun i hi => ?_, fun e he => he, fun i hi => ?_, fun e he => ?_⟩, ?_, fun i hi => ?_,
    fun i hi => ?_⟩, fun i hi => lt_of_lt_of_le (hs.has_lt i hi) hid, rfl⟩
  · exact (Plan.has_add ..).mpr (.inr hi)
  · rcases (Plan.has_add ..).mp hi with rfl | hi
    · exact Nat.lt_succ_self _
    · exact lt_of_lt_of_le (hs.has_lt i hi) (hid.trans (Nat.le_succ _))
  · exact (Plan.has_add ..).mpr (.inr (hs.dep_has e he))
  · intro i hi
    exact absurd hi (Set.notMem_empty i)
  · exact (Plan.has_add ..).mpr (.inl hi)
  · rcases (Plan.has_add ..).mp hi with rfl | hi
    · exact .inr (.inr rfl)
    · exact .inl hi

/-- One more dependency. -/
theorem Stage.dep (hs : s.Bounded) {p c : ℕ} (hp : s.Has p) : Stage s (s.dep p c) {p} ∅ where
  has _ hi := hi
  deps _ he := List.mem_append_left _ he
  bounded := by
    refine ⟨hs.has_lt, fun e he => ?_⟩
    rcases List.mem_append.mp he with he | he
    · exact hs.dep_has e he
    · rw [List.mem_singleton.mp he]
      exact hp
  fed i hi := by
    rw [Set.mem_singleton_iff.mp hi]
    exact ⟨c, by simp⟩
  out i hi := absurd hi (Set.notMem_empty i)
  rest _ hi := .inl hi

/-- The same, met by an edge of the graph. -/
theorem Stage.link (hs : s.Bounded) {p c : ℕ} (hp : s.Has p) : Stage s (s.link p c) {p} ∅ :=
  have h := Stage.dep hs (c := c) hp
  ⟨⟨h.has, h.deps, h.bounded.has_lt, h.bounded.dep_has⟩, h.fed, h.out, h.rest⟩

theorem wires_depEdge {p c : ℕ} (hs : s.Bounded) (hp : s.Has p) (hc : s.Has c) (hpc : p < c) :
    Wires (depEdge p c) s fun _ s' => Stage s s' {p} ∅ ∧ s'.task = s.task ∧
      s'.deps = s.deps ++ [(p, c)] :=
  ⟨hp, hc, hpc, .dep hs hp, rfl, rfl⟩

theorem wires_slotAlloc {n : UInt32} (hs : s.Bounded) :
    Wires (slotAlloc n) s fun _ s' => Stage s s' ∅ ∅ ∧ s'.deps = s.deps := by
  change Meets _ (s.mem.slotAlloc n) _
  rw [DecoderMem.slotAlloc]
  split_ifs
  · exact (by decide : "slots region overflow" ∈ budgetErrors)
  · exact ⟨(Stage.refl hs).withMem _, rfl⟩

theorem wires_alloc {bytes align : UInt64} (hs : s.Bounded) :
    Wires (alloc bytes align) s fun _ s' => Stage s s' ∅ ∅ ∧ s'.deps = s.deps := by
  change Meets _ (s.mem.alloc bytes align) _
  rw [DecoderMem.alloc, Arena.alloc]
  split_ifs
  · exact (by decide : "arena exhausted" ∈ budgetErrors)
  · exact ⟨(Stage.refl hs).withMem _, rfl⟩

/-- Behind a piece that takes memory only. -/
theorem Wires.after {α β : Type} {x : Build α} {f : α → Build β} {ins : Set ℕ} {outs : β → Set ℕ}
    {P : β → Plan → Prop} (hx : Wires x s fun _ s' => Stage s s' ∅ ∅ ∧ s'.deps = s.deps)
    (hf : ∀ a s', Plan.Le s s' → Wires (f a) s' fun b s'' => Stage s' s'' ins (outs b) ∧ P b s'') :
    Wires (x >>= f) s fun b s' => Stage s s' ins (outs b) ∧ P b s' := by
  apply hx.bind
  intro a s1 ⟨h1, _⟩
  apply (hf a s1 h1.toLe).mono
  intro b s2 ⟨h2, hP⟩
  have h := h1.andThen h2 (Set.empty_subset ins)
  rw [Set.empty_union] at h
  exact ⟨h, hP⟩

theorem Wires.after_stage {α β : Type} {x : Build α} {f : α → Build β} {ins : Set ℕ}
    {outs : β → Set ℕ} (hx : Wires x s fun _ s' => Stage s s' ∅ ∅ ∧ s'.deps = s.deps)
    (hf : ∀ a s', Plan.Le s s' → Wires (f a) s' fun b s'' => Stage s' s'' ins (outs b)) :
    Wires (x >>= f) s fun b s' => Stage s s' ins (outs b) :=
  (Wires.after (P := fun _ _ => True) hx fun a s' h =>
    (hf a s' h).mono fun _ _ h => ⟨h, trivial⟩).mono fun _ _ h => h.1

theorem wires_bufAlloc {n : UInt32} (hs : s.Bounded) :
    Wires (bufAlloc n) s fun _ s' => Stage s s' ∅ ∅ ∧ s'.deps = s.deps := wires_alloc hs

theorem wires_bufAllocCols {n : UInt32} {m : ℕ} (hs : s.Bounded) :
    Wires (bufAllocCols n m) s fun _ s' => Stage s s' ∅ ∅ ∧ s'.deps = s.deps :=
  (wires_alloc hs).bind fun _ _ h => .pure h

theorem wires_slotAllocCols {n : UInt32} {m : ℕ} (hs : s.Bounded) :
    Wires (slotAllocCols n m) s fun _ s' => Stage s s' ∅ ∅ ∧ s'.deps = s.deps :=
  (wires_slotAlloc hs).bind fun _ _ h => .pure h

theorem wires_auxAlloc {a : Aux} (hs : s.Bounded) :
    Wires (auxAlloc a) s fun b s' => Stage s s' ∅ ∅ ∧ s'.deps = s.deps ∧ b = some a :=
  (wires_alloc hs).bind fun _ _ h => .pure ⟨h.1, h.2, rfl⟩

theorem wires_tensor {α : Type} {D : Decoder} {n : TensorName} {w : WTensor}
    (hw : D.weights n = some w) {f : WTensor → Build α} {Q : α → Plan → Prop}
    (h : Wires (f w) s Q) : Wires (tensor D n >>= f) s Q := by
  rw [tensor, hw]
  exact h

/-! ## Dependencies -/

theorem wires_dependOn {id : ℕ} {deps : List ℕ} (hs : s.Bounded) (hid : s.Has id)
    (hdeps : ∀ d ∈ deps, s.Has d ∧ d < id) :
    Wires (dependOn id deps) s fun _ s' => Stage s s' {d | d ∈ deps} ∅ ∧ s'.task = s.task ∧
      s'.deps = s.deps ++ deps.map fun d => (d, id) := by
  refine CmdProg.wp_forM (Plan.spec_mono _ _) (fun done s' => Stage s s' {d | d ∈ done} ∅ ∧
    s'.task = s.task ∧ s'.deps = s.deps ++ done.map fun d => (d, id)) ?_ ?_
  · exact ⟨(Stage.refl hs).of_ins (by simp), rfl, by simp⟩
  · intro done d rest s1 hl ⟨h1, htask1, hdeps1⟩
    obtain ⟨hd, hlt⟩ := hdeps d (by rw [hl]; simp)
    apply (wires_depEdge h1.bounded (h1.has d hd) (h1.has id hid) hlt).mono
    intro _ s2 ⟨h2, htask2, hdeps2⟩
    refine ⟨(h1.andThen h2 (Set.empty_subset _)).of_ins ?_, htask2.trans htask1, ?_⟩
    · intro i hi
      rcases List.mem_append.mp hi with hi | hi
      · exact .inl hi
      · exact .inr (by simpa using hi)
    · rw [hdeps2, hdeps1]
      simp

/-- `id` is a new task with record `t` and the dependencies `deps`. -/
structure Added (s s' : Plan) (t : TaskParams) (deps : List ℕ) (id : ℕ) : Prop where
  stage : Stage s s' {d | d ∈ deps} {id}
  task_eq : s'.task id = some t
  deps_eq : s'.deps = s.deps ++ deps.map fun d => (d, id)
  lt : ∀ i, s.Has i → i < id

/-- The consumers of a task that is no dependency of the new one. -/
theorem Added.out_eq {s s' : Plan} {t : TaskParams} {deps : List ℕ} {id i : ℕ}
    (h : Added s s' t deps id) (hi : i ∉ deps) : s'.out i = s.out i := by
  have hzero : ((deps.map fun d => (d, id)).countP fun e => e.1 = i) = 0 := by
    rw [List.countP_eq_zero]
    intro e he hei
    obtain ⟨d, hd, rfl⟩ := List.mem_map.mp he
    have hdi : d = i := by simpa using hei
    exact hi (hdi ▸ hd)
  rw [Plan.out, h.deps_eq, List.countP_append, hzero, Nat.add_zero, Plan.out]

/-- The new task has no consumer. -/
theorem Added.out_self {s s' : Plan} {t : TaskParams} {deps : List ℕ} {id : ℕ} (hs : s.Bounded)
    (h : Added s s' t deps id) (hdeps : ∀ d ∈ deps, s.Has d) : s'.out id = 0 := by
  have hnew : ¬ s.Has id := fun hid => lt_irrefl _ (h.lt id hid)
  rw [h.out_eq fun hid => hnew (hdeps id hid)]
  exact hs.out_eq_zero hnew

/-- A task with its dependencies; the other tasks stay as they are. -/
theorem wires_addWith_task {t : TaskParams} (deps : List ℕ) (hs : s.Bounded)
    (ht : GraphImpl.Passes t) (hdeps : ∀ d ∈ deps, s.Has d) :
    Wires (do
      let id ← add t
      dependOn id deps
      Pure.pure id) s fun id s' =>
        Added s s' t deps id ∧ s'.task = Function.update s.task id (some t) := by
  apply (wires_add hs ht).bind
  intro id s1 ⟨h1, hlt, hs1⟩
  have hid : s1.Has id := h1.out id rfl
  apply (wires_dependOn h1.bounded hid fun d hd => ⟨h1.has d (hdeps d hd), hlt d (hdeps d hd)⟩).bind
  intro _ s2 ⟨h2, htask2, hdeps2⟩
  refine .pure ⟨⟨?_, by simp [htask2, hs1], by rw [hdeps2, hs1, Plan.deps_add], hlt⟩, ?_⟩
  · have h := h1.seq {id} h2 subset_rfl Set.subset_union_right
    rw [Set.empty_union, Set.union_empty] at h
    exact h
  · rw [htask2, hs1]
    rfl

theorem wires_addWith {t : TaskParams} (deps : List ℕ) (hs : s.Bounded) (ht : GraphImpl.Passes t)
    (hdeps : ∀ d ∈ deps, s.Has d) :
    Wires (do
      let id ← add t
      dependOn id deps
      Pure.pure id) s fun id s' => Added s s' t deps id :=
  (wires_addWith_task deps hs ht hdeps).mono fun _ _ h => h.1

theorem wires_fanIn (producers : List ℕ) (hs : s.Bounded) (hp : ∀ p ∈ producers, s.Has p) :
    Wires (fanIn producers) s fun sig s' => Added s s' rawSignal producers sig :=
  (wires_addWith _ hs ⟨by decide, by decide, by decide, by decide⟩ hp)

/-- A record that is no dot needs a parameter block only. -/
theorem passes_of_kind {t : TaskParams} (hk : t.kind ≠ .STREAM_DOT ∧ t.kind ≠ .STREAM_DOT_IDX)
    (haux : TaskKind.RMSNORM.num ≤ t.kind.num → t.aux ≠ none) : GraphImpl.Passes t :=
  ⟨haux, fun h => absurd h hk.2, fun h => (h.elim hk.1 hk.2).elim,
    fun h => (h.elim hk.1 hk.2).elim⟩

theorem wires_addOp {k : TaskKind} {aux : Option Aux} (deps : List ℕ) (hs : s.Bounded)
    (hk : k ≠ .STREAM_DOT ∧ k ≠ .STREAM_DOT_IDX)
    (haux : TaskKind.RMSNORM.num ≤ k.num → aux ≠ none) (hdeps : ∀ d ∈ deps, s.Has d) :
    Wires (addOp k aux deps) s fun id s' =>
      Added s s' { kind := k, affinity := .CPU, aux := aux } deps id :=
  wires_addWith _ hs (passes_of_kind hk haux) hdeps

/-- A stage that takes memory, and a task. -/
theorem Added.after {s s1 s2 : Plan} {t : TaskParams} {deps : List ℕ} {id : ℕ}
    (h : Stage s s1 ∅ ∅) (hdeps1 : s1.deps = s.deps) (h' : Added s1 s2 t deps id) :
    Added s s2 t deps id := by
  have hstage := h.andThen h'.stage (Set.empty_subset _)
  rw [Set.empty_union] at hstage
  exact ⟨hstage, h'.task_eq, by rw [h'.deps_eq, hdeps1], fun i hi => h'.lt i (h.has i hi)⟩

theorem wires_addAuxOp {k : TaskKind} {a : Aux} (deps : List ℕ) (hs : s.Bounded)
    (hk : k ≠ .STREAM_DOT ∧ k ≠ .STREAM_DOT_IDX) (hdeps : ∀ d ∈ deps, s.Has d) :
    Wires (addAuxOp k a deps) s fun id s' =>
      Added s s' { kind := k, affinity := .CPU, aux := some a } deps id := by
  apply (wires_auxAlloc hs).bind
  intro b s1 ⟨h1, hdeps1, hb⟩
  subst hb
  apply (wires_addOp _ h1.bounded hk (fun _ => Option.some_ne_none a) fun d hd =>
    h1.has d (hdeps d hd)).mono
  intro id s2 h2
  exact h2.after h1 hdeps1

/-- The record of a quantization. -/
def actQ8 (x : Loc) (n : UInt32) : TaskParams :=
  { kind := .ACT_Q8, affinity := .CPU, x := x, y := x.add (xqOf n.toNat / 4), rows := n.toNat / 32,
    cols := n.toNat }

theorem wires_addActQ8 {dep : ℕ} {x : Loc} {n : UInt32} (hs : s.Bounded) (hdep : s.Has dep) :
    Wires (addActQ8 dep x n) s fun id s' => Added s s' (actQ8 x n) [dep] id := by
  apply (@wires_addOp s .ACT_Q8 none [dep] hs (by decide) (by decide) (by simpa using hdep)).bind
  intro id s1 h
  have h1 := h.stage
  have hid : s1.Has id := h1.out id rfl
  refine ⟨hid, fun t ht => ?_, ?_⟩
  · rw [h.task_eq, Option.some.injEq] at ht
    have hk : TaskKind.ACT_Q8 ≠ .STREAM_DOT ∧ TaskKind.ACT_Q8 ≠ .STREAM_DOT_IDX := by decide
    have hnum : ¬ TaskKind.RMSNORM.num ≤ TaskKind.ACT_Q8.num := by decide
    rw [← ht]
    exact passes_of_kind hk fun h => absurd h hnum
  · refine ⟨⟨⟨fun i hi => ?_, h1.deps, fun i hi => ?_, fun e he => ?_⟩, h1.fed, fun i hi => ?_,
      fun i hi => ?_⟩, ?_, h.deps_eq, h.lt⟩
    · exact (Plan.has_write ..).mpr (h1.has i hi)
    · exact h1.bounded.has_lt i ((Plan.has_write ..).mp hi)
    · exact (Plan.has_write ..).mpr (h1.bounded.dep_has e he)
    · exact (Plan.has_write ..).mpr (h1.out i hi)
    · exact h1.rest i ((Plan.has_write ..).mp hi)
    · rw [Plan.task_write, if_pos rfl, h.task_eq]
      rfl

/-! ## Loops over positions -/

/-- The ids a vector holds for the positions below `m`. -/
def idsOver (m : ℕ) (f : ℕ → ℕ) : Set ℕ := {i | ∃ p < m, i = f p}

/-- One id for all positions. -/
theorem idsOver_const {m : ℕ} (hm : 1 ≤ m) (id : ℕ) : idsOver m (fun _ => id) = {id} := by
  ext i
  constructor
  · intro ⟨_, _, hi⟩
    exact hi
  · intro hi
    exact ⟨0, hm, hi⟩

theorem mem_idsOver {m : ℕ} {f : ℕ → ℕ} {p : ℕ} (hp : p < m) : f p ∈ idsOver m f := ⟨p, hp, rfl⟩

/-- What the rounds of a loop contribute, by their results. -/
def gather {α : Type} (as : List α) (f : ℕ → α → Set ℕ) : Set ℕ :=
  {i | ∃ k a, as[k]? = some a ∧ i ∈ f k a}

@[simp] theorem gather_nil {α : Type} (f : ℕ → α → Set ℕ) : gather [] f = ∅ := by
  ext i
  simp [gather]

theorem gather_snoc {α : Type} (as : List α) (a : α) (f : ℕ → α → Set ℕ) :
    gather (as ++ [a]) f = gather as f ∪ f as.length a := by
  ext i
  constructor
  · intro ⟨k, b, hk, hi⟩
    rcases Nat.lt_trichotomy k as.length with hlt | rfl | hgt
    · rw [List.getElem?_append_left hlt] at hk
      exact .inl ⟨k, b, hk, hi⟩
    · rw [List.getElem?_concat_length, Option.some.injEq] at hk
      rw [hk]
      exact .inr hi
    · rw [List.getElem?_eq_none (by simp only [List.length_append, List.length_singleton]; omega)]
        at hk
      exact absurd hk (by simp)
  · intro hi
    rcases hi with ⟨k, b, hk, hi⟩ | hi
    · refine ⟨k, b, ?_, hi⟩
      rw [List.getElem?_append_left (List.getElem?_eq_some_iff.mp hk).1]
      exact hk
    · exact ⟨as.length, a, List.getElem?_concat_length, hi⟩

theorem gather_ids (as : List ℕ) : gather as (fun _ a => {a}) = {i | i ∈ as} := by
  ext i
  rw [Set.mem_ofPred_eq, List.mem_iff_getElem?]
  simp [gather]

theorem gather_getD {α : Type} [Inhabited α] (as : List α) (f : ℕ → α → Set ℕ) :
    gather as f = {i | ∃ p < as.length, i ∈ f p (as.getD p default)} := by
  ext i
  constructor
  · intro ⟨k, a, hk, hi⟩
    refine ⟨k, (List.getElem?_eq_some_iff.mp hk).1, ?_⟩
    rw [List.getD_eq_getElem?_getD, hk]
    exact hi
  · intro ⟨p, hp, hi⟩
    rw [List.getD_eq_getElem _ _ hp] at hi
    exact ⟨p, as[p], List.getElem?_eq_getElem hp, hi⟩

/-- The rounds of a loop are stages: so is the loop. -/
theorem wires_mapM {α : Type} {f : ℕ → Build α} {n : ℕ} (ins outs : ℕ → α → Set ℕ)
    (hs : s.Bounded) (h : ∀ k s1, k < n → Plan.Le s s1 →
      Wires (f k) s1 fun a s2 => Stage s1 s2 (ins k a) (outs k a)) :
    Wires ((List.range n).mapM f) s fun as s' => as.length = n ∧
      Stage s s' (gather as ins) (gather as outs) := by
  refine CmdProg.wp_mapM_range (Plan.spec_mono _ _) (fun n as s' => as.length = n ∧
    Stage s s' (gather as ins) (gather as outs)) ?_ ?_
  · refine ⟨rfl, ?_⟩
    rw [gather_nil, gather_nil]
    exact .refl hs
  · intro k as s1 hk ⟨hlen, h1⟩
    apply Wires.mono (h k s1 hk h1.toLe)
    intro a s2 h2
    refine ⟨by rw [List.length_append, hlen]; rfl, ?_⟩
    rw [gather_snoc, gather_snoc, hlen]
    exact h1.also h2

/-- A loop that collects ids. -/
theorem wires_mapM_ids {f : ℕ → Build ℕ} {n : ℕ} (ins : ℕ → ℕ → Set ℕ)
    (hs : s.Bounded) (h : ∀ k s1, k < n → Plan.Le s s1 →
      Wires (f k) s1 fun a s2 => Stage s1 s2 (ins k a) {a}) :
    Wires ((List.range n).mapM f) s fun as s' => as.length = n ∧
      Stage s s' (gather as ins) {i | i ∈ as} := by
  apply (wires_mapM ins (fun _ a => {a}) hs h).mono
  intro as s' h1
  rw [gather_ids] at h1
  exact h1

/-- A loop over the positions with a result for each. -/
theorem wires_positions {α : Type} [Inhabited α] {f : ℕ → Build α} {m : ℕ}
    (ins outs : ℕ → α → Set ℕ) (hs : s.Bounded) (h : ∀ p s1, p < m → Plan.Le s s1 →
      Wires (f p) s1 fun a s2 => Stage s1 s2 (ins p a) (outs p a)) :
    Wires (positions m f) s fun r s' =>
      Stage s s' {i | ∃ p < m, i ∈ ins p (r p)} {i | ∃ p < m, i ∈ outs p (r p)} := by
  apply (wires_mapM ins outs hs h).bind
  intro as s1 ⟨hlen, h1⟩
  rw [gather_getD, gather_getD, hlen] at h1
  exact .pure h1

/-- A loop over the positions with one id for each. -/
theorem wires_positions_ids {f : ℕ → Build ℕ} {m : ℕ} (ins : ℕ → Set ℕ) (hs : s.Bounded)
    (h : ∀ p s1, p < m → Plan.Le s s1 → Wires (f p) s1 fun a s2 => Stage s1 s2 (ins p) {a}) :
    Wires (positions m f) s fun r s' => Stage s s' {i | ∃ p < m, i ∈ ins p} (idsOver m r) :=
  wires_positions (fun p _ => ins p) (fun _ a => {a}) hs h

/-! ## Dots -/

/-- A dot needs the bytes of its rows, and with an id slot a stride. -/
theorem passes_of_dot {t : TaskParams} (hk : t.kind = .STREAM_DOT ∨ t.kind = .STREAM_DOT_IDX)
    (hidx : t.kind = .STREAM_DOT_IDX → t.aux ≠ none ∧ t.aux2 ≠ 0)
    (hcols : t.cols % blkElems t.fmt = 0)
    (hbytes : t.wBytes = t.rows * rowBytes t.fmt t.cols % 2 ^ 64) : GraphImpl.Passes t := by
  refine ⟨fun h => ?_, hidx, fun _ => hcols, fun _ => hbytes⟩
  rcases hk with hk | hk <;> rw [hk] at h <;> exact absurd h (by decide)

theorem toNat_wBytes {w : WTensor} (hw : w.Loaded) (r : UInt32) :
    (r.toUInt64 * w.rowBytes).toNat = r.toNat * rowBytes w.fmt w.cols.toNat % 2 ^ 64 := by
  rw [UInt64.toNat_mul, UInt32.toNat_toUInt64, hw.rowBytes_eq]

theorem passes_dotTile {o : BuildOpts} {w : WTensor} {x y : Loc} {idSlot : Option Loc}
    (hw : w.Loaded) (hidx : idSlot ≠ none → w.estride.toNat ≠ 0) (r0 r : UInt32) :
    GraphImpl.Passes (dotTile o w x y idSlot r0 r) := by
  cases idSlot with
  | none =>
    exact passes_of_dot (.inl rfl) (fun h => absurd h TaskKind.noConfusion) hw.blocks
      (toNat_wBytes hw r)
  | some p =>
    exact passes_of_dot (.inr rfl) (fun _ => ⟨Option.some_ne_none _, hidx (Option.some_ne_none p)⟩)
      hw.blocks (toNat_wBytes hw r)

theorem passes_dotTileM {o : BuildOpts} {w : WTensor} {x y : Cols} {m : ℕ} (hw : w.Loaded)
    (r0 r : UInt32) : GraphImpl.Passes (dotTileM o w x y m r0 r) :=
  passes_of_dot (.inl rfl) (fun h => absurd h TaskKind.noConfusion) hw.blocks (toNat_wBytes hw r)

section
variable {tile : UInt32 → UInt32 → TaskParams} {rows rowsz : UInt32} {deps : List ℕ}

/-- The rounds of the tile loop from row `r0` on; a tile that stays alone has no
consumer. -/
theorem wires_tileLoop (htile : ∀ r0 r, GraphImpl.Passes (tile r0 r)) (fuel : ℕ) (r0 : UInt32)
    (tiles : List ℕ) (hs : s.Bounded) (hdeps : ∀ d ∈ deps, s.Has d) :
    Wires (tileLoop tile rows rowsz deps fuel r0 tiles) s fun out s' => ∃ new, out = tiles ++ new ∧
      Stage s s' {d | d ∈ deps ∧ r0 < rows} {i | i ∈ new} ∧ (new = [] → s' = s) ∧
      ∀ t, new = [t] → s'.out t = 0 := by
  induction fuel generalizing r0 tiles s with
  | zero => exact (by decide : "graph capacity exceeded" ∈ budgetErrors)
  | succ fuel ih =>
    rw [tileLoop]
    by_cases hr : r0 < rows
    · rw [if_pos hr]
      have htask := wires_addWith deps hs
        (htile r0 (if rows - r0 < rowsz then rows - r0 else rowsz)) hdeps
      rw [Wires, CmdProg.wp_bind] at htask
      apply Wires.bind htask
      intro id s1 h1
      rw [CmdProg.wp_bind] at h1
      apply Wires.bind h1
      intro _ s2 h2
      have h2 : Added s s2 _ deps id := h2
      apply (ih (r0 + rowsz) (tiles ++ [id]) h2.stage.bounded fun d hd =>
        h2.stage.has d (hdeps d hd)).mono
      intro out s3 ⟨new, hout, h3, hnil, _⟩
      refine ⟨id :: new, by rw [hout]; simp, ?_, by simp, ?_⟩
      · have hset : {i | i ∈ id :: new} = {id} ∪ {i | i ∈ new} := by
          ext i
          simp
        rw [hset]
        exact (h2.stage.also h3).of_ins fun d hd => .inl hd.1
      · intro t ht
        obtain ⟨rfl, hnew⟩ := List.cons.inj ht
        rw [hnil hnew]
        exact h2.out_self hs hdeps
    · rw [if_neg hr]
      refine .pure ⟨[], by simp, ?_, fun _ => rfl, by simp⟩
      have hnone : {d | d ∈ deps ∧ r0 < rows} = ∅ := by
        ext d
        simp [hr]
      have hnil : {i : ℕ | i ∈ ([] : List ℕ)} = ∅ := by
        ext i
        simp
      rw [hnone, hnil]
      exact .refl hs

theorem wires_addTiles (htile : ∀ r0 r, GraphImpl.Passes (tile r0 r)) (hrows : rows ≠ 0)
    (hs : s.Bounded) (hdeps : ∀ d ∈ deps, s.Has d) :
    Wires (addTiles tile rows rowsz deps) s fun id s' =>
      Stage s s' {d | d ∈ deps} {id} ∧ s'.out id = 0 := by
  apply (wires_tileLoop htile (2 ^ 32) 0 [] hs hdeps).bind
  intro tiles s1 ⟨new, hnew, h1, _, hone⟩
  rw [List.nil_append] at hnew
  subst hnew
  have hpos : (0 : UInt32) < rows := UInt32.pos_iff_ne_zero.mpr hrows
  replace h1 : Stage s s1 {d | d ∈ deps} {i | i ∈ tiles} := h1.of_ins fun d hd => ⟨hd, hpos⟩
  have hfan : Wires (fanIn tiles) s1 fun id s' =>
      Stage s s' {d | d ∈ deps} {id} ∧ s'.out id = 0 := by
    apply (wires_fanIn _ h1.bounded fun p hp => h1.out p hp).mono
    intro id s2 h2
    exact ⟨(h1.andThen h2.stage subset_rfl).of_ins Set.subset_union_left,
      h2.out_self h1.bounded fun p hp => h1.out p hp⟩
  match tiles with
  | [t] =>
    have hset : {i | i ∈ [t]} = {t} := by
      ext i
      simp
    rw [hset] at h1
    exact .pure ⟨h1, hone t rfl⟩
  | [] => exact hfan
  | _ :: _ :: _ => exact hfan

end

/-- A tensor a dot can be taken with. -/
structure WTensor.Usable (w : WTensor) : Prop extends w.Loaded where
  rows_ne : w.rows ≠ 0

theorem wires_addDot {o : BuildOpts} {w : WTensor} {x y : Loc} (deps : List ℕ) {rowsz : UInt32}
    {idSlot : Option Loc} (hw : w.Usable) (hidx : idSlot ≠ none → w.estride.toNat ≠ 0)
    (hs : s.Bounded) (hdeps : ∀ d ∈ deps, s.Has d) :
    Wires (addDot o w x y deps rowsz idSlot) s fun id s' =>
      Stage s s' {d | d ∈ deps} {id} ∧ s'.out id = 0 :=
  wires_addTiles (passes_dotTile hw.toLoaded hidx) hw.rows_ne hs hdeps

theorem wires_addDotM {o : BuildOpts} {w : WTensor} {x y : Cols} {m : ℕ} {deps : List ℕ}
    {rowsz : UInt32} (hw : w.Usable) (hm : 1 ≤ m) (hs : s.Bounded) (hdeps : ∀ d ∈ deps, s.Has d) :
    Wires (addDotM o w x y m deps rowsz) s fun id s' =>
      Stage s s' {d | d ∈ deps} {id} ∧ s'.out id = 0 := by
  rw [addDotM]
  split_ifs
  · have hdot (p : ℕ) (s1 : Plan) (_ : p < m) (h1 : Plan.Le s s1) :
        Wires (addDot o w (x.col p) (y.col p) deps rowsz none) s1 fun id s' =>
          Stage s1 s' {d | d ∈ deps} {id} :=
      (wires_addDot _ hw (by simp) h1.bounded fun d hd => h1.has d (hdeps d hd)).mono fun _ _ h => h.1
    apply (wires_mapM_ids (fun _ _ => {d | d ∈ deps}) hs hdot).bind
    intro sigs s1 ⟨hlen, h1⟩
    apply (wires_fanIn _ h1.bounded fun p hp => h1.out p hp).mono
    intro id s2 h2
    refine ⟨(h1.andThen h2.stage subset_rfl).of_ins fun d hd => .inl ?_,
      h2.out_self h1.bounded fun p hp => h1.out p hp⟩
    exact ⟨0, sigs[0], List.getElem?_eq_getElem (hlen ▸ hm), hd⟩
  · exact wires_addDot _ hw (by simp) hs hdeps
  · exact wires_addTiles (passes_dotTileM hw.toLoaded) hw.rows_ne hs hdeps

theorem wires_stageDot {o : BuildOpts} {w : WTensor} {x y : Cols} {m : ℕ} {pdeps : ℕ → ℕ}
    {rowsz : UInt32} (hw : w.Usable) (hs : s.Bounded) (hdeps : ∀ p < m, s.Has (pdeps p)) :
    Wires (stageDot o w x y m pdeps rowsz) s fun sig s' =>
      Stage s s' (idsOver m pdeps) (idsOver m sig) := by
  rw [stageDot]
  split_ifs with hmc
  · have hdeps' : ∀ d ∈ (List.range m).map pdeps, s.Has d := by
      intro d hd
      obtain ⟨p, hp, rfl⟩ := List.mem_map.mp hd
      exact hdeps p (List.mem_range.mp hp)
    apply (wires_addDotM hw (by omega) hs hdeps').bind
    intro id s1 ⟨h1, _⟩
    have hins : idsOver m pdeps = {d | d ∈ (List.range m).map pdeps} := by
      ext d
      simp [idsOver, eq_comm]
    refine .pure ?_
    rw [hins, idsOver_const (by omega)]
    exact h1
  · have hdot (p : ℕ) (s1 : Plan) (hp : p < m) (h1 : Plan.Le s s1) :
        Wires (addDot o w (x.col p) (y.col p) [pdeps p] rowsz none) s1 fun id s' =>
          Stage s1 s' {d | d ∈ [pdeps p]} {id} := by
      refine (wires_addDot _ hw (by simp) h1.bounded fun d hd => ?_).mono fun _ _ h => h.1
      rw [List.mem_singleton.mp hd]
      exact h1.has _ (hdeps p hp)
    apply (wires_positions_ids _ hs hdot).mono
    intro r s1 h1
    exact h1.of_ins fun i hi => by simpa [idsOver] using hi

end FastLlm
