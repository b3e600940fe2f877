import FastLlm.Runtime.Graph

/-!
# What `freeze` accepts

`freeze` runs one pass of Kahn's algorithm over the table and one pass of checks
over the records.  Here its verdict is stated in terms of the calls that filled the
table: the edges asked for have no cycle, one record is the source of no edge, and
so on.

## Main definitions

* `Call`, `build` — a table filled by `add` and `edge` calls.
* `records`, `edges` — what the calls asked for.
* `Accepted` — the graphs that pass; `freeze_iff` — `freeze` succeeds on no others.
-/

namespace FastLlm
namespace GraphImpl

/-! ## The calls -/

/-- A call of the builder's interface before `freeze`. -/
inductive Call
  | add (t : TaskParams)
  | edge (p c : ℕ)
  deriving DecidableEq, Repr

def call (g : GraphImpl) : Call → Except String GraphImpl
  | .add t => (g.add t).map Prod.fst
  | .edge p c => g.edge p c

/-- The table after the calls, in order; it dies with the first call that does. -/
def build (maxTasks : UInt32) (calls : List Call) : Except String GraphImpl :=
  calls.foldlM call (create maxTasks)

/-- The records added, in order: record `i` is task `i`. -/
def records (calls : List Call) : List TaskParams :=
  calls.filterMap fun
    | .add t => some t
    | .edge _ _ => none

/-- The edges asked for, with repetitions. -/
def edges (calls : List Call) : List (ℕ × ℕ) :=
  calls.filterMap fun
    | .add _ => none
    | .edge p c => some (p, c)

/-- Some call makes `c` a consumer of `p`. -/
def Leads (calls : List Call) (p c : ℕ) : Prop := (p, c) ∈ edges calls

/-- The number of edges into `c`. -/
def edgesInto (calls : List Call) (c : ℕ) : ℕ := (edges calls).countP fun e => e.2 = c

/-- What the calls leave in the table. -/
structure Holds (calls : List Call) (g : GraphImpl) : Prop where
  wf : WF g
  fresh : g.frozen = false
  size_eq : g.size = (records calls).length
  params_eq : ∀ i < g.size, (records calls)[i]? = some (g.task i).toTaskParams
  cons_eq : ∀ p, g.cons p = ((edges calls).filter fun e => e.1 = p).map Prod.snd
  dep_init : ∀ c, (g.task c).depInit = edgesInto calls c

theorem holds_create (maxTasks : UInt32) : Holds [] (create maxTasks) where
  wf := .create maxTasks
  fresh := rfl
  size_eq := rfl
  params_eq i hi := absurd hi (Nat.not_lt_zero i)
  cons_eq p := by
    rw [cons_of_le (Nat.zero_le p)]
    rfl
  dep_init c := by
    rw [task_of_le (Nat.zero_le c)]
    rfl

/-- The step lemma: one more call. -/
theorem Holds.call {calls : List Call} {g g' : GraphImpl} {k : Call} (h : Holds calls g)
    (hk : g.call k = .ok g') : Holds (calls ++ [k]) g' := by
  cases k with
  | add t =>
    obtain ⟨⟨g1, id⟩, hadd, rfl⟩ : ∃ r, g.add t = .ok r ∧ r.1 = g' := by
      cases hr : g.add t with
      | error e => simp [GraphImpl.call, hr, Except.map] at hk
      | ok r => exact ⟨r, rfl, by simpa [GraphImpl.call, hr, Except.map] using hk⟩
    obtain ⟨hsize, hlt, hnew, hcons⟩ := add_spec hadd
    obtain ⟨hopen, -, -, hg1⟩ := add_ok hadd
    have hrec : records (calls ++ [.add t]) = records calls ++ [t] := by simp [records]
    have hedges : edges (calls ++ [.add t]) = edges calls := by simp [edges]
    refine ⟨h.wf.add hadd, by simp [hg1, hopen], ?_, fun i hi => ?_, fun p => ?_, fun c => ?_⟩
    · change g1.size = _
      rw [hsize, h.size_eq, hrec, List.length_append, List.length_singleton]
    · change i < g1.size at hi
      rw [hrec]
      rcases Nat.lt_or_ge i g.size with hi' | hi'
      · rw [hlt i hi', List.getElem?_append_left (h.size_eq ▸ hi'), h.params_eq i hi']
      · obtain rfl : i = g.size := by omega
        rw [hnew, List.getElem?_append_right h.size_eq.ge, h.size_eq]
        simp
    · rw [hcons, h.cons_eq, hedges]
    · have hdep : (g1.task c).depInit = (g.task c).depInit := by
        rcases Nat.lt_trichotomy c g.size with hc | rfl | hc
        · rw [hlt c hc]
        · rw [hnew, task_of_le le_rfl]
          rfl
        · rw [task_of_le (by omega), task_of_le (by omega)]
      rw [hdep, h.dep_init, edgesInto, edgesInto, hedges]
  | edge p c =>
    obtain ⟨hsize, htask⟩ := edge_spec hk
    obtain ⟨hwf, -, hcons⟩ := h.wf.edge hk
    obtain ⟨hopen, -, -, hpc, -, hg'⟩ := edge_ok hk
    have hrec : records (calls ++ [.edge p c]) = records calls := by simp [records]
    have hedges : edges (calls ++ [.edge p c]) = edges calls ++ [(p, c)] := by simp [edges]
    refine ⟨hwf, by simp [hg', hopen], ?_, fun i hi => ?_, fun q => ?_, fun d => ?_⟩
    · rw [hsize, h.size_eq, hrec]
    · rw [hrec, h.params_eq i (hsize ▸ hi), htask]
      split_ifs <;> rfl
    · rw [hcons, hedges, List.filter_append, List.map_append, ← h.cons_eq]
      by_cases hqp : q = p
      · subst hqp
        simp
      · simp [hqp, Ne.symm hqp]
    · have hold := h.dep_init d
      rw [htask, edgesInto, hedges, List.countP_append]
      by_cases hcd : c = d
      · subst hcd
        simp [hold, edgesInto]
      · by_cases hpd : p = d
        · simp [hcd, hpd, hold, edgesInto]
        · simp [hcd, hpd, hold, edgesInto]

theorem Holds.mem_cons {calls : List Call} {g : GraphImpl} (h : Holds calls g) (p c : ℕ) :
    c ∈ g.cons p ↔ Leads calls p c := by
  rw [h.cons_eq, Leads]
  simp

/-- The run lemma. -/
theorem holds_build {maxTasks : UInt32} {calls : List Call} {g : GraphImpl}
    (h : build maxTasks calls = .ok g) : Holds calls g := by
  induction calls using List.reverseRecOn generalizing g with
  | nil =>
    obtain rfl : create maxTasks = g := by simpa [build, pure, Except.pure] using h
    exact holds_create maxTasks
  | append_singleton calls k ih =>
    rw [build, List.foldlM_append, bind_ok] at h
    obtain ⟨g1, h1, h2⟩ := h
    have hk : g1.call k = .ok g := by simpa [List.foldlM_cons, bind_ok, pure, Except.pure] using h2
    exact (ih h1).call hk

/-! ## The checks -/

/-- The kind, aux, stride, column and byte checks on one record. -/
structure Passes (t : TaskParams) : Prop where
  aux : TaskKind.RMSNORM.num ≤ t.kind.num → t.aux ≠ none
  idx : t.kind = .STREAM_DOT_IDX → t.aux ≠ none ∧ t.aux2 ≠ 0
  cols : t.kind = .STREAM_DOT ∨ t.kind = .STREAM_DOT_IDX → t.cols % blkElems t.fmt = 0
  wBytes : t.kind = .STREAM_DOT ∨ t.kind = .STREAM_DOT_IDX →
    t.wBytes = t.rows * rowBytes t.fmt t.cols % 2 ^ 64

theorem checkTask_ok {t : TaskParams} : checkTask t = .ok () ↔ Passes t := by
  by_cases hdot : t.kind ≠ .STREAM_DOT ∧ t.kind ≠ .STREAM_DOT_IDX
  · have hkind : ¬ kNumTaskKinds ≤ t.kind.num := by cases t.kind <;> decide
    simp only [checkTask, hdot, ne_eq, not_false_eq_true, and_self, if_true, bind_ok, dieIf_ok]
    constructor
    · rintro ⟨_, -, haux⟩
      refine ⟨fun hk hnone => haux ⟨hk, hnone⟩, fun hk => absurd hk hdot.2, ?_, ?_⟩ <;>
      · rintro (hk | hk)
        · exact absurd hk hdot.1
        · exact absurd hk hdot.2
    · intro h
      exact ⟨(), hkind, fun hc => h.aux hc.1 hc.2⟩
  · have hor : t.kind = .STREAM_DOT ∨ t.kind = .STREAM_DOT_IDX := by tauto
    simp only [checkTask, hdot, if_false, bind_ok, dieIf_ok, not_ne_iff]
    constructor
    · rintro ⟨_, hidx, _, hcols, hbytes⟩
      refine ⟨fun hk => ?_, fun hk => ?_, fun _ => hcols, fun _ => hbytes⟩
      · rcases hor with h | h <;> rw [h] at hk <;> exact absurd hk (by decide)
      · exact ⟨fun hnone => hidx ⟨hk, .inl hnone⟩, fun hz => hidx ⟨hk, .inr hz⟩⟩
    · intro h
      refine ⟨(), ?_, (), h.cols hor, h.wBytes hor⟩
      rintro ⟨hk, hnone | hz⟩
      · exact (h.idx hk).1 hnone
      · exact (h.idx hk).2 hz

/-! ## The verdict -/

/-- A record that is the source of no edge. -/
def IsSink (calls : List Call) (s : ℕ) : Prop :=
  s < (records calls).length ∧ ∀ c, ¬ Leads calls s c

/-- The graphs `freeze` is meant to accept. -/
structure Accepted (calls : List Call) : Prop where
  acyclic : ∀ i, ¬ Relation.TransGen (Leads calls) i i
  sink : ∃! s, IsSink calls s
  signal : ∀ s t, IsSink calls s → (records calls)[s]? = some t → t.kind = .SIGNAL
  checked : ∀ t ∈ records calls, Passes t

/-- A graph without a cycle, with one sink that is a `SIGNAL`, freezes when its records
pass. -/
theorem WF.freeze_eq {g : GraphImpl} {x : ℕ} (hw : WF g) (hf : g.frozen = false)
    (hac : Acyclic g.cons g.size) (hsink : ∀ i, i < g.size ∧ g.cons i = [] ↔ i = x)
    (hkind : (g.task x).kind = .SIGNAL) (hpass : ∀ u ∈ g.tasks, Passes u.toTaskParams) :
    g.freeze = .ok { g with terminal := x, frozen := true } := by
  have hlt := fun p hp c hc => (hw.cons_lt p hp c hc).1
  have hlen := (length_kahnOrder_iff hlt hw.dep_init).mpr hac
  set order := kahnOrder g.cons g.size fun i => (g.task i).depInit with horder
  have hperm : order.Perm (List.range g.size) := kahnOrder_perm hlt hw.dep_init hlen
  have hmem (i : ℕ) : i ∈ order.filter (fun i => (g.cons i).isEmpty) ↔ i = x := by
    rw [List.mem_filter, hperm.mem_iff, List.mem_range, List.isEmpty_iff, hsink]
  have hone : order.filter (fun i => (g.cons i).isEmpty) = [x] := by
    have hnd : (order.filter fun i => (g.cons i).isEmpty).Nodup :=
      (hperm.nodup_iff.mpr List.nodup_range).filter _
    apply List.perm_singleton.mp
    apply (List.perm_ext_iff_of_nodup hnd (List.nodup_singleton x)).mpr
    intro i
    rw [hmem, List.mem_singleton]
  obtain ⟨h1, h2, -, h4⟩ := foldl_scanVisit g order { terminal := g.terminal }
  have hterm : (order.foldl g.scanVisit { terminal := g.terminal }).terminal = x := by
    have hx := h4 (by rw [hone]; simp)
    rw [hone, List.mem_singleton] at hx
    exact hx
  have hseen : (order.foldl g.scanVisit { terminal := g.terminal }).seen = g.size := by
    rw [h1, hlen]
    simp
  have hsinks : (order.foldl g.scanVisit { terminal := g.terminal }).sinks = 1 := by
    rw [h2, hone]
    rfl
  have hchecked : g.tasks.forM (fun t => checkTask t.toTaskParams) = .ok () :=
    forM_ok.mpr fun u hu => checkTask_ok.mpr (hpass u hu)
  simp only [freeze, hf, Bool.false_eq_true, if_false, bind_ok, dieIf_ok, kahn_fst, not_ne_iff]
  refine ⟨(), hseen, (), hsinks, (), ?_, (), hchecked, ?_⟩
  · rw [hterm]; exact hkind
  · rw [hterm]

section
variable {calls : List Call} {g : GraphImpl} (h : Holds calls g)
include h

/-- The edges of the table are the edges asked for. -/
theorem Holds.edgeOf_iff (p c : ℕ) : EdgeOf g.cons g.size p c ↔ Leads calls p c := by
  rw [← h.mem_cons]
  constructor
  · exact fun he => he.2
  · intro hc
    refine ⟨?_, hc⟩
    by_contra hp
    rw [cons_of_le (by omega)] at hc
    exact absurd hc List.not_mem_nil

theorem Holds.edgeOf_eq : EdgeOf g.cons g.size = Leads calls := by
  ext p c
  exact h.edgeOf_iff p c

theorem Holds.isSink_iff (s : ℕ) : IsSink calls s ↔ s < g.size ∧ g.cons s = [] := by
  rw [IsSink, h.size_eq, List.eq_nil_iff_forall_not_mem]
  simp only [h.mem_cons]

theorem Holds.order_length_iff :
    (kahnOrder g.cons g.size fun i => (g.task i).depInit).length = g.size ↔
      ∀ i, ¬ Relation.TransGen (Leads calls) i i := by
  rw [← h.edgeOf_eq]
  exact length_kahnOrder_iff (fun p hp c hc => (h.wf.cons_lt p hp c hc).1) h.wf.dep_init

theorem Holds.mem_records {t : TaskParams} :
    t ∈ records calls ↔ ∃ u ∈ g.tasks, u.toTaskParams = t := by
  have hlen : g.tasks.length = (records calls).length := h.size_eq
  constructor
  · intro ht
    obtain ⟨i, hi, rfl⟩ := List.mem_iff_getElem.mp ht
    have hig : i < g.size := by rw [h.size_eq]; exact hi
    have hp := h.params_eq i hig
    rw [List.getElem?_eq_getElem hi, Option.some.injEq] at hp
    refine ⟨g.task i, ?_, hp.symm⟩
    rw [task, List.getD_eq_getElem _ _ (hlen ▸ hi)]
    exact List.getElem_mem _
  · rintro ⟨u, hu, rfl⟩
    obtain ⟨i, hi, rfl⟩ := List.mem_iff_getElem.mp hu
    have hp := h.params_eq i hi
    rw [task, List.getD_eq_getElem _ _ hi] at hp
    exact List.mem_of_getElem? hp

theorem Holds.kind_eq {s : ℕ} (hs : s < g.size) :
    (∀ t, (records calls)[s]? = some t → t.kind = .SIGNAL) ↔ (g.task s).kind = .SIGNAL := by
  have hp := h.params_eq s hs
  constructor
  · intro ht
    exact ht _ hp
  · intro hk t ht
    rw [hp, Option.some.injEq] at ht
    rw [← ht]
    exact hk

/-- An accepted graph freezes, with its sink as the terminal. -/
theorem Holds.freeze_of_accepted (ha : Accepted calls) :
    ∃ g', g.freeze = .ok g' := by
  obtain ⟨x, hx, huniq⟩ := ha.sink
  have hac : Acyclic g.cons g.size := by
    rw [Acyclic, h.edgeOf_eq]
    exact ha.acyclic
  have hsink (i : ℕ) : i < g.size ∧ g.cons i = [] ↔ i = x := by
    rw [← h.isSink_iff]
    exact ⟨fun hi => huniq i hi, fun hi => hi ▸ hx⟩
  have hkind : (g.task x).kind = .SIGNAL :=
    (h.kind_eq ((h.isSink_iff x).mp hx).1).mp fun t => ha.signal x t hx
  exact ⟨_, h.wf.freeze_eq h.fresh hac hsink hkind fun u hu =>
    ha.checked _ (h.mem_records.mpr ⟨u, hu, rfl⟩)⟩

/-- What `freeze` accepted is a graph it is meant to accept, and its terminal is
the sink. -/
theorem Holds.accepted_of_freeze {g' : GraphImpl} (hf : g.freeze = .ok g') :
    Accepted calls ∧ (∀ s, IsSink calls s ↔ s = g'.terminal) ∧ g'.tasks = g.tasks := by
  obtain ⟨-, hok, htasks⟩ := freeze_ok hf h.fresh h.wf
  have htask (i : ℕ) : g'.task i = g.task i := by rw [task, task, htasks]
  have hcons : g'.cons = g.cons := by
    funext i
    rw [cons, cons, htask]
  have hsize : g'.size = g.size := by rw [size, size, htasks]
  have hsink (s : ℕ) : IsSink calls s ↔ s = g'.terminal := by
    rw [h.isSink_iff, ← hcons, ← hsize]
    constructor
    · rintro ⟨hs, hc⟩
      exact (hok.sink_iff s hs).mp hc
    · rintro rfl
      exact ⟨hok.terminal_lt, (hok.sink_iff _ hok.terminal_lt).mpr rfl⟩
  have hlt : g'.terminal < g.size := hsize ▸ hok.terminal_lt
  refine ⟨⟨?_, ⟨g'.terminal, (hsink _).mpr rfl, fun s hs => (hsink s).mp hs⟩, fun s t hs => ?_,
    fun t ht => ?_⟩, hsink, htasks⟩
  · apply h.order_length_iff.mp
    have hlen := hok.order_length
    simpa only [hcons, hsize, htask] using hlen
  · rw [(hsink s).mp hs]
    exact (h.kind_eq hlt).mpr (htask _ ▸ hok.terminal_kind) t
  · obtain ⟨u, hu, rfl⟩ := h.mem_records.mp ht
    exact checkTask_ok.mp (hok.checked u (htasks ▸ hu))

/-- In an accepted graph every task leads to the sink. -/
theorem Holds.path_to_sink (ha : Accepted calls) {s : ℕ} (hs : ∀ x, IsSink calls x ↔ x = s)
    {i : ℕ} (hi : i < (records calls).length) : Relation.ReflTransGen (Leads calls) i s := by
  have hac : Acyclic g.cons g.size := by
    rw [Acyclic, h.edgeOf_eq]
    exact ha.acyclic
  obtain ⟨x, hx, hnil, hpath⟩ := hac.exists_path_sink
    (fun p hp c hc => (h.wf.cons_lt p hp c hc).1) i (h.size_eq ▸ hi)
  obtain rfl : x = s := (hs x).mp ((h.isSink_iff x).mpr ⟨hx, hnil⟩)
  rw [h.edgeOf_eq] at hpath
  exact hpath

end

/-! ## Building a graph -/

theorem call_add (g : GraphImpl) (t : TaskParams) (hf : g.frozen = false)
    (hmax : g.size < g.max.toNat) : ∃ g', g.call (.add t) = .ok g' ∧ g'.max = g.max := by
  simp [call, add, hf, Nat.not_le.mpr hmax, Except.map]

theorem call_edge (g : GraphImpl) {p c : ℕ} (hf : g.frozen = false) (hp : p < g.size)
    (hc : c < g.size) (hpc : p ≠ c) (hfan : (g.cons p).length < kMaxConsumers) :
    ∃ g', g.call (.edge p c) = .ok g' ∧ g'.max = g.max := by
  have hbad : ¬ (g.size ≤ p ∨ g.size ≤ c ∨ p = c) := by omega
  simp [call, edge, hf, hbad, Nat.not_le.mpr hfan]

theorem build_snoc {maxTasks : UInt32} {calls : List Call} {k : Call} {g g' : GraphImpl}
    (h : build maxTasks calls = .ok g) (hk : g.call k = .ok g') :
    build maxTasks (calls ++ [k]) = .ok g' := by
  rw [build, List.foldlM_append, bind_ok]
  exact ⟨g, h, by simp [List.foldlM_cons, hk, bind, Except.bind, pure, Except.pure]⟩

/-- The calls that add the records `ts` and then the edges `es`. -/
def addsThenEdges (ts : List TaskParams) (es : List (ℕ × ℕ)) : List Call :=
  ts.map .add ++ es.map fun e => .edge e.1 e.2

theorem records_addsThenEdges (ts : List TaskParams) (es : List (ℕ × ℕ)) :
    records (addsThenEdges ts es) = ts := by
  simp [records, addsThenEdges, List.filterMap_append, List.filterMap_map]

theorem edges_addsThenEdges (ts : List TaskParams) (es : List (ℕ × ℕ)) :
    edges (addsThenEdges ts es) = es := by
  simp [edges, addsThenEdges, List.filterMap_append, List.filterMap_map]

/-- Records that fit, and edges between them with one consumer for each producer, can be
built. -/
theorem exists_build {maxTasks : UInt32} {ts : List TaskParams} {es : List (ℕ × ℕ)}
    (hts : ts.length ≤ maxTasks.toNat)
    (hes : ∀ e ∈ es, e.1 < ts.length ∧ e.2 < ts.length ∧ e.1 ≠ e.2)
    (hnd : (es.map Prod.fst).Nodup) :
    ∃ g, build maxTasks (addsThenEdges ts es) = .ok g ∧ g.max = maxTasks := by
  induction es using List.reverseRecOn with
  | nil =>
    induction ts using List.reverseRecOn with
    | nil => exact ⟨create maxTasks, rfl, rfl⟩
    | append_singleton ts t ih =>
      rw [List.length_append, List.length_singleton] at hts
      obtain ⟨g, hg, hmax⟩ := ih (by omega) (by simp)
      have hh := holds_build hg
      have hsize : g.size < g.max.toNat := by
        rw [hh.size_eq, records_addsThenEdges, hmax]
        omega
      obtain ⟨g', hg', hmax'⟩ := call_add g t hh.fresh hsize
      refine ⟨g', ?_, hmax'.trans hmax⟩
      simpa [addsThenEdges] using build_snoc hg hg'
  | append_singleton es e ih =>
    obtain ⟨g, hg, hmax⟩ := ih (fun x hx => hes x (List.mem_append_left _ hx))
      (by rw [List.map_append] at hnd; exact (List.nodup_append.mp hnd).1)
    have hh := holds_build hg
    obtain ⟨hp, hc, hpc⟩ := hes e (by simp)
    have hsize : g.size = ts.length := by rw [hh.size_eq, records_addsThenEdges]
    -- the producer has no consumer yet
    have hcons : g.cons e.1 = [] := by
      rw [List.eq_nil_iff_forall_not_mem]
      intro c hc
      rw [hh.mem_cons, Leads, edges_addsThenEdges] at hc
      rw [List.map_append] at hnd
      have hmem : e.1 ∈ es.map Prod.fst := List.mem_map.mpr ⟨(e.1, c), hc, rfl⟩
      exact (List.nodup_append.mp hnd).2.2 e.1 hmem e.1 (by simp) rfl
    obtain ⟨g', hg', hmax'⟩ := call_edge g hh.fresh (hsize ▸ hp) (hsize ▸ hc) hpc
      (by rw [hcons]; decide)
    refine ⟨g', ?_, hmax'.trans hmax⟩
    simpa [addsThenEdges, List.append_assoc] using build_snoc hg hg'

theorem built_build {maxTasks : UInt32} {calls : List Call} {g : GraphImpl}
    (h : build maxTasks calls = .ok g) : Built g := by
  induction calls using List.reverseRecOn generalizing g with
  | nil =>
    obtain rfl : create maxTasks = g := by simpa [build, pure, Except.pure] using h
    exact .create maxTasks
  | append_singleton calls k ih =>
    rw [build, List.foldlM_append, bind_ok] at h
    obtain ⟨g1, h1, h2⟩ := h
    have hk : g1.call k = .ok g := by simpa [List.foldlM_cons, bind_ok, pure, Except.pure] using h2
    cases k with
    | add t =>
      cases hr : g1.add t with
      | error e => simp [GraphImpl.call, hr, Except.map] at hk
      | ok r =>
        obtain rfl : r.1 = g := by simpa [GraphImpl.call, hr, Except.map] using hk
        exact .add (ih h1) hr
    | edge p c => exact .edge (ih h1) hk

theorem frozen_of_freeze {g g' : GraphImpl} (h : g.freeze = .ok g') : g'.frozen = true := by
  cases hf : g.frozen with
  | true =>
    obtain rfl : g = g' := by simpa [freeze, hf] using h
    exact hf
  | false =>
    simp only [freeze, hf, Bool.false_eq_true, if_false, bind_ok] at h
    obtain ⟨_, -, _, -, _, -, _, -, h⟩ := h
    obtain rfl := Except.ok.inj h
    rfl

/-- An accepted sequence of calls gives a frozen graph with its records and edges. -/
theorem exists_frozen {maxTasks : UInt32} {calls : List Call} {g : GraphImpl}
    (h : build maxTasks calls = .ok g) (ha : Accepted calls) :
    ∃ G : FrozenGraph, G.n = (records calls).length ∧
      (∀ i < G.n, (records calls)[i]? = some (G.task i).toTaskParams) ∧
      (∀ p, G.cons p = ((edges calls).filter fun e => e.1 = p).map Prod.snd) ∧
      ∀ c, G.depInit c = edgesInto calls c := by
  have hh := holds_build h
  obtain ⟨g', hf⟩ := hh.freeze_of_accepted ha
  obtain ⟨-, -, htasks⟩ := hh.accepted_of_freeze hf
  have htask (i : ℕ) : g'.task i = g.task i := by rw [task, task, htasks]
  refine ⟨⟨g', .freeze (built_build h) hf, frozen_of_freeze hf⟩, ?_, fun i hi => ?_, fun p => ?_,
    fun c => ?_⟩
  · rw [← hh.size_eq, FrozenGraph.n, size, size, htasks]
  · have hi' : i < g.size := by
      rw [FrozenGraph.n, size, htasks] at hi
      exact hi
    rw [FrozenGraph.task, htask]
    exact hh.params_eq i hi'
  · rw [← hh.cons_eq, FrozenGraph.cons, cons, cons, htask]
  · rw [← hh.dep_init, FrozenGraph.depInit, FrozenGraph.task, htask]

end GraphImpl
end FastLlm
