import FastLlm.Lib.Kahn
import FastLlm.Runtime.Task
import Mathlib.Algebra.BigOperators.Group.Finset.Piecewise
import Mathlib.Data.List.GetD

/-!
# Graphs of tasks

A graph is filled with `add` and `edge`, its records may be written until the end,
and `freeze` checks it.  What the executors rely on — consumers in range, dependency
counts equal to the number of edges, no cycle, one sink — is derived from these
operations.

## Main definitions

* `GraphImpl` with `add`, `edge`, `freeze` — the builder's interface.
* `Built` — the graphs that come about through it.
* `FrozenGraph` — a graph `freeze` accepted, with what it guarantees.
* `runSerial` — the serial reference executor.
-/

namespace FastLlm

/-- The task table with its capacity. -/
structure GraphImpl where
  tasks : List Task
  max : UInt32
  terminal : ℕ
  frozen : Bool
  deriving DecidableEq, Repr

namespace GraphImpl

def create (maxTasks : UInt32) : GraphImpl := ⟨[], maxTasks, 0, false⟩

/-- The record of task `i`. -/
def task (g : GraphImpl) (i : ℕ) : Task := g.tasks.getD i default

def size (g : GraphImpl) : ℕ := g.tasks.length

def cons (g : GraphImpl) (i : ℕ) : List ℕ := (g.task i).consumers

/-- Append a record and return its id. -/
def add (g : GraphImpl) (t : TaskParams) : Except String (GraphImpl × ℕ) :=
  if g.frozen then .error "add() after freeze()"
  else if g.max.toNat ≤ g.size then .error "graph capacity exceeded"
  else .ok ({ g with tasks := g.tasks ++ [{ t with id := g.size }] }, g.size)

/-- Make `c` a consumer of `p`. -/
def edge (g : GraphImpl) (p c : ℕ) : Except String GraphImpl :=
  if g.frozen then .error "edge() after freeze()"
  else if g.size ≤ p ∨ g.size ≤ c ∨ p = c then .error "bad edge"
  else if kMaxConsumers ≤ (g.cons p).length then .error "consumer fan-out exceeded"
  else .ok { g with
    tasks := (g.tasks.modify p fun t => { t with consumers := t.consumers ++ [c] }).modify c
      fun t => { t with depInit := t.depInit + 1 } }

/-- A write to a record through `tasks()`; the graph's own fields stay. -/
def write (g : GraphImpl) (i : ℕ) (f : TaskParams → TaskParams) : GraphImpl :=
  { g with tasks := g.tasks.modify i fun t => { t with toTaskParams := f t.toTaskParams } }

/-- What the cycle check counts. -/
structure Scan where
  seen : ℕ := 0
  sinks : ℕ := 0
  terminal : ℕ

def scanVisit (g : GraphImpl) (s : Scan) (id : ℕ) : Scan :=
  let s := { s with seen := s.seen + 1 }
  if (g.cons id).isEmpty then { s with sinks := s.sinks + 1, terminal := id } else s

/-- `if (c) die(msg)`. -/
def dieIf (c : Prop) [Decidable c] (msg : String) : Except String Unit :=
  if c then .error msg else .ok ()

/-- The checks on one record. -/
def checkTask (t : TaskParams) : Except String Unit :=
  if t.kind ≠ .STREAM_DOT ∧ t.kind ≠ .STREAM_DOT_IDX then do
    dieIf (kNumTaskKinds ≤ t.kind.num) "unknown task kind"
    dieIf (TaskKind.RMSNORM.num ≤ t.kind.num ∧ t.aux = none) "decode op without aux param block"
  else do
    dieIf (t.kind = .STREAM_DOT_IDX ∧ (t.aux = none ∨ t.aux2 = 0))
      "STREAM_DOT_IDX without id slot / stride"
    dieIf (t.cols % blkElems t.fmt ≠ 0) "STREAM_DOT cols not a multiple of the format block size"
    -- the product is 64 bits wide
    dieIf (t.wBytes ≠ t.rows * rowBytes t.fmt t.cols % 2 ^ 64) "STREAM_DOT w_bytes mismatch"

def freeze (g : GraphImpl) : Except String GraphImpl :=
  if g.frozen then .ok g
  else do
    let s := (kahn g.cons g.size (fun i => (g.task i).depInit) g.scanVisit
      { terminal := g.terminal }).1
    dieIf (s.seen ≠ g.size) "cycle in graph"
    dieIf (s.sinks ≠ 1) "graph must have exactly one sink (terminal SIGNAL)"
    dieIf ((g.task s.terminal).kind ≠ .SIGNAL) "terminal must be SIGNAL"
    g.tasks.forM fun t => checkTask t.toTaskParams
    .ok { g with terminal := s.terminal, frozen := true }

/-- The graphs the interface can produce. -/
inductive Built : GraphImpl → Prop
  | create (maxTasks : UInt32) : Built (create maxTasks)
  | add {g g' : GraphImpl} {t : TaskParams} {id : ℕ} : Built g → g.add t = .ok (g', id) → Built g'
  | edge {g g' : GraphImpl} {p c : ℕ} : Built g → g.edge p c = .ok g' → Built g'
  | write {g : GraphImpl} {i : ℕ} {f : TaskParams → TaskParams} :
      Built g → g.frozen = false → Built (g.write i f)
  | freeze {g g' : GraphImpl} : Built g → g.freeze = .ok g' → Built g'

/-! ## Well-formed task tables -/

/-- What `add` and `edge` keep true of the table. -/
structure WF (g : GraphImpl) : Prop where
  size_le : g.size ≤ g.max.toNat
  id_eq : ∀ i < g.size, (g.task i).id = i
  cons_lt : ∀ p < g.size, ∀ c ∈ g.cons p, c < g.size ∧ c ≠ p
  fan_out : ∀ p, (g.cons p).length ≤ kMaxConsumers
  dep_init : ∀ c, (g.task c).depInit = openEdges g.cons g.size [] c

theorem task_of_le {g : GraphImpl} {i : ℕ} (h : g.size ≤ i) : g.task i = default :=
  List.getD_eq_default _ _ h

theorem cons_of_le {g : GraphImpl} {i : ℕ} (h : g.size ≤ i) : g.cons i = [] := by
  rw [cons, task_of_le h]; rfl

private theorem getD_modify (l : List Task) (i j : ℕ) (f : Task → Task) :
    (l.modify i f).getD j default =
      if i = j ∧ j < l.length then f (l.getD j default) else l.getD j default := by
  simp only [List.getD_eq_getElem?_getD, List.getElem?_modify]
  by_cases hj : j < l.length
  · by_cases hij : i = j <;> simp [hj, hij]
  · simp [hj]

theorem WF.create (maxTasks : UInt32) : WF (create maxTasks) where
  size_le := Nat.zero_le _
  id_eq := by simp [GraphImpl.create, size]
  cons_lt := by simp [GraphImpl.create, size]
  fan_out p := by simp [cons_of_le (g := GraphImpl.create maxTasks) (Nat.zero_le p)]
  dep_init c := by
    rw [task_of_le (g := GraphImpl.create maxTasks) (Nat.zero_le c)]
    rfl

theorem add_ok {g g' : GraphImpl} {t : TaskParams} {id : ℕ} (h : g.add t = .ok (g', id)) :
    g.frozen = false ∧ g.size < g.max.toNat ∧ id = g.size ∧
      g' = { g with tasks := g.tasks ++ [{ t with id := g.size }] } := by
  simp only [add] at h
  split_ifs at h with hf hm
  obtain ⟨rfl, rfl⟩ := Prod.mk.inj (Except.ok.inj h)
  exact ⟨by simpa using hf, by omega, rfl, rfl⟩

theorem edge_ok {g g' : GraphImpl} {p c : ℕ} (h : g.edge p c = .ok g') :
    g.frozen = false ∧ p < g.size ∧ c < g.size ∧ p ≠ c ∧ (g.cons p).length < kMaxConsumers ∧
      g' = { g with
        tasks := (g.tasks.modify p fun t => { t with consumers := t.consumers ++ [c] }).modify c
          fun t => { t with depInit := t.depInit + 1 } } := by
  simp only [edge] at h
  split_ifs at h with hf hb hk
  obtain rfl := Except.ok.inj h
  exact ⟨by simpa using hf, by omega, by omega, by omega, by omega, rfl⟩

/-- An appended record is a node without edges; the others stay. -/
theorem add_spec {g g' : GraphImpl} {t : TaskParams} {id : ℕ} (hadd : g.add t = .ok (g', id)) :
    g'.size = g.size + 1 ∧ (∀ i < g.size, g'.task i = g.task i) ∧
      g'.task g.size = { t with id := g.size } ∧ ∀ i, g'.cons i = g.cons i := by
  obtain ⟨-, -, -, rfl⟩ := add_ok hadd
  set g' : GraphImpl := { g with tasks := g.tasks ++ [{ t with id := g.size }] } with hg'
  have hsize : g'.size = g.size + 1 := by simp [hg', size]
  have hlt : ∀ i < g.size, g'.task i = g.task i := fun i hi =>
    List.getD_append _ _ _ _ hi
  have hnew : g'.task g.size = { t with id := g.size } := by
    simp [hg', task, size]
  refine ⟨hsize, hlt, hnew, fun i => ?_⟩
  rcases Nat.lt_trichotomy i g.size with hi | rfl | hi
  · simp only [cons, hlt i hi]
  · rw [cons, hnew, cons_of_le le_rfl]
  · rw [cons_of_le (by omega), cons_of_le (by omega)]

theorem WF.add {g g' : GraphImpl} {t : TaskParams} {id : ℕ} (h : WF g)
    (hadd : g.add t = .ok (g', id)) : WF g' := by
  obtain ⟨hsize, hlt, hnew, hcons⟩ := add_spec hadd
  obtain ⟨-, hmax, -, hg'⟩ := add_ok hadd
  have hmax' : g'.max = g.max := by rw [hg']
  refine ⟨by rw [hsize, hmax']; exact hmax, fun i hi => ?_, fun p hp c hc => ?_, fun p => ?_,
    fun c => ?_⟩
  · rcases Nat.lt_or_ge i g.size with hi' | hi'
    · rw [hlt i hi', h.id_eq i hi']
    · obtain rfl : i = g.size := by omega
      rw [hnew]
  · rw [hcons] at hc
    rcases Nat.lt_or_ge p g.size with hp' | hp'
    · have := h.cons_lt p hp' c hc
      omega
    · simp [cons_of_le hp'] at hc
  · rw [hcons]; exact h.fan_out p
  · have hcg : g'.cons = g.cons := funext hcons
    rw [hcg, hsize, openEdges_nil, Finset.sum_range_succ, ← openEdges_nil,
      cons_of_le (le_refl g.size), List.count_nil, Nat.add_zero]
    rcases Nat.lt_or_ge c g.size with hc | hc
    · rw [hlt c hc, h.dep_init c]
    · have hz := h.dep_init c
      rw [task_of_le hc] at hz
      rcases Nat.eq_or_lt_of_le hc with rfl | hc'
      · rw [hnew]; exact hz
      · rw [task_of_le (by omega)]; exact hz

/-- An edge writes its two records only. -/
theorem edge_spec {g g' : GraphImpl} {p c : ℕ} (hedge : g.edge p c = .ok g') :
    g'.size = g.size ∧ ∀ i, g'.task i =
      if c = i then { g.task i with depInit := (g.task i).depInit + 1 }
      else if p = i then { g.task i with consumers := (g.task i).consumers ++ [c] }
      else g.task i := by
  obtain ⟨-, hp, hc, hpc, -, rfl⟩ := edge_ok hedge
  refine ⟨by simp [size], fun i => ?_⟩
  simp only [task, getD_modify, List.length_modify]
  have hp' : p < g.tasks.length := hp
  have hc' : c < g.tasks.length := hc
  by_cases hci : c = i
  · subst hci
    simp [hc', hpc]
  · by_cases hpi : p = i
    · subst hpi
      simp [hci, hp']
    · simp [hci, hpi]

/-- An edge adds one consumer to its producer and one dependency to its consumer. -/
theorem WF.edge {g g' : GraphImpl} {p c : ℕ} (h : WF g) (hedge : g.edge p c = .ok g') :
    WF g' ∧ g'.size = g.size ∧
      ∀ i, g'.cons i = if i = p then g.cons p ++ [c] else g.cons i := by
  obtain ⟨hsize, htask⟩ := edge_spec hedge
  obtain ⟨-, hp, hc, hpc, hfan, hg'⟩ := edge_ok hedge
  have hmax : g'.max = g.max := by rw [hg']
  have hcons : ∀ i, g'.cons i = if i = p then g.cons p ++ [c] else g.cons i := by
    intro i
    simp only [cons, htask]
    by_cases hci : c = i
    · subst hci
      simp [Ne.symm hpc]
    · by_cases hpi : p = i
      · subst hpi; simp [hci]
      · simp [hci, hpi, Ne.symm hpi]
  refine ⟨⟨by rw [hsize, hmax]; exact h.size_le, fun i hi => ?_, fun q hq d hd => ?_, fun q => ?_,
    fun d => ?_⟩, hsize, hcons⟩
  · rw [hsize] at hi
    rw [htask]
    split_ifs <;> exact h.id_eq i hi
  · rw [hsize] at hq ⊢
    rw [hcons] at hd
    split_ifs at hd with hqp
    · subst hqp
      rcases List.mem_append.mp hd with hd | hd
      · exact h.cons_lt q hq d hd
      · obtain rfl : d = c := by simpa using hd
        exact ⟨hc, hpc.symm⟩
    · exact h.cons_lt q hq d hd
  · rw [hcons]
    split_ifs
    · rw [List.length_append, List.length_singleton]
      exact hfan
    · exact h.fan_out q
  · have hcount : ∀ q, (g'.cons q).count d =
        (g.cons q).count d + if q = p then (if c = d then 1 else 0) else 0 := by
      intro q
      rw [hcons]
      by_cases hqp : q = p
      · subst hqp
        by_cases hcd : c = d <;> simp [hcd]
      · simp [hqp]
    rw [openEdges_nil, hsize, Finset.sum_congr rfl fun q _ => hcount q, Finset.sum_add_distrib,
      Finset.sum_ite_eq', if_pos (Finset.mem_range.mpr hp), ← openEdges_nil, htask]
    have := h.dep_init d
    split_ifs with hcd hpd
    · push_cast; simp [this]
    · simpa using this
    · simpa using this

theorem WF.write {g : GraphImpl} (h : WF g) (i : ℕ) (f : TaskParams → TaskParams) :
    WF (g.write i f) := by
  have hsize : (g.write i f).size = g.size := by simp [GraphImpl.write, size]
  have htask : ∀ j, ((g.write i f).task j).id = (g.task j).id ∧
      (g.write i f).cons j = g.cons j ∧ ((g.write i f).task j).depInit = (g.task j).depInit := by
    intro j
    simp only [GraphImpl.write, cons, task, getD_modify]
    split_ifs <;> exact ⟨rfl, rfl, rfl⟩
  have hcons : (g.write i f).cons = g.cons := funext fun j => (htask j).2.1
  refine ⟨by rw [hsize]; exact h.size_le, fun j hj => ?_, ?_, ?_, fun c => ?_⟩
  · rw [(htask j).1]; exact h.id_eq j (hsize ▸ hj)
  · rw [hcons, hsize]; exact h.cons_lt
  · rw [hcons]; exact h.fan_out
  · rw [(htask c).2.2, hcons, hsize]; exact h.dep_init c

/-! ## Frozen graphs -/

/-- What `freeze` establishes. -/
structure FreezeOK (g : GraphImpl) : Prop where
  order_length : (kahnOrder g.cons g.size fun i => (g.task i).depInit).length = g.size
  terminal_lt : g.terminal < g.size
  sink_iff : ∀ i < g.size, g.cons i = [] ↔ i = g.terminal
  terminal_kind : (g.task g.terminal).kind = .SIGNAL
  checked : ∀ t ∈ g.tasks, checkTask t.toTaskParams = .ok ()

/-- The counts of the cycle check, as folds over the order. -/
theorem foldl_scanVisit (g : GraphImpl) (l : List ℕ) (s : Scan) :
    let r := l.foldl g.scanVisit s
    r.seen = s.seen + l.length ∧ r.sinks = s.sinks + (l.filter fun i => (g.cons i).isEmpty).length ∧
      (r.terminal = s.terminal ∨ r.terminal ∈ l.filter fun i => (g.cons i).isEmpty) ∧
      ((l.filter fun i => (g.cons i).isEmpty) ≠ [] →
        r.terminal ∈ l.filter fun i => (g.cons i).isEmpty) := by
  induction l generalizing s with
  | nil => simp
  | cons i l ih =>
      obtain ⟨h1, h2, h3, h4⟩ := ih (g.scanVisit s i)
      simp only [List.foldl_cons]
      by_cases hi : (g.cons i).isEmpty
      · have hv : g.scanVisit s i =
            { s with seen := s.seen + 1, sinks := s.sinks + 1, terminal := i } := by
          simp [scanVisit, hi]
        rw [hv] at h1 h2 h3 h4 ⊢
        simp only [List.filter_cons, hi, if_true, List.length_cons] at h1 h2 h3 h4 ⊢
        refine ⟨by omega, by omega, .inr ?_, fun _ => ?_⟩ <;>
        · rcases h3 with h3 | h3
          · rw [h3]; exact List.mem_cons_self ..
          · exact List.mem_cons_of_mem _ h3
      · have hv : g.scanVisit s i = { s with seen := s.seen + 1 } := by simp [scanVisit, hi]
        rw [hv] at h1 h2 h3 h4 ⊢
        simp only [List.filter_cons, hi, List.length_cons] at h1 h2 h3 h4 ⊢
        exact ⟨by omega, h2, h3, h4⟩

theorem dieIf_ok {c : Prop} [Decidable c] {msg : String} {u : Unit} :
    dieIf c msg = .ok u ↔ ¬ c := by
  unfold dieIf
  split_ifs with h <;> simp [h]

theorem bind_ok {α β : Type} {x : Except String α} {f : α → Except String β} {b : β} :
    (x >>= f) = .ok b ↔ ∃ a, x = .ok a ∧ f a = .ok b := by
  cases x <;> simp [bind, Except.bind]

theorem forM_ok {l : List Task} {f : Task → Except String Unit} {u : Unit} :
    l.forM f = .ok u ↔ ∀ t ∈ l, f t = .ok () := by
  induction l with
  | nil => exact ⟨fun _ => by simp, fun _ => rfl⟩
  | cons a l ih =>
      change (f a >>= fun _ => l.forM f) = .ok u ↔ _
      rw [bind_ok, List.forall_mem_cons, ← ih]
      constructor
      · rintro ⟨_, ha, hl⟩
        exact ⟨ha, hl⟩
      · rintro ⟨ha, hl⟩
        exact ⟨(), ha, hl⟩

theorem freeze_ok {g g' : GraphImpl} (h : g.freeze = .ok g') (hf : g.frozen = false) (hw : WF g) :
    WF g' ∧ FreezeOK g' ∧ g'.tasks = g.tasks := by
  simp only [freeze, hf, Bool.false_eq_true, if_false, bind_ok, dieIf_ok, kahn_fst,
    not_ne_iff] at h
  obtain ⟨_, hseen, _, hsinks, _, hkind, _, hchk, h⟩ := h
  set order := kahnOrder g.cons g.size fun i => (g.task i).depInit with horder
  obtain ⟨h1, h2, h3, h4⟩ := foldl_scanVisit g order { terminal := g.terminal }
  set r := order.foldl g.scanVisit { terminal := g.terminal }
  obtain rfl := Except.ok.inj h
  have hlen : order.length = g.size := by rw [← hseen, h1]; simp
  have hperm : order.Perm (List.range g.size) :=
    kahnOrder_perm (fun p hp c hc => (hw.cons_lt p hp c hc).1) hw.dep_init hlen
  have hone : (order.filter fun i => (g.cons i).isEmpty).length = 1 := by
    rw [hsinks] at h2
    simpa using h2.symm
  obtain ⟨x, hx⟩ := List.length_eq_one_iff.mp hone
  have hterm : r.terminal = x := by
    have := h4 (by rw [hx]; simp)
    simpa [hx] using this
  have hmem : ∀ i, i ∈ order.filter (fun i => (g.cons i).isEmpty) ↔ i = x := by simp [hx]
  refine ⟨⟨hw.size_le, hw.id_eq, hw.cons_lt, hw.fan_out, hw.dep_init⟩,
    ⟨hlen, ?_, fun i hi => ?_, hkind, fun t ht => forM_ok.mp hchk t ht⟩, rfl⟩
  · have := (hmem x).mpr rfl
    rw [List.mem_filter, hperm.mem_iff, List.mem_range] at this
    exact hterm ▸ this.1
  · have := hmem i
    rw [List.mem_filter, hperm.mem_iff, List.mem_range, List.isEmpty_iff] at this
    change g.cons i = [] ↔ i = r.terminal
    rw [hterm, ← this]
    exact ⟨fun h => ⟨hi, h⟩, fun h => h.2⟩

/-- Every graph of the interface is well formed, and a frozen one passed the checks. -/
theorem Built.wf {g : GraphImpl} (h : Built g) : WF g ∧ (g.frozen = true → FreezeOK g) := by
  induction h with
  | create maxTasks => exact ⟨.create maxTasks, by simp [GraphImpl.create]⟩
  | add _ hadd ih =>
      refine ⟨ih.1.add hadd, fun hf => ?_⟩
      obtain ⟨hg, -, -, rfl⟩ := add_ok hadd
      simp [hg] at hf
  | edge _ hedge ih =>
      refine ⟨(ih.1.edge hedge).1, fun hf => ?_⟩
      obtain ⟨hg, -, -, -, -, rfl⟩ := edge_ok hedge
      simp [hg] at hf
  | write _ hg ih => exact ⟨ih.1.write _ _, fun hf => by simp [GraphImpl.write, hg] at hf⟩
  | freeze _ hfr ih =>
      rename_i g g' _
      cases hg : g.frozen with
      | true =>
          obtain rfl : g = g' := by simpa [GraphImpl.freeze, hg] using hfr
          exact ih
      | false =>
          obtain ⟨hw, hok, -⟩ := freeze_ok hfr hg ih.1
          exact ⟨hw, fun _ => hok⟩

end GraphImpl

/-- A graph that `freeze` accepted. -/
structure FrozenGraph where
  g : GraphImpl
  built : g.Built
  frozen : g.frozen = true

namespace FrozenGraph
variable (G : FrozenGraph)

/-- The number of tasks. -/
def n : ℕ := G.g.size

def task (i : ℕ) : Task := G.g.task i

def cons (i : ℕ) : List ℕ := G.g.cons i

def terminal : ℕ := G.g.terminal

/-- `dep_init` of every record. -/
def depInit (i : ℕ) : ℤ := (G.task i).depInit

/-- There is an edge from `p` to `c`. -/
def Edge (p c : ℕ) : Prop := EdgeOf G.cons G.n p c

theorem wf : G.g.WF := G.built.wf.1

theorem freezeOK : G.g.FreezeOK := G.built.wf.2 G.frozen

theorem cons_lt {p c : ℕ} (hp : p < G.n) (hc : c ∈ G.cons p) : c < G.n :=
  (G.wf.cons_lt p hp c hc).1

theorem depInit_eq (c : ℕ) : G.depInit c = openEdges G.cons G.n [] c := G.wf.dep_init c

theorem n_lt : G.n < 2 ^ 32 := lt_of_le_of_lt G.wf.size_le G.g.max.toNat_lt

theorem cons_of_le {i : ℕ} (h : G.n ≤ i) : G.cons i = [] := GraphImpl.cons_of_le h

/-- The order in which the serial executor visits the tasks. -/
def order : List ℕ := kahnOrder G.cons G.n G.depInit

theorem order_perm : G.order.Perm (List.range G.n) :=
  kahnOrder_perm (fun _ hp _ hc => G.cons_lt hp hc) G.depInit_eq G.freezeOK.order_length

theorem order_topo : Topo G.Edge G.order :=
  (kahn_spec (fun _ hp _ hc => G.cons_lt hp hc) G.depInit_eq (fun (u : Unit) _ => u) ()).2.1

theorem mem_order {i : ℕ} : i ∈ G.order ↔ i < G.n := by
  rw [G.order_perm.mem_iff, List.mem_range]

end FrozenGraph

/-! ## The serial reference executor -/

/-- Memory and the tasks executed so far. -/
structure SerialState where
  mem : Loc → Word
  done : List ℕ

/-- `run_serial`: the result, and the ready stack the loop stopped with. -/
def runSerial (E : FloatOps) (G : FrozenGraph) (m : Loc → Word) : SerialState × List ℕ :=
  kahn G.cons G.n G.depInit (fun s i =>
    { mem := (execTaskScalar E (G.task i).toTaskParams).final s.mem, done := s.done ++ [i] })
    { mem := m, done := [] }

/-- The program of task `i`. -/
def FrozenGraph.prog (G : FrozenGraph) (E : FloatOps) (i : ℕ) : Exec Unit :=
  execTaskScalar E (G.task i).toTaskParams

/-- The serial executor runs until nothing is ready, and executes `order`. -/
theorem runSerial_eq (E : FloatOps) (G : FrozenGraph) (m : Loc → Word) :
    runSerial E G m = (⟨execAll (G.prog E) G.order m, G.order⟩, []) := by
  have hend := (kahn_spec (fun _ hp _ hc => G.cons_lt hp hc) G.depInit_eq
    (fun (s : SerialState) i => { mem := (G.prog E i).final s.mem, done := s.done ++ [i] })
    ⟨m, []⟩).1
  have hfst := kahn_fst G.cons G.n G.depInit
    (fun (s : SerialState) i => { mem := (G.prog E i).final s.mem, done := s.done ++ [i] }) ⟨m, []⟩
  refine Prod.ext (hfst.trans ?_) hend
  suffices H : ∀ (l d : List ℕ) (m : Loc → Word),
      l.foldl (fun (s : SerialState) i =>
        { mem := (G.prog E i).final s.mem, done := s.done ++ [i] }) ⟨m, d⟩ =
        ⟨execAll (G.prog E) l m, d ++ l⟩ from H G.order [] m
  intro l
  induction l with
  | nil => simp
  | cons i l ih => intro d m; simp [ih]

end FastLlm
