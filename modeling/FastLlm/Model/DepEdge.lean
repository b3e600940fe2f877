import FastLlm.Model.Relay

/-!
# What `dep_edge` promises

A run of `add` and `dep_edge` calls in any order, with any number of consumers for a
producer.  The tasks added and the dependencies asked for form a plan; the graph meets
it through relay signals that the caller never sees.

## Main definitions

* `Requested` — the graphs such runs reach, with the requests made.
* `Through` — a path whose inner tasks are relays.
* `depEdge_ok` — the graph against the requests.
-/

namespace FastLlm

/-- `s` collects the tasks added and the dependencies asked for on the way to `st`. -/
inductive Requested : Plan → BuildState → Prop
  | create (maxTasks : UInt32) (mem : DecoderMem) :
      Requested (Plan.create mem) ⟨GraphImpl.create maxTasks, fun _ => none, mem⟩
  | add {s : Plan} {st : BuildState} {t : TaskParams} {g : GraphImpl} {id : ℕ} :
      Requested s st → st.g.add t = .ok (g, id) → Requested (s.add id t) { st with g := g }
  | dep {s : Plan} {st st' : BuildState} {p c : ℕ} :
      Requested s st → s.Has p → s.Has c → st.depEdge p c = .ok st' → Requested (s.dep p c) st'

/-- From `p` to `c` by tasks nobody asked for. -/
def Through (s : Plan) (g : GraphImpl) (p c : ℕ) : Prop :=
  ∃ q, Relation.ReflTransGen (fun a b => b ∈ g.cons a ∧ ¬ s.Has b) p q ∧ c ∈ g.cons q

/-- A task without a slot left for `c` has its own edges; only one with slots left may ask
for itself in vain. -/
theorem BuildState.depEdge_self {st : BuildState} {p : ℕ}
    (hlt : (st.g.cons p).length < kMaxConsumers - 1) (hf : st.g.frozen = false) :
    st.depEdge p p = .error "bad edge" := by
  have hedge : st.g.edge p p = .error "bad edge" := by
    rw [GraphImpl.edge, hf]
    simp
  rw [depEdge, if_pos hlt, hedge]
  rfl

theorem Planted.fresh {s : Plan} {st : BuildState} (h : Planted s st) : st.g.frozen = false := by
  obtain ⟨own, ht, -⟩ := h
  exact ht.fresh

/-- A request dies when the table is full, or asks a task for itself. -/
theorem Planted.depEdge_error {s : Plan} {st : BuildState} (h : Planted s st) {p c : ℕ} {e : String}
    (hp : s.Has p) (hc : s.Has c) (he : st.depEdge p c = .error e) :
    e = "graph capacity exceeded" ∨ (p = c ∧ e = "bad edge") := by
  by_cases hself : p = c ∧ (st.g.cons p).length < kMaxConsumers - 1
  · obtain ⟨rfl, hlt⟩ := hself
    rw [BuildState.depEdge_self hlt h.fresh] at he
    exact .inr ⟨rfl, (Except.error.inj he).symm⟩
  · have hmeets := h.depEdge (· = "graph capacity exceeded") rfl hp hc
      fun hlt hpc => hself ⟨hpc, hlt⟩
    exact .inl (hmeets.of_error he)

/-- Every run keeps the graph in step with the requests. -/
theorem Requested.planted {s : Plan} {st : BuildState} (h : Requested s st) : Planted s st := by
  induction h with
  | create maxTasks mem => exact .create maxTasks mem
  | add _ hadd ih => exact (ih.add hadd).2.2
  | @dep s st st' p c _ hp hc hdep ih =>
    have hpc : (st.g.cons p).length < kMaxConsumers - 1 → p ≠ c := by
      rintro hlt rfl
      rw [BuildState.depEdge_self hlt ih.fresh] at hdep
      exact absurd hdep (by simp)
    exact ((ih.depEdge (· = "graph capacity exceeded") rfl hp hc hpc).of_ok hdep).1

namespace Tree
variable {own : ℕ → ℕ} {idle : Set ℕ} {s : Plan} {g : GraphImpl}

/-- A path through relays stays with the owner. -/
theorem own_of_relays (h : Tree own idle s g) {p q : ℕ}
    (hpath : Relation.ReflTransGen (fun a b => b ∈ g.cons a ∧ ¬ s.Has b) p q) : own q = own p := by
  induction hpath with
  | refl => rfl
  | tail _ he ih =>
    rcases h.edge _ _ he.1 with ⟨hhas, -⟩ | ⟨-, hown, -⟩
    · exact absurd hhas he.2
    · exact hown.trans ih

/-- Every task hangs under its owner. -/
theorem relays_to (h : Tree own idle s g) {q : ℕ} (hq : q < g.size) :
    Relation.ReflTransGen (fun a b => b ∈ g.cons a ∧ ¬ s.Has b) (own q) q := by
  induction q using Nat.strong_induction_on with
  | h q ih =>
    by_cases hhas : s.Has q
    · rw [h.own_self q hhas]
    · obtain ⟨r, hown, hmem⟩ := h.parent q hq hhas
      rw [← hown]
      have hr : Relation.ReflTransGen (fun a b => b ∈ g.cons a ∧ ¬ s.Has b) (own r) r := by
        rcases h.edge r q hmem with ⟨hq', -⟩ | ⟨-, -, hr | hr⟩
        · exact absurd hq' hhas
        · rw [h.own_self r hr]
        · exact ih r hr (lt_of_mem_cons hmem)
      exact hr.tail ⟨hmem, hhas⟩

/-- The tasks reached through relays are the consumers asked for. -/
theorem through_iff (h : Tree own idle s g) {p c : ℕ} (hp : s.Has p) :
    s.Has c ∧ Through s g p c ↔ (p, c) ∈ s.deps := by
  constructor
  · intro ⟨hc, q, hpath, hmem⟩
    rcases h.edge q c hmem with ⟨-, hdep⟩ | ⟨hnot, -⟩
    · rw [h.own_of_relays hpath, h.own_self p hp] at hdep
      exact hdep
    · exact absurd hc hnot
  · intro hdep
    obtain ⟨q, hown, hmem⟩ := h.granted _ hdep
    have hpath := h.relays_to (lt_of_mem_cons hmem)
    rw [hown] at hpath
    exact ⟨(h.dep_has _ hdep).2, q, hpath, hmem⟩

/-- One edge leads to a relay. -/
theorem relay_once (h : Tree own idle s g) {i : ℕ} (hi : i < g.size) (hr : ¬ s.Has i) :
    (g.task i).kind = .SIGNAL ∧ ∑ q ∈ Finset.range g.size, (g.cons q).count i = 1 := by
  constructor
  · have hrec := h.relay_params i hi hr
    exact congrArg TaskParams.kind hrec
  · have hdep := h.wf.dep_init i
    rw [h.once i hi hr, openEdges_nil] at hdep
    exact_mod_cast hdep.symm

end Tree

/-- Whatever is asked for: no request dies on a fan-out; the tasks that a producer reaches
through relays are the consumers asked for; a relay has one incoming edge; and the graph
has no cycle when the requests have none. -/
theorem depEdge_ok {s : Plan} {st : BuildState} (h : Requested s st) :
    (∀ p c e, s.Has p → s.Has c → st.depEdge p c = .error e →
      e = "graph capacity exceeded" ∨ (p = c ∧ e = "bad edge")) ∧
    (∀ p c, s.Has p → (s.Has c ∧ Through s st.g p c ↔ (p, c) ∈ s.deps)) ∧
    (∀ i < st.g.size, ¬ s.Has i → (st.g.task i).kind = .SIGNAL ∧
      ∑ q ∈ Finset.range st.g.size, (st.g.cons q).count i = 1) ∧
    (s.NoCycle → Acyclic st.g.cons st.g.size) := by
  obtain ⟨own, ht, -⟩ := h.planted
  exact ⟨fun p c e hp hc he => h.planted.depEdge_error hp hc he, fun p c hp => ht.through_iff hp,
    fun i hi hr => ht.relay_once hi hr, ht.acyclic⟩

/-- Two tasks, the second asked for seven times: a trunk and a leaf carry the requests the
first has no slot for. -/
theorem depEdge_ok_seven : ∃ (s : Plan) (st : BuildState),
    s.deps = List.replicate 7 (0, 1) ∧ st.g.size = 4 ∧
    (∀ p c e, s.Has p → s.Has c → st.depEdge p c = .error e →
      e = "graph capacity exceeded" ∨ (p = c ∧ e = "bad edge")) ∧
    (∀ p c, s.Has p → (s.Has c ∧ Through s st.g p c ↔ (p, c) ∈ s.deps)) ∧
    (∀ i < st.g.size, ¬ s.Has i → (st.g.task i).kind = .SIGNAL ∧
      ∑ q ∈ Finset.range st.g.size, (st.g.cons q).count i = 1) ∧
    (s.NoCycle → Acyclic st.g.cons st.g.size) := by
  have h0 := Requested.create 8 ⟨Arena.create 0, ⟨0, 0⟩, 0, 0⟩
  have h1 := h0.add (t := rawSignal) rfl
  have h2 := h1.add (t := rawSignal) rfl
  have h3 := h2.dep (p := 0) (c := 1) rfl rfl rfl
  have h4 := h3.dep (p := 0) (c := 1) rfl rfl rfl
  have h5 := h4.dep (p := 0) (c := 1) rfl rfl rfl
  have h6 := h5.dep (p := 0) (c := 1) rfl rfl rfl
  have h7 := h6.dep (p := 0) (c := 1) rfl rfl rfl
  have h8 := h7.dep (p := 0) (c := 1) rfl rfl rfl
  have h9 := h8.dep (p := 0) (c := 1) rfl rfl rfl
  exact ⟨_, _, rfl, rfl, depEdge_ok h9⟩

end FastLlm
