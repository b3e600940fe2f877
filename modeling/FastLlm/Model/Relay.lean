import FastLlm.Model.Plan
import FastLlm.Runtime.Freeze

/-!
# Relay trees

`dep_edge` realizes the requests of a plan in a graph whose tasks have at most
`kMaxConsumers` consumers.  Every task of the graph is a task of the plan or a relay
signal owned by one; an edge leads to a consumer asked for its owner, or to a later
relay of the same owner.  So a path through relays is one dependency of the plan, and
the graph is acyclic because the plan is.

## Main definitions

* `Tree` — the graph against the plan, by the owner of every task.
* `PortsOK` — the ports against the graph.
* `Realizes` — both; `run_refines` — every command keeps it.
-/

namespace FastLlm

/-- The graph `g` meets the requests of `s`.  `own` gives the producer a relay works for
and every other task itself; the relays in `idle` have no consumer yet. -/
structure Tree (own : ℕ → ℕ) (idle : Set ℕ) (s : Plan) (g : GraphImpl) : Prop where
  wf : g.WF
  fresh : g.frozen = false
  next_le : s.next ≤ g.size
  has_lt : ∀ i, s.Has i → i < s.next
  params_eq : ∀ i t, s.task i = some t → (g.task i).toTaskParams = t
  relay_params : ∀ i < g.size, ¬ s.Has i → (g.task i).toTaskParams = rawSignal
  own_self : ∀ i, s.Has i → own i = i
  own_has : ∀ i < g.size, s.Has (own i)
  busy : ∀ i < g.size, ¬ s.Has i → g.cons i = [] → i ∈ idle
  parent : ∀ i < g.size, ¬ s.Has i → ∃ q, own q = own i ∧ i ∈ g.cons q
  once : ∀ i < g.size, ¬ s.Has i → (g.task i).depInit = 1
  edge : ∀ p, ∀ c ∈ g.cons p,
    (s.Has c ∧ (own p, c) ∈ s.deps) ∨ (¬ s.Has c ∧ own c = own p ∧ (s.Has p ∨ p < c))
  granted : ∀ e ∈ s.deps, ∃ q, own q = e.1 ∧ e.2 ∈ g.cons q
  dep_has : ∀ e ∈ s.deps, s.Has e.1 ∧ s.Has e.2

/-- The memory is not part of the requests. -/
theorem Tree.congr {own : ℕ → ℕ} {idle : Set ℕ} {s s' : Plan} {g : GraphImpl}
    (h : Tree own idle s g) (hnext : s'.next = s.next) (htask : s'.task = s.task)
    (hdeps : s'.deps = s.deps) : Tree own idle s' g := by
  have hhas (i : ℕ) : s'.Has i ↔ s.Has i := by rw [Plan.Has, htask]; rfl
  refine ⟨h.wf, h.fresh, hnext ▸ h.next_le, fun i hi => ?_, fun i t hi => ?_, fun i hi hr => ?_,
    fun i hi => ?_, fun i hi => ?_, fun i hi hr => ?_, fun i hi hr => ?_, fun i hi hr => ?_,
    fun p c hc => ?_, fun e he => ?_, fun e he => ?_⟩
  · rw [hnext]
    exact h.has_lt i ((hhas i).mp hi)
  · exact h.params_eq i t (by rw [← htask]; exact hi)
  · exact h.relay_params i hi fun hh => hr ((hhas i).mpr hh)
  · exact h.own_self i ((hhas i).mp hi)
  · exact (hhas _).mpr (h.own_has i hi)
  · exact h.busy i hi fun hh => hr ((hhas i).mpr hh)
  · exact h.parent i hi fun hh => hr ((hhas i).mpr hh)
  · exact h.once i hi fun hh => hr ((hhas i).mpr hh)
  · simp only [hhas, hdeps]
    exact h.edge p c hc
  · exact h.granted e (hdeps ▸ he)
  · simp only [hhas]
    exact h.dep_has e (hdeps ▸ he)

/-- From `g` to `g'` only producer `p` and its relays got consumers. -/
structure Grows (p : ℕ) (own own' : ℕ → ℕ) (g g' : GraphImpl) : Prop where
  size_le : g.size ≤ g'.size
  own_eq : ∀ i < g.size, own' i = own i
  cons_eq : ∀ i < g.size, own i ≠ p → g'.cons i = g.cons i

theorem Grows.refl (p : ℕ) (own : ℕ → ℕ) (g : GraphImpl) : Grows p own own g g :=
  ⟨le_rfl, fun _ _ => rfl, fun _ _ _ => rfl⟩

theorem Grows.trans {p : ℕ} {own own' own'' : ℕ → ℕ} {g g' g'' : GraphImpl}
    (h : Grows p own own' g g') (h' : Grows p own' own'' g' g'') : Grows p own own'' g g'' := by
  refine ⟨h.size_le.trans h'.size_le, fun i hi => ?_, fun i hi hp => ?_⟩
  · rw [h'.own_eq i (lt_of_lt_of_le hi h.size_le), h.own_eq i hi]
  · rw [h'.cons_eq i (lt_of_lt_of_le hi h.size_le) (by rw [h.own_eq i hi]; exact hp),
      h.cons_eq i hi hp]

/-- The record of a task through an edge, apart from its edges. -/
theorem GraphImpl.edge_params {g g' : GraphImpl} {p c : ℕ} (h : g.edge p c = .ok g') (i : ℕ) :
    (g'.task i).toTaskParams = (g.task i).toTaskParams := by
  rw [(GraphImpl.edge_spec h).2 i]
  split_ifs <;> rfl

/-- The dependency counts after an edge. -/
theorem GraphImpl.edge_depInit {g g' : GraphImpl} {p c : ℕ} (h : g.edge p c = .ok g') (i : ℕ) :
    (g'.task i).depInit = (g.task i).depInit + if c = i then 1 else 0 := by
  rw [(GraphImpl.edge_spec h).2 i]
  by_cases hc : c = i
  · simp [hc]
  · by_cases hp : p = i <;> simp [hc, hp]

/-- An edge whose ends exist and whose producer has a slot left does not die. -/
theorem GraphImpl.exists_edge {g : GraphImpl} {p c : ℕ} (hf : g.frozen = false) (hp : p < g.size)
    (hc : c < g.size) (hpc : p ≠ c) (hfan : (g.cons p).length < kMaxConsumers) :
    ∃ g', g.edge p c = .ok g' := by
  obtain ⟨g', hg', -⟩ := GraphImpl.call_edge g hf hp hc hpc hfan
  exact ⟨g', hg'⟩

namespace Tree
variable {own : ℕ → ℕ} {idle : Set ℕ} {s : Plan} {g : GraphImpl}

theorem mono_idle {idle' : Set ℕ} (h : Tree own idle s g) (hi : idle ⊆ idle') :
    Tree own idle' s g :=
  { h with busy := fun i hs hr hc => hi (h.busy i hs hr hc) }

theorem lt_size (h : Tree own idle s g) {i : ℕ} (hi : s.Has i) : i < g.size :=
  lt_of_lt_of_le (h.has_lt i hi) h.next_le

theorem lt_of_mem_cons {p c : ℕ} (hc : c ∈ g.cons p) : p < g.size := by
  by_contra hp
  rw [GraphImpl.cons_of_le (by omega)] at hc
  exact absurd hc List.not_mem_nil

/-- A new task of the plan. -/
theorem add {t : TaskParams} {g' : GraphImpl} {id : ℕ} (h : Tree own idle s g)
    (hadd : g.add t = .ok (g', id)) :
    s.next ≤ id ∧ Tree (Function.update own id id) idle (s.add id t) g' := by
  obtain ⟨hsize, hlt, hnew, hcons⟩ := GraphImpl.add_spec hadd
  obtain ⟨hopen, -, rfl, hg'⟩ := GraphImpl.add_ok hadd
  have hne (i : ℕ) (hi : s.Has i) : i ≠ g.size := (h.lt_size hi).ne
  have hnothas : ¬ s.Has g.size := fun hi => hne _ hi rfl
  have hold (i : ℕ) (hi : i < g'.size) (hr : ¬ (s.add g.size t).Has i) :
      i < g.size ∧ ¬ s.Has i ∧ i ≠ g.size := by
    rw [Plan.has_add, not_or] at hr
    exact ⟨by omega, hr.2, hr.1⟩
  have hown (i : ℕ) (hi : i ≠ g.size) : Function.update own g.size g.size i = own i :=
    Function.update_of_ne hi ..
  refine ⟨h.next_le, ⟨h.wf.add hadd, by simp [hg', hopen], by simp [hsize], fun i hi => ?_,
    fun i u hu => ?_, fun i hi hr => ?_, fun i hi => ?_, fun i hi => ?_, fun i hi hr hc => ?_,
    fun i hi hr => ?_, fun i hi hr => ?_, fun p c hc => ?_, fun e he => ?_, fun e he => ?_⟩⟩
  · rcases (Plan.has_add ..).mp hi with rfl | hi
    · exact Nat.lt_succ_self _
    · exact Nat.lt_succ_of_lt (h.lt_size hi)
  · rw [Plan.task_add] at hu
    split_ifs at hu with hi
    · rw [hi, hnew]
      exact Option.some.inj hu
    · have hhas : s.Has i := by rw [Plan.Has, hu]; rfl
      rw [hlt i (h.lt_size hhas)]
      exact h.params_eq i u hu
  · obtain ⟨hi', hr', -⟩ := hold i hi hr
    rw [hlt i hi']
    exact h.relay_params i hi' hr'
  · rcases (Plan.has_add ..).mp hi with rfl | hi
    · exact Function.update_self ..
    · rw [hown i (hne i hi)]
      exact h.own_self i hi
  · by_cases hi' : i = g.size
    · rw [hi', Function.update_self]
      exact (Plan.has_add ..).mpr (.inl rfl)
    · rw [hown i hi']
      exact (Plan.has_add ..).mpr (.inr (h.own_has i (by omega)))
  · obtain ⟨hi', hr', -⟩ := hold i hi hr
    rw [hcons] at hc
    exact h.busy i hi' hr' hc
  · obtain ⟨hi', hr', hne'⟩ := hold i hi hr
    obtain ⟨q, hq, hmem⟩ := h.parent i hi' hr'
    refine ⟨q, ?_, by rw [hcons]; exact hmem⟩
    rw [hown i hne', hown q (lt_of_mem_cons hmem).ne]
    exact hq
  · obtain ⟨hi', hr', -⟩ := hold i hi hr
    rw [hlt i hi']
    exact h.once i hi' hr'
  · rw [hcons] at hc
    have hp : p ≠ g.size := (lt_of_mem_cons hc).ne
    have hc' : c < g.size := (h.wf.cons_lt p (lt_of_mem_cons hc) c hc).1
    rw [hown p hp, hown c hc'.ne, Plan.has_add, Plan.has_add, Plan.deps_add]
    rcases h.edge p c hc with ⟨h1, h2⟩ | ⟨h1, h2, h3⟩
    · exact .inl ⟨.inr h1, h2⟩
    · refine .inr ⟨?_, h2, h3.imp_left .inr⟩
      rintro (rfl | h4)
      · exact hc'.ne rfl
      · exact h1 h4
  · obtain ⟨q, hq, hmem⟩ := h.granted e he
    exact ⟨q, by rw [hown q (lt_of_mem_cons hmem).ne]; exact hq, by rw [hcons]; exact hmem⟩
  · obtain ⟨h1, h2⟩ := h.dep_has e he
    exact ⟨(Plan.has_add ..).mpr (.inr h1), (Plan.has_add ..).mpr (.inr h2)⟩

/-- A requested consumer gets an edge from the tree of its producer. -/
theorem grant (h : Tree own idle s g) {q c : ℕ} (hq : q < g.size) (hc : s.Has c)
    (hqc : q ≠ c) (hfan : (g.cons q).length < kMaxConsumers) :
    ∃ g', g.edge q c = .ok g' ∧ Tree own (idle \ {q}) (s.dep (own q) c) g' ∧
      g'.size = g.size ∧ ∀ i, g'.cons i = if i = q then g.cons q ++ [c] else g.cons i := by
  obtain ⟨g', hg'⟩ := GraphImpl.exists_edge h.fresh hq (h.lt_size hc) hqc hfan
  obtain ⟨hwf, hsize, hcons⟩ := h.wf.edge hg'
  obtain ⟨hopen, -, -, -, -, hg''⟩ := GraphImpl.edge_ok hg'
  have hmem (i d : ℕ) (hd : d ∈ g.cons i) : d ∈ g'.cons i := by
    rw [hcons]
    split_ifs with hi
    · rw [← hi]
      exact List.mem_append_left _ hd
    · exact hd
  refine ⟨g', hg', ⟨hwf, by rw [hg'']; exact hopen, by rw [hsize]; exact h.next_le, h.has_lt,
    fun i u hu => ?_, fun i hi hr => ?_, h.own_self, fun i hi => ?_, fun i hi hr hnil => ?_,
    fun i hi hr => ?_, fun i hi hr => ?_, fun p d hd => ?_, fun e he => ?_, fun e he => ?_⟩,
    hsize, hcons⟩
  · rw [GraphImpl.edge_params hg']
    exact h.params_eq i u hu
  · rw [GraphImpl.edge_params hg']
    exact h.relay_params i (hsize ▸ hi) hr
  · exact h.own_has i (hsize ▸ hi)
  · rw [hcons] at hnil
    split_ifs at hnil with hiq
    · exact absurd hnil (by simp)
    · exact ⟨h.busy i (hsize ▸ hi) hr hnil, hiq⟩
  · obtain ⟨r, hr1, hr2⟩ := h.parent i (hsize ▸ hi) hr
    exact ⟨r, hr1, hmem r i hr2⟩
  · have hne : c ≠ i := by
      rintro rfl
      exact hr hc
    rw [GraphImpl.edge_depInit hg', if_neg hne, Int.add_zero]
    exact h.once i (hsize ▸ hi) hr
  · have hold : d ∈ g.cons p → (s.Has d ∧ (own p, d) ∈ s.deps ++ [(own q, c)]) ∨
        (¬ s.Has d ∧ own d = own p ∧ (s.Has p ∨ p < d)) := by
      intro hd
      rcases h.edge p d hd with ⟨h1, h2⟩ | h1
      · exact .inl ⟨h1, List.mem_append_left _ h2⟩
      · exact .inr h1
    rw [hcons] at hd
    split_ifs at hd with hpq
    · rcases List.mem_append.mp hd with hd | hd
      · exact hold (by rw [hpq]; exact hd)
      · obtain rfl : d = c := by simpa using hd
        exact .inl ⟨hc, by rw [hpq]; simp⟩
    · exact hold hd
  · rcases List.mem_append.mp he with he | he
    · obtain ⟨r, hr1, hr2⟩ := h.granted e he
      exact ⟨r, hr1, hmem r _ hr2⟩
    · obtain rfl : e = (own q, c) := by simpa using he
      exact ⟨q, rfl, by rw [hcons, if_pos rfl]; simp⟩
  · rcases List.mem_append.mp he with he | he
    · exact h.dep_has e he
    · obtain rfl : e = (own q, c) := by simpa using he
      exact ⟨h.own_has q hq, hc⟩

/-- `id` is a new relay under `q`. -/
structure NewRelay (own' own : ℕ → ℕ) (idle : Set ℕ) (s : Plan) (g : GraphImpl) (q : ℕ)
    (g' : GraphImpl) (id : ℕ) : Prop where
  tree : Tree own' (insert id (idle \ {q})) s g'
  grows : Grows (own q) own own' g g'
  own_eq : own' id = own q
  id_eq : id = g.size
  lt : id < g'.size
  relay : ¬ s.Has id
  cons_eq : ∀ i, g'.cons i = if i = q then g.cons q ++ [id] else g.cons i

/-- A new relay under a task or relay with a slot left. -/
theorem relay {excused : String → Prop} (hex : excused "graph capacity exceeded")
    (h : Tree own idle s g) {q : ℕ} (hq : q < g.size)
    (hfan : (g.cons q).length < kMaxConsumers) :
    Meets excused (addRelay g q) fun r => ∃ own', NewRelay own' own idle s g q r.1 r.2 := by
  have hnothas : ¬ s.Has g.size := fun hi => (h.lt_size hi).ne rfl
  rw [addRelay]
  cases hadd : g.add rawSignal with
  | error e =>
    rw [GraphImpl.add, h.fresh] at hadd
    simp only [Bool.false_eq_true, if_false] at hadd
    split_ifs at hadd
    obtain rfl := Except.error.inj hadd
    exact hex
  | ok r =>
    obtain ⟨g1, id⟩ := r
    obtain ⟨hsize1, hlt1, hnew1, hcons1⟩ := GraphImpl.add_spec hadd
    obtain ⟨-, -, rfl, hg1⟩ := GraphImpl.add_ok hadd
    have hf1 : g1.frozen = false := by rw [hg1]; exact h.fresh
    obtain ⟨g2, hg2⟩ := GraphImpl.exists_edge hf1 (p := q) (c := g.size) (by omega) (by omega)
      hq.ne (by rw [hcons1]; exact hfan)
    obtain ⟨hwf2, hsize2, hcons2⟩ := (h.wf.add hadd).edge hg2
    obtain ⟨hopen, -, -, -, -, hg2'⟩ := GraphImpl.edge_ok hg2
    have hmax : ∀ i d, d ∈ g.cons i → d ∈ g2.cons i := by
      intro i d hd
      rw [hcons2, hcons1, hcons1]
      split_ifs with hi
      · rw [← hi]
        exact List.mem_append_left _ hd
      · exact hd
    have hcons : ∀ i, g2.cons i = if i = q then g.cons q ++ [g.size] else g.cons i := by
      intro i
      rw [hcons2, hcons1, hcons1]
    have hparams : ∀ i < g.size, (g2.task i).toTaskParams = (g.task i).toTaskParams := by
      intro i hi
      rw [GraphImpl.edge_params hg2, hlt1 i hi]
    have hne (i : ℕ) (hi : s.Has i) : i ≠ g.size := (h.lt_size hi).ne
    have hown (i : ℕ) (hi : i ≠ g.size) : Function.update own g.size (own q) i = own i :=
      Function.update_of_ne hi ..
    have hsize : g2.size = g.size + 1 := by rw [hsize2, hsize1]
    have hgoal : Tree (Function.update own g.size (own q)) (insert g.size (idle \ {q})) s g2 := by
      refine ⟨hwf2, by rw [hg2']; exact hopen, by have := h.next_le; omega, h.has_lt,
        fun i u hu => ?_, fun i hi hr => ?_, fun i hi => ?_, fun i hi => ?_,
        fun i hi hr hnil => ?_, fun i hi hr => ?_, fun i hi hr => ?_, fun p c hc => ?_,
        fun e he => ?_, h.dep_has⟩
      · have hhas : s.Has i := by rw [Plan.Has, hu]; rfl
        rw [hparams i (h.lt_size hhas)]
        exact h.params_eq i u hu
      · by_cases hi' : i = g.size
        · rw [GraphImpl.edge_params hg2, hi', hnew1]
        · rw [hparams i (by omega)]
          exact h.relay_params i (by omega) hr
      · rw [hown i (hne i hi)]
        exact h.own_self i hi
      · by_cases hi' : i = g.size
        · rw [hi', Function.update_self]
          exact h.own_has q hq
        · rw [hown i hi']
          exact h.own_has i (by omega)
      · by_cases hi' : i = g.size
        · exact .inl hi'
        · rw [hcons] at hnil
          split_ifs at hnil with hiq
          · exact absurd hnil (by simp)
          · exact .inr ⟨h.busy i (by omega) hr hnil, hiq⟩
      · by_cases hi' : i = g.size
        · refine ⟨q, ?_, by rw [hcons, if_pos rfl, hi']; simp⟩
          rw [hi', Function.update_self, hown q hq.ne]
        · obtain ⟨r, hr1, hr2⟩ := h.parent i (by omega) hr
          refine ⟨r, ?_, hmax r i hr2⟩
          rw [hown i hi', hown r (lt_of_mem_cons hr2).ne]
          exact hr1
      · rw [GraphImpl.edge_depInit hg2]
        by_cases hi' : i = g.size
        · rw [hi', hnew1, if_pos rfl]
          rfl
        · rw [if_neg (Ne.symm hi'), hlt1 i (by omega), Int.add_zero]
          exact h.once i (by omega) hr
      · have hp : p ≠ g.size ∧ (c ∈ g.cons p ∨ p = q ∧ c = g.size) := by
          rw [hcons] at hc
          split_ifs at hc with hpq
          · rcases List.mem_append.mp hc with hc | hc
            · exact ⟨(lt_of_mem_cons hc).ne ∘ hpq.symm.trans, .inl (by rw [hpq]; exact hc)⟩
            · exact ⟨by omega, .inr ⟨hpq, by simpa using hc⟩⟩
          · exact ⟨(lt_of_mem_cons hc).ne, .inl hc⟩
        rw [hown p hp.1]
        rcases hp.2 with hc | ⟨rfl, rfl⟩
        · have hc' : c < g.size := (h.wf.cons_lt p (lt_of_mem_cons hc) c hc).1
          rw [hown c hc'.ne]
          exact h.edge p c hc
        · refine .inr ⟨hnothas, Function.update_self .., ?_⟩
          by_cases hp' : s.Has p
          · exact .inl hp'
          · exact .inr hq
      · obtain ⟨r, hr1, hr2⟩ := h.granted e he
        exact ⟨r, by rw [hown r (lt_of_mem_cons hr2).ne]; exact hr1, hmax r _ hr2⟩
    have hgrows : Grows (own q) own (Function.update own g.size (own q)) g g2 := by
      refine ⟨by omega, fun i hi => hown i hi.ne, fun i hi hp => ?_⟩
      rw [hcons, if_neg]
      rintro rfl
      exact hp rfl
    simp only [bind, Except.bind, hg2, pure, Except.pure, Meets.ok_iff]
    exact ⟨_, hgoal, hgrows, Function.update_self .., rfl, by omega, hnothas, hcons⟩

end Tree

/-! ## Ports -/

/-- `i` is a relay of `p` with `n` consumers. -/
structure RelayOK (own : ℕ → ℕ) (s : Plan) (g : GraphImpl) (p i n : ℕ) : Prop where
  own_eq : own i = p
  lt : i < g.size
  relay : ¬ s.Has i
  length_eq : (g.cons i).length = n

/-- The port of `p`, which itself has no slot left. -/
structure PortOK (own : ℕ → ℕ) (s : Plan) (g : GraphImpl) (p : ℕ) (po : Port) : Prop where
  full : kMaxConsumers - 1 ≤ (g.cons p).length
  trunk : RelayOK own s g p po.trunk po.trunkUsed
  leaf : RelayOK own s g p po.leaf po.leafUsed
  ne : po.trunk ≠ po.leaf
  trunk_le : po.trunkUsed ≤ kMaxConsumers - 1
  leaf_le : po.leafUsed ≤ kMaxConsumers

/-- The relay a port may leave without a consumer. -/
def Port.idle (po : Port) : Set ℕ := {i | i = po.leaf ∧ po.leafUsed = 0}

/-- A task without a port has its consumers itself, one with a port has filled its own
slots. -/
structure PortsOK (own : ℕ → ℕ) (s : Plan) (g : GraphImpl) (ports : ℕ → Option Port) : Prop where
  direct : ∀ p, s.Has p → ports p = none → (g.cons p).length = s.out p ∧ s.out p < kMaxConsumers
  ported : ∀ p po, ports p = some po →
    s.Has p ∧ kMaxConsumers - 1 ≤ s.out p ∧ PortOK own s g p po

theorem RelayOK.congr {own : ℕ → ℕ} {s s' : Plan} {g : GraphImpl} {p i n : ℕ}
    (h : RelayOK own s g p i n) (htask : s'.task = s.task) : RelayOK own s' g p i n :=
  ⟨h.own_eq, h.lt, by rw [Plan.Has, htask]; exact h.relay, h.length_eq⟩

theorem PortsOK.congr {own : ℕ → ℕ} {s s' : Plan} {g : GraphImpl} {ports : ℕ → Option Port}
    (h : PortsOK own s g ports) (htask : s'.task = s.task) (hdeps : s'.deps = s.deps) :
    PortsOK own s' g ports := by
  have hhas (i : ℕ) : s'.Has i ↔ s.Has i := by rw [Plan.Has, htask]; rfl
  have hout (i : ℕ) : s'.out i = s.out i := by rw [Plan.out, hdeps]; rfl
  refine ⟨fun p hp hnone => ?_, fun p po hpo => ?_⟩
  · rw [hout]
    exact h.direct p ((hhas p).mp hp) hnone
  · obtain ⟨h1, h2, h3⟩ := h.ported p po hpo
    exact ⟨(hhas p).mpr h1, by rw [hout]; exact h2, h3.full, h3.trunk.congr htask,
      h3.leaf.congr htask, h3.ne, h3.trunk_le, h3.leaf_le⟩

/-- A relay keeps its consumers while relays are added under another task. -/
theorem RelayOK.keep {own own' : ℕ → ℕ} {idle : Set ℕ} {s : Plan} {g g' : GraphImpl}
    {p q i n id : ℕ} (h : RelayOK own s g p i n)
    (hr : Tree.NewRelay own' own idle s g q g' id) (hiq : i ≠ q) : RelayOK own' s g' p i n where
  own_eq := by rw [hr.grows.own_eq i h.lt]; exact h.own_eq
  lt := lt_of_lt_of_le h.lt hr.grows.size_le
  relay := h.relay
  length_eq := by rw [hr.cons_eq, if_neg hiq]; exact h.length_eq

/-- The relay under which one is added. -/
theorem RelayOK.parent {own own' : ℕ → ℕ} {idle : Set ℕ} {s : Plan} {g g' : GraphImpl}
    {p i n id : ℕ} (h : RelayOK own s g p i n)
    (hr : Tree.NewRelay own' own idle s g i g' id) : RelayOK own' s g' p i (n + 1) where
  own_eq := by rw [hr.grows.own_eq i h.lt]; exact h.own_eq
  lt := lt_of_lt_of_le h.lt hr.grows.size_le
  relay := h.relay
  length_eq := by rw [hr.cons_eq, if_pos rfl, List.length_append, h.length_eq]; rfl

theorem RelayOK.ne_new {own own' : ℕ → ℕ} {idle : Set ℕ} {s : Plan} {g g' : GraphImpl}
    {p q i n id : ℕ} (h : RelayOK own s g p i n)
    (hr : Tree.NewRelay own' own idle s g q g' id) : i ≠ id := by
  rw [hr.id_eq]
  exact h.lt.ne

/-- The new relay itself. -/
theorem Tree.NewRelay.relayOK {own own' : ℕ → ℕ} {idle : Set ℕ} {s : Plan} {g g' : GraphImpl}
    {q id : ℕ} (hr : Tree.NewRelay own' own idle s g q g' id) (hq : q < g.size) :
    RelayOK own' s g' (own q) id 0 where
  own_eq := hr.own_eq
  lt := hr.lt
  relay := hr.relay
  length_eq := by
    rw [hr.cons_eq, if_neg (by rw [hr.id_eq]; exact hq.ne'), hr.id_eq, GraphImpl.cons_of_le le_rfl]
    rfl

section
variable {own : ℕ → ℕ} {s : Plan} {g : GraphImpl} {excused : String → Prop}
  (hex : excused "graph capacity exceeded")
include hex

/-- The first trunk and leaf. -/
theorem openPort_spec {p : ℕ} (h : Tree own ∅ s g) (hp : s.Has p)
    (hcons : (g.cons p).length = kMaxConsumers - 1) :
    Meets excused (openPort g p) fun r => ∃ own', Tree own' r.2.idle s r.1 ∧
      Grows p own own' g r.1 ∧ PortOK own' s r.1 p r.2 := by
  have hown : own p = p := h.own_self p hp
  apply (h.relay hex (h.lt_size hp) (by rw [hcons]; decide)).bind
  intro ⟨g1, trunk⟩ ⟨own1, h1⟩
  replace h1 : Tree.NewRelay own1 own ∅ s g p g1 trunk := h1
  have htrunk := h1.relayOK (h.lt_size hp)
  apply (h1.tree.relay hex htrunk.lt (by rw [htrunk.length_eq]; decide)).bind
  intro ⟨g2, leaf⟩ ⟨own2, h2⟩
  replace h2 : Tree.NewRelay own2 own1 _ s g1 trunk g2 leaf := h2
  have hleaf := h2.relayOK htrunk.lt
  have hgrow1 := h1.grows
  have hgrow2 := h2.grows
  rw [htrunk.own_eq] at hleaf hgrow2
  rw [hown] at htrunk hleaf hgrow1 hgrow2
  have hp2 : trunk ≠ p := by
    intro hpt
    exact h1.relay (by rw [hpt]; exact hp)
  refine ⟨own2, h2.tree.mono_idle ?_, hgrow1.trans hgrow2, ?_, htrunk.parent h2, hleaf,
    htrunk.ne_new h2, le_of_lt (by decide : 1 < kMaxConsumers - 1), Nat.zero_le _⟩
  · intro i hi
    rcases hi with rfl | ⟨rfl | hi, hne⟩
    · exact ⟨rfl, rfl⟩
    · exact absurd rfl hne
    · exact absurd hi.1 (Set.notMem_empty i)
  · rw [h2.cons_eq, if_neg hp2.symm, h1.cons_eq, if_pos rfl, List.length_append, hcons]
    exact Nat.le_succ _

/-- The trunk has a slot left for a leaf. -/
theorem nextTrunk_spec {p : ℕ} {po : Port} (h : Tree own ∅ s g) (hpo : PortOK own s g p po) :
    Meets excused (nextTrunk g po) fun r => ∃ own', Tree own' {r.2.trunk} s r.1 ∧
      Grows p own own' g r.1 ∧ kMaxConsumers - 1 ≤ (r.1.cons p).length ∧
      RelayOK own' s r.1 p r.2.trunk r.2.trunkUsed ∧ r.2.trunkUsed < kMaxConsumers - 1 := by
  rw [nextTrunk]
  by_cases hu : kMaxConsumers - 1 ≤ po.trunkUsed
  · rw [if_pos hu]
    have hfan : (g.cons po.trunk).length < kMaxConsumers := by
      rw [hpo.trunk.length_eq]
      exact lt_of_le_of_lt hpo.trunk_le (by decide)
    apply (h.relay hex hpo.trunk.lt hfan).bind
    intro ⟨g1, nt⟩ ⟨own1, h1⟩
    replace h1 : Tree.NewRelay own1 own ∅ s g po.trunk g1 nt := h1
    have hnt := h1.relayOK hpo.trunk.lt
    have hgrow := h1.grows
    rw [hpo.trunk.own_eq] at hnt hgrow
    refine ⟨own1, h1.tree.mono_idle ?_, hgrow, ?_, hnt, (by decide : 0 < kMaxConsumers - 1)⟩
    · intro i hi
      rcases hi with rfl | hi
      · rfl
      · exact absurd hi.1 (Set.notMem_empty i)
    · have hfull := hpo.full
      rw [h1.cons_eq]
      split_ifs with hpt
      · rw [List.length_append, ← hpt]
        exact hfull.trans (Nat.le_succ _)
      · exact hfull
  · rw [if_neg hu]
    exact ⟨own, h.mono_idle (Set.empty_subset _), .refl p own g, hpo.full, hpo.trunk, not_le.mp hu⟩

/-- The leaf has a slot left for a consumer. -/
theorem nextLeaf_spec {p : ℕ} {po : Port} (h : Tree own po.idle s g) (hpo : PortOK own s g p po) :
    Meets excused (nextLeaf g po) fun r => ∃ own', Tree own' r.2.idle s r.1 ∧
      Grows p own own' g r.1 ∧ PortOK own' s r.1 p r.2 ∧ r.2.leafUsed < kMaxConsumers := by
  rw [nextLeaf]
  by_cases hu : kMaxConsumers ≤ po.leafUsed
  · rw [if_pos hu]
    have hidle : Tree own ∅ s g := by
      apply h.mono_idle
      intro i hi
      have hzero : po.leafUsed = 0 := hi.2
      rw [hzero] at hu
      exact absurd hu (by decide)
    apply (nextTrunk_spec hex hidle hpo).bind
    intro ⟨g1, po1⟩ ⟨own1, h1, hgrow1, hfull1, htrunk1, hused1⟩
    have hfan : (g1.cons po1.trunk).length < kMaxConsumers := by
      rw [htrunk1.length_eq]
      exact lt_trans hused1 (by decide)
    apply (h1.relay hex htrunk1.lt hfan).bind
    intro ⟨g2, leaf⟩ ⟨own2, h2⟩
    replace h2 : Tree.NewRelay own2 own1 {po1.trunk} s g1 po1.trunk g2 leaf := h2
    have hleaf := h2.relayOK htrunk1.lt
    have hgrow2 := h2.grows
    rw [htrunk1.own_eq] at hleaf hgrow2
    refine ⟨own2, h2.tree.mono_idle ?_, hgrow1.trans hgrow2,
      ⟨?_, htrunk1.parent h2, hleaf, htrunk1.ne_new h2, hused1, Nat.zero_le _⟩,
      (by decide : 0 < kMaxConsumers)⟩
    · intro i hi
      rcases hi with rfl | ⟨rfl, hne⟩
      · exact ⟨rfl, rfl⟩
      · exact absurd rfl hne
    · rw [h2.cons_eq]
      split_ifs with hpt
      · rw [List.length_append, ← hpt]
        exact hfull1.trans (Nat.le_succ _)
      · exact hfull1
  · rw [if_neg hu]
    exact ⟨own, h, .refl p own g, hpo, not_le.mp hu⟩

end

/-- The ports of other tasks do not change. -/
theorem PortsOK.grow {own own' : ℕ → ℕ} {s : Plan} {g g' : GraphImpl} {ports : ℕ → Option Port}
    {p : ℕ} {idle : Set ℕ} (ht : Tree own idle s g) (h : PortsOK own s g ports)
    (hg : Grows p own own' g g') (q : ℕ) (hq : q ≠ p) :
    (s.Has q → ports q = none → (g'.cons q).length = s.out q ∧ s.out q < kMaxConsumers) ∧
      ∀ po, ports q = some po →
        s.Has q ∧ kMaxConsumers - 1 ≤ s.out q ∧ PortOK own' s g' q po := by
  have hcons (hs : s.Has q) : g'.cons q = g.cons q :=
    hg.cons_eq q (ht.lt_size hs) (by rw [ht.own_self q hs]; exact hq)
  have hrelay {i n : ℕ} (hr : RelayOK own s g q i n) : RelayOK own' s g' q i n :=
    ⟨by rw [hg.own_eq i hr.lt]; exact hr.own_eq, lt_of_lt_of_le hr.lt hg.size_le, hr.relay,
      by rw [hg.cons_eq i hr.lt (by rw [hr.own_eq]; exact hq)]; exact hr.length_eq⟩
  constructor
  · intro hs hnone
    rw [hcons hs]
    exact h.direct q hs hnone
  · intro po hpo
    obtain ⟨hs, hout, hok⟩ := h.ported q po hpo
    exact ⟨hs, hout, by rw [hcons hs]; exact hok.full, hrelay hok.trunk, hrelay hok.leaf, hok.ne,
      hok.trunk_le, hok.leaf_le⟩

/-- The ports after one more consumer of `p`, when the other tasks did not change. -/
theorem PortsOK.dep {own own' : ℕ → ℕ} {s : Plan} {g g' : GraphImpl} {ports : ℕ → Option Port}
    {p : ℕ} (c : ℕ) {idle : Set ℕ} (po : Option Port) (ht : Tree own idle s g)
    (h : PortsOK own s g ports) (hg : Grows p own own' g g')
    (hdirect : po = none → (g'.cons p).length = s.out p + 1 ∧ s.out p + 1 < kMaxConsumers)
    (hported : ∀ q, po = some q →
      s.Has p ∧ kMaxConsumers - 1 ≤ s.out p + 1 ∧ PortOK own' s g' p q) :
    PortsOK own' (s.dep p c) g' (Function.update ports p po) := by
  have hout (q : ℕ) (hq : q ≠ p) : (s.dep p c).out q = s.out q := by simp [hq.symm]
  have houtp : (s.dep p c).out p = s.out p + 1 := by simp
  have hok {q : ℕ} {r : Port} (hr : PortOK own' s g' q r) : PortOK own' (s.dep p c) g' q r :=
    ⟨hr.full, ⟨hr.trunk.own_eq, hr.trunk.lt, hr.trunk.relay, hr.trunk.length_eq⟩,
      ⟨hr.leaf.own_eq, hr.leaf.lt, hr.leaf.relay, hr.leaf.length_eq⟩, hr.ne, hr.trunk_le,
      hr.leaf_le⟩
  refine ⟨fun q hs hnone => ?_, fun q r hsome => ?_⟩
  · by_cases hq : q = p
    · subst hq
      rw [houtp]
      exact hdirect (by simpa using hnone)
    · rw [Function.update_of_ne hq] at hnone
      rw [hout q hq]
      exact (h.grow ht hg q hq).1 hs hnone
  · by_cases hq : q = p
    · subst hq
      obtain ⟨h1, h2, h3⟩ := hported r (by simpa using hsome)
      rw [houtp]
      exact ⟨h1, h2, hok h3⟩
    · rw [Function.update_of_ne hq] at hsome
      obtain ⟨h1, h2, h3⟩ := (h.grow ht hg q hq).2 r hsome
      rw [hout q hq]
      exact ⟨h1, h2, hok h3⟩

/-- One more consumer in the tree of `p`: nothing but `p` and its relays changes. -/
theorem grows_of_edge {own : ℕ → ℕ} {g g' : GraphImpl} {p q c : ℕ} (hown : own q = p)
    (hsize : g'.size = g.size)
    (hcons : ∀ i, g'.cons i = if i = q then g.cons q ++ [c] else g.cons i) :
    Grows p own own g g' := by
  refine ⟨hsize.ge, fun _ _ => rfl, fun i _ hi => ?_⟩
  rw [hcons, if_neg]
  rintro rfl
  exact hi hown

namespace BuildState
variable {own : ℕ → ℕ} {s : Plan} {st : BuildState} {p c : ℕ}

/-- A consumer attached to the producer itself. -/
theorem edge_spec (h : Tree own ∅ s st.g) (hports : PortsOK own s st.g st.ports) (hp : s.Has p)
    (hc : s.Has c) (hpc : p ≠ c) (hlt : (st.g.cons p).length < kMaxConsumers - 1) :
    ∃ g, st.g.edge p c = .ok g ∧ Tree own ∅ (s.dep p c) g ∧
      PortsOK own (s.dep p c) g st.ports ∧ g.size = st.g.size := by
  have hown : own p = p := h.own_self p hp
  obtain ⟨g, hg, htree, hsize, hcons⟩ := h.grant (h.lt_size hp) hc hpc
    (lt_trans hlt (by decide))
  rw [hown] at htree
  have hnone : st.ports p = none := by
    cases hsome : st.ports p with
    | none => rfl
    | some po => exact absurd (hports.ported p po hsome).2.2.full (not_le.mpr hlt)
  refine ⟨g, hg, htree.mono_idle Set.sdiff_subset, ?_, hsize⟩
  have hdep := hports.dep c none h (grows_of_edge hown hsize hcons) ?_ (by simp)
  · rw [← hnone, Function.update_eq_self] at hdep
    exact hdep
  · intro _
    have hlen := (hports.direct p hp hnone).1
    rw [hcons, if_pos rfl, List.length_append, List.length_singleton, hlen]
    exact ⟨rfl, by omega⟩

/-- The tree of a producer whose own slots are used up. -/
theorem port_spec {excused : String → Prop} (hex : excused "graph capacity exceeded")
    (h : Tree own ∅ s st.g) (hports : PortsOK own s st.g st.ports) (hp : s.Has p)
    (hfull : kMaxConsumers - 1 ≤ (st.g.cons p).length) :
    Meets excused (st.port p) fun r => ∃ own', Tree own' r.2.idle s r.1 ∧
      Grows p own own' st.g r.1 ∧ PortOK own' s r.1 p r.2 ∧ kMaxConsumers - 1 ≤ s.out p := by
  rw [port]
  cases hpo : st.ports p with
  | some po =>
    obtain ⟨-, hout, hok⟩ := hports.ported p po hpo
    exact ⟨own, h.mono_idle (Set.empty_subset _), .refl p own _, hok, hout⟩
  | none =>
    obtain ⟨hlen, hout⟩ := hports.direct p hp hpo
    have hcons : (st.g.cons p).length = kMaxConsumers - 1 := by omega
    apply (openPort_spec hex h hp hcons).mono
    intro r ⟨own', htree, hgrow, hok⟩
    exact ⟨own', htree, hgrow, hok, by rw [← hlen]; exact hfull⟩

/-- `dep_edge` meets the request. -/
theorem depEdge_spec {excused : String → Prop} (hex : excused "graph capacity exceeded")
    (h : Tree own ∅ s st.g) (hports : PortsOK own s st.g st.ports) (hp : s.Has p) (hc : s.Has c)
    (hpc : (st.g.cons p).length < kMaxConsumers - 1 → p ≠ c) :
    Meets excused (st.depEdge p c) fun st' => ∃ own', Tree own' ∅ (s.dep p c) st'.g ∧
      PortsOK own' (s.dep p c) st'.g st'.ports ∧ st'.mem = st.mem := by
  rw [depEdge]
  by_cases hlt : (st.g.cons p).length < kMaxConsumers - 1
  · rw [if_pos hlt]
    obtain ⟨g, hg, htree, hok, -⟩ := edge_spec h hports hp hc (hpc hlt) hlt
    rw [hg]
    exact ⟨own, htree, hok, rfl⟩
  · rw [if_neg hlt]
    apply (port_spec hex h hports hp (not_lt.mp hlt)).bind
    intro ⟨g1, po1⟩ ⟨own1, h1, hgrow1, hok1, hout⟩
    apply (nextLeaf_spec hex h1 hok1).bind
    intro ⟨g2, po2⟩ ⟨own2, h2, hgrow2, hok2, hused⟩
    have hleaf := hok2.leaf
    have hleafc : po2.leaf ≠ c := by
      intro hlc
      exact hleaf.relay (by rw [hlc]; exact hc)
    obtain ⟨g3, hg3, h3, hsize, hcons⟩ := h2.grant hleaf.lt hc hleafc
      (by rw [hleaf.length_eq]; exact hused)
    rw [hleaf.own_eq] at h3
    have hgrow3 := grows_of_edge hleaf.own_eq hsize hcons
    have hne : p ≠ po2.leaf := by
      intro hpl
      exact hleaf.relay (by rw [← hpl]; exact hp)
    have hok3 : PortOK own2 s g3 p { po2 with leafUsed := po2.leafUsed + 1 } := by
      refine ⟨by rw [hcons, if_neg hne]; exact hok2.full, ?_, ?_, hok2.ne, hok2.trunk_le, hused⟩
      · exact ⟨hok2.trunk.own_eq, hsize.symm ▸ hok2.trunk.lt, hok2.trunk.relay,
          by rw [hcons, if_neg hok2.ne]; exact hok2.trunk.length_eq⟩
      · exact ⟨hleaf.own_eq, hsize.symm ▸ hleaf.lt, hleaf.relay,
          by rw [hcons, if_pos rfl, List.length_append, hleaf.length_eq]; rfl⟩
    have hports3 := hports.dep c (some { po2 with leafUsed := po2.leafUsed + 1 }) h
      ((hgrow1.trans hgrow2).trans hgrow3) (by simp)
      (fun r hr => ⟨hp, hout.trans (Nat.le_succ _), Option.some.inj hr ▸ hok3⟩)
    have hg3' : g2.edge po2.leaf c = .ok g3 := hg3
    simp only [hg3', bind, Except.bind, pure, Except.pure, Meets.ok_iff]
    refine ⟨own2, h3.mono_idle ?_, hports3, trivial⟩
    rintro i ⟨⟨rfl, -⟩, hne'⟩
    exact absurd rfl hne'

end BuildState

/-! ## Graphs that meet a plan -/

/-- The graph and the ports meet the requests. -/
def Planted (s : Plan) (st : BuildState) : Prop :=
  ∃ own, Tree own ∅ s st.g ∧ PortsOK own s st.g st.ports

namespace Planted
variable {s : Plan} {st : BuildState}

theorem create (maxTasks : UInt32) (mem : DecoderMem) :
    Planted (Plan.create mem) ⟨GraphImpl.create maxTasks, fun _ => none, mem⟩ := by
  have hsize : (GraphImpl.create maxTasks).size = 0 := rfl
  refine ⟨id, ⟨.create maxTasks, rfl, Nat.zero_le _, ?_, ?_, ?_, ?_, ?_, ?_, ?_, ?_, ?_, ?_, ?_⟩,
    ?_, ?_⟩
  · intro i hi
    exact absurd hi (by simp)
  · intro i t ht
    simp [Plan.create] at ht
  · intro i hi
    rw [hsize] at hi
    omega
  · intro i hi
    exact absurd hi (by simp)
  · intro i hi
    rw [hsize] at hi
    omega
  · intro i hi
    rw [hsize] at hi
    omega
  · intro i hi
    rw [hsize] at hi
    omega
  · intro i hi
    rw [hsize] at hi
    omega
  · intro p c hc
    rw [GraphImpl.cons_of_le (by rw [hsize]; omega)] at hc
    exact absurd hc List.not_mem_nil
  · intro e he
    simp at he
  · intro e he
    simp at he
  · intro p hp
    exact absurd hp (by simp)
  · intro p po hpo
    simp at hpo

/-- A new task. -/
theorem add (h : Planted s st) {t : TaskParams} {g : GraphImpl} {id : ℕ}
    (hadd : st.g.add t = .ok (g, id)) :
    s.next ≤ id ∧ g.size = id + 1 ∧ Planted (s.add id t) { st with g := g } := by
  obtain ⟨own, htree, hp⟩ := h
  obtain ⟨hnext, htree'⟩ := htree.add hadd
  obtain ⟨hsize, hlt, hnew, hcons⟩ := GraphImpl.add_spec hadd
  obtain ⟨-, -, rfl, -⟩ := GraphImpl.add_ok hadd
  have hr {q j n : ℕ} (hj : RelayOK own s st.g q j n) :
      RelayOK (Function.update own st.g.size st.g.size) (s.add st.g.size t) g q j n := by
    have hne : j ≠ st.g.size := hj.lt.ne
    refine ⟨by rw [Function.update_of_ne hne]; exact hj.own_eq,
      by rw [hsize]; exact Nat.lt_succ_of_lt hj.lt, ?_, by rw [hcons]; exact hj.length_eq⟩
    rw [Plan.has_add, not_or]
    exact ⟨hne, hj.relay⟩
  refine ⟨hnext, hsize, ⟨_, htree', ⟨fun p hs hnone => ?_, fun p po hpo => ?_⟩⟩⟩
  · rw [hcons, Plan.out_add]
    rcases (Plan.has_add ..).mp hs with rfl | hs
    · rw [GraphImpl.cons_of_le le_rfl]
      have hzero : s.out st.g.size = 0 := by
        rw [Plan.out_eq_zero]
        intro c hc
        exact (htree.lt_size (htree.dep_has _ hc).1).ne rfl
      rw [hzero]
      exact ⟨rfl, by decide⟩
    · exact hp.direct p hs hnone
  · obtain ⟨h1, h2, h3⟩ := hp.ported p po hpo
    exact ⟨(Plan.has_add ..).mpr (.inr h1), h2, by rw [hcons]; exact h3.full, hr h3.trunk,
      hr h3.leaf, h3.ne, h3.trunk_le, h3.leaf_le⟩

/-- `dep_edge` meets the request. -/
theorem depEdge (h : Planted s st) (excused : String → Prop)
    (hex : excused "graph capacity exceeded") {p c : ℕ} (hp : s.Has p) (hc : s.Has c)
    (hpc : (st.g.cons p).length < kMaxConsumers - 1 → p ≠ c) :
    Meets excused (st.depEdge p c) fun st' => Planted (s.dep p c) st' ∧ st'.mem = st.mem := by
  obtain ⟨own, htree, hports⟩ := h
  apply (BuildState.depEdge_spec hex htree hports hp hc hpc).mono
  intro st' ⟨own', htree', hports', hmem⟩
  exact ⟨⟨own', htree', hports'⟩, hmem⟩

end Planted

/-! ## Refinement -/

/-- The state of a build meets the plan: its graph and ports realize the requests, its
memory is the plan's, and every task of the plan is admissible. -/
structure Realizes (adm : TaskParams → Prop) (s : Plan) (st : BuildState) : Prop where
  tree : Planted s st
  forward : ∀ e ∈ s.deps, e.1 < e.2
  tight : s.tight = true → st.g.size = s.next
  mem_eq : st.mem = s.mem
  adm : ∀ i t, s.task i = some t → adm t

theorem Realizes.create (adm : TaskParams → Prop) (maxTasks : UInt32) (mem : DecoderMem) :
    Realizes adm (Plan.create mem) ⟨GraphImpl.create maxTasks, fun _ => none, mem⟩ where
  tree := .create maxTasks mem
  forward e he := absurd he (by simp)
  tight h := by simp [Plan.create] at h
  mem_eq := rfl
  adm i t ht := by simp [Plan.create] at ht

namespace Realizes
variable {adm : TaskParams → Prop} {s : Plan} {st : BuildState}

/-- One more dependency on an earlier task. -/
theorem forward_snoc (h : Realizes adm s st) {p c : ℕ} (hpc : p < c) :
    ∀ e ∈ s.deps ++ [(p, c)], e.1 < e.2 := by
  intro e he
  rcases List.mem_append.mp he with he | he
  · exact h.forward e he
  · rw [List.mem_singleton.mp he]
    exact hpc

/-- A write to the record of a task. -/
theorem write (h : Realizes adm s st) {i : ℕ} {f : TaskParams → TaskParams} (hi : s.Has i)
    (hf : ∀ t, s.task i = some t → adm (f t)) :
    Realizes adm (s.write i f) { st with g := st.g.write i f } := by
  obtain ⟨own, ht, hp⟩ := h.tree
  have hsize : (st.g.write i f).size = st.g.size := by simp [GraphImpl.write, GraphImpl.size]
  have htask (j : ℕ) : (st.g.write i f).task j =
      if j = i then { st.g.task i with toTaskParams := f (st.g.task i).toTaskParams }
      else st.g.task j := by
    have hi' : i < st.g.tasks.length := ht.lt_size hi
    simp only [GraphImpl.write, GraphImpl.task, List.getD_eq_getElem?_getD, List.getElem?_modify]
    by_cases hj : j = i
    · subst hj
      simp [hi']
    · simp [hj, Ne.symm hj]
  have hcons (j : ℕ) : (st.g.write i f).cons j = st.g.cons j := by
    rw [GraphImpl.cons, htask]
    split_ifs with hj
    · rw [hj]; rfl
    · rfl
  have hrelay {j : ℕ} (hj : ¬ (s.write i f).Has j) : ¬ s.Has j ∧ j ≠ i := by
    rw [Plan.has_write] at hj
    refine ⟨hj, ?_⟩
    rintro rfl
    exact hj hi
  refine ⟨⟨own, ⟨ht.wf.write i f, ht.fresh, by rw [hsize]; exact ht.next_le, ?_, ?_, ?_, ?_, ?_,
    ?_, ?_, ?_, ?_, ?_, ?_⟩, ?_⟩, h.forward, fun hh => hsize.trans (h.tight hh), h.mem_eq, ?_⟩
  · intro j hj
    exact ht.has_lt j ((Plan.has_write ..).mp hj)
  · intro j t hj
    rw [Plan.task_write] at hj
    rw [htask]
    split_ifs at hj ⊢ with hji
    · obtain ⟨u, hu, rfl⟩ := Option.map_eq_some_iff.mp hj
      rw [ht.params_eq i u hu]
    · exact ht.params_eq j t hj
  · intro j hj hr
    rw [htask, if_neg (hrelay hr).2]
    exact ht.relay_params j (hsize ▸ hj) (hrelay hr).1
  · intro j hj
    exact ht.own_self j ((Plan.has_write ..).mp hj)
  · intro j hj
    rw [Plan.has_write]
    exact ht.own_has j (hsize ▸ hj)
  · intro j hj hr hnil
    rw [hcons] at hnil
    exact ht.busy j (hsize ▸ hj) (hrelay hr).1 hnil
  · intro j hj hr
    simp only [hcons]
    exact ht.parent j (hsize ▸ hj) (hrelay hr).1
  · intro j hj hr
    rw [htask, if_neg (hrelay hr).2]
    exact ht.once j (hsize ▸ hj) (hrelay hr).1
  · intro p c hc
    rw [hcons] at hc
    simp only [Plan.has_write, Plan.deps_write]
    exact ht.edge p c hc
  · intro e he
    simp only [hcons]
    exact ht.granted e he
  · intro e he
    simp only [Plan.has_write]
    exact ht.dep_has e he
  · have hr {q j n : ℕ} (h : RelayOK own s st.g q j n) :
        RelayOK own (s.write i f) (st.g.write i f) q j n :=
      ⟨h.own_eq, hsize.symm ▸ h.lt, by rw [Plan.has_write]; exact h.relay,
        by rw [hcons]; exact h.length_eq⟩
    refine ⟨fun p hs hnone => ?_, fun p po hpo => ?_⟩
    · rw [hcons, Plan.out_write]
      exact hp.direct p ((Plan.has_write ..).mp hs) hnone
    · obtain ⟨h1, h2, h3⟩ := hp.ported p po hpo
      exact ⟨(Plan.has_write ..).mpr h1, h2, by rw [hcons]; exact h3.full, hr h3.trunk,
        hr h3.leaf, h3.ne, h3.trunk_le, h3.leaf_le⟩
  · intro j t hj
    rw [Plan.task_write] at hj
    split_ifs at hj with hji
    · obtain ⟨u, hu, rfl⟩ := Option.map_eq_some_iff.mp hj
      exact hf u hu
    · exact h.adm j t hj

/-- A new task. -/
theorem add (h : Realizes adm s st) {t : TaskParams} (ht : adm t) {g : GraphImpl} {id : ℕ}
    (hadd : st.g.add t = .ok (g, id)) :
    s.next ≤ id ∧ Realizes adm (s.add id t) { st with g := g } := by
  obtain ⟨hnext, hsize, htree⟩ := h.tree.add hadd
  refine ⟨hnext, htree, h.forward, fun _ => hsize, h.mem_eq, ?_⟩
  intro i u hi
  rw [Plan.task_add] at hi
  split_ifs at hi with hid
  · rw [← Option.some.inj hi]
    exact ht
  · exact h.adm i u hi

/-- The memory is not part of the graph. -/
theorem withMem (h : Realizes adm s st) (mem : DecoderMem) :
    Realizes adm (s.withMem mem) { st with mem := mem } := by
  obtain ⟨own, ht, hp⟩ := h.tree
  exact ⟨⟨own, ht.congr rfl rfl rfl, hp.congr rfl rfl⟩, h.forward, h.tight, rfl, h.adm⟩

end Realizes

/-- Every command keeps the graph in step with the plan. -/
theorem run_refines (adm : TaskParams → Prop) {excused : String → Prop}
    (hex : excused "graph capacity exceeded") :
    CmdProg.Refines BuildState.run (Plan.spec adm excused) excused (Realizes adm) := by
  intro c Q s st h hspec
  obtain ⟨own, htree, hports⟩ := h.tree
  cases c with
  | add t =>
    obtain ⟨hadm, hQ⟩ := hspec
    rw [BuildState.run]
    cases hadd : st.g.add t with
    | error e =>
      rw [GraphImpl.add, htree.fresh] at hadd
      simp only [Bool.false_eq_true, if_false] at hadd
      split_ifs at hadd
      obtain rfl := Except.error.inj hadd
      exact hex
    | ok r =>
      obtain ⟨g, id⟩ := r
      obtain ⟨hnext, hr⟩ := h.add hadm hadd
      exact ⟨_, hr, hQ id hnext⟩
  | depEdge p c =>
    obtain ⟨hp, hc, hpc, hQ⟩ := hspec
    apply (h.tree.depEdge excused hex hp hc fun _ => hpc.ne).bind
    rintro st' ⟨htree', hmem⟩
    exact ⟨_, ⟨htree', h.forward_snoc hpc, fun hh => absurd hh Bool.false_ne_true,
      hmem.trans h.mem_eq, h.adm⟩, hQ⟩
  | edge p c =>
    obtain ⟨hp, hc, hpc, hout, hQ⟩ := hspec
    have hlt : (st.g.cons p).length < kMaxConsumers - 1 := by
      cases hpo : st.ports p with
      | none =>
        rw [(hports.direct p hp hpo).1]
        exact hout
      | some po => exact absurd (hports.ported p po hpo).2.1 (not_le.mpr hout)
    obtain ⟨g, hg, htree', hports', hsize⟩ := BuildState.edge_spec htree hports hp hc hpc.ne hlt
    rw [BuildState.run, hg]
    exact ⟨s.link p c, ⟨⟨own, htree'.congr rfl rfl rfl, hports'.congr rfl rfl⟩,
      h.forward_snoc hpc, fun hh => hsize.trans (h.tight hh), h.mem_eq, h.adm⟩, hQ⟩
  | write i f =>
    obtain ⟨hi, hf, hQ⟩ := hspec
    exact ⟨_, h.write hi hf, hQ⟩
  | slotAlloc n =>
    rw [BuildState.run, h.mem_eq]
    apply Meets.bind (x := s.mem.slotAlloc n) hspec
    rintro ⟨mem, p⟩ hQ
    exact ⟨s.withMem mem, h.withMem mem, hQ⟩
  | alloc bytes align =>
    rw [BuildState.run, h.mem_eq]
    apply Meets.bind (x := s.mem.alloc bytes align) hspec
    rintro ⟨mem, p⟩ hQ
    exact ⟨s.withMem mem, h.withMem mem, hQ⟩
  | die msg => exact hspec

/-! ## Freezing -/

/-- The dependencies asked for go round in no circle. -/
def Plan.NoCycle (s : Plan) : Prop := ∀ i, ¬ Relation.TransGen (fun p c => (p, c) ∈ s.deps) i i

/-- A path is a path of dependencies between the owners, or stays among relays. -/
theorem Tree.transGen {own : ℕ → ℕ} {idle : Set ℕ} {s : Plan} {g : GraphImpl}
    (h : Tree own idle s g) {i j : ℕ} (hp : Relation.TransGen (EdgeOf g.cons g.size) i j) :
    Relation.TransGen (fun p c => (p, c) ∈ s.deps) (own i) (own j) ∨
      (¬ s.Has j ∧ own j = own i ∧ (s.Has i ∨ i < j)) := by
  induction hp with
  | single he =>
    rcases h.edge _ _ he.2 with ⟨hhas, hdep⟩ | hrelay
    · rw [h.own_self _ hhas]
      exact .inl (.single hdep)
    · exact .inr hrelay
  | tail _ he ih =>
    rcases h.edge _ _ he.2 with ⟨hhas, hdep⟩ | ⟨hrelay, hown, hlt⟩
    · rw [h.own_self _ hhas]
      rcases ih with ih | ⟨-, ih, -⟩
      · exact .inl (ih.tail hdep)
      · rw [ih] at hdep
        exact .inl (.single hdep)
    · rcases ih with ih | ⟨hb, hown', hlt'⟩
      · rw [hown]
        exact .inl ih
      · refine .inr ⟨hrelay, hown.trans hown', hlt'.imp_right fun hib => ?_⟩
        exact hib.trans (hlt.resolve_left hb)

/-- The relay trees add no cycle. -/
theorem Tree.acyclic {own : ℕ → ℕ} {idle : Set ℕ} {s : Plan} {g : GraphImpl}
    (h : Tree own idle s g) (hs : s.NoCycle) : Acyclic g.cons g.size := by
  intro i hi
  rcases h.transGen hi with hp | ⟨hr, -, hlt⟩
  · exact hs _ hp
  · exact lt_irrefl i (hlt.resolve_left hr)

theorem Realizes.noCycle {adm : TaskParams → Prop} {s : Plan} {st : BuildState}
    (h : Realizes adm s st) : s.NoCycle := by
  have hlt {i j : ℕ} (hp : Relation.TransGen (fun p c => (p, c) ∈ s.deps) i j) : i < j := by
    induction hp with
    | single he => exact h.forward _ he
    | tail _ he ih => exact ih.trans (h.forward _ he)
  exact fun i hi => lt_irrefl i (hlt hi)

/-- A plan in which one `SIGNAL` alone has no consumer gives a graph that freezes, with
that signal as the terminal. -/
theorem Realizes.freeze_eq {s : Plan} {st : BuildState} (h : Realizes GraphImpl.Passes s st)
    {x : ℕ} {t : TaskParams} (hx : s.task x = some t) (hkind : t.kind = .SIGNAL)
    (hout : s.out x = 0) (hfed : ∀ i, s.Has i → i ≠ x → s.out i ≠ 0) :
    st.g.freeze = .ok { st.g with terminal := x, frozen := true } := by
  obtain ⟨own, ht, hp⟩ := h.tree
  have hhas : s.Has x := by rw [Plan.Has, hx]; rfl
  have hlen {i : ℕ} (hi : s.Has i) : (st.g.cons i).length = 0 ↔ s.out i = 0 := by
    cases hpo : st.ports i with
    | none => rw [(hp.direct i hi hpo).1]
    | some po =>
      obtain ⟨-, h1, h2⟩ := hp.ported i po hpo
      have hfull := h2.full
      have hpos : 0 < kMaxConsumers - 1 := by decide
      omega
  apply ht.wf.freeze_eq ht.fresh (ht.acyclic h.noCycle)
  · intro i
    rw [← List.length_eq_zero_iff]
    constructor
    · rintro ⟨hi, hnil⟩
      by_contra hne
      by_cases hi' : s.Has i
      · exact hfed i hi' hne ((hlen hi').mp hnil)
      · exact ht.busy i hi hi' (List.length_eq_zero_iff.mp hnil)
    · rintro rfl
      exact ⟨ht.lt_size hhas, (hlen hhas).mpr hout⟩
  · have := ht.params_eq x t hx
    change (st.g.task x).toTaskParams.kind = _
    rw [this, hkind]
  · intro u hu
    obtain ⟨i, hi, rfl⟩ := List.mem_iff_getElem.mp hu
    have htask : st.g.task i = st.g.tasks[i] := List.getD_eq_getElem _ _ hi
    rw [← htask]
    by_cases hi' : s.Has i
    · obtain ⟨t, htt⟩ := Option.isSome_iff_exists.mp hi'
      rw [ht.params_eq i t htt]
      exact h.adm i t htt
    · rw [ht.relay_params i hi hi']
      exact ⟨by decide, by decide, by decide, by decide⟩

end FastLlm
