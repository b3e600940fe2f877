import FastLlm.Runtime.Freeze
import FastLlm.Runtime.Routing

/-!
# Room in the queues

Every queue has a fixed number of cells, whatever the graph.  A push waits for a free
cell, and a party that waits in a push drains nothing meanwhile.  Tasks that wait in
queues, and a task about to be pushed, depend on each other in no way; so when no
queue is the destination of more independent tasks than it has cells, every push finds
room and no reachable state is wedged.

A graph with more independent tasks does wedge: one worker holds a task whose consumer
it has to push, and the host has filled the queue with roots.

## Main definitions

* `Independent`, `FitsQueues` — tasks without a path between them; the bound on them.
* `Wedged` — everybody waits for a free cell, or nobody has anything to do.
* `not_wedged`, `stuffed_wedged` — the bound suffices, and without it the run hangs.
-/

namespace FastLlm
open Relation

/-- Distinct tasks without a path between any two of them. -/
structure Independent (G : FrozenGraph) (A : List ℕ) : Prop where
  nodup : A.Nodup
  lt : ∀ i ∈ A, i < G.n
  no_path : ∀ i ∈ A, ∀ j ∈ A, ¬ TransGen G.Edge i j

/-- Independent tasks with one destination fit into its cells. -/
def FitsQueues (cfg : RtConfig) (G : FrozenGraph) : Prop :=
  ∀ (q : Qid cfg.gpuBlocks) (A : List ℕ), Independent G A → (∀ i ∈ A, dest cfg G i = q) →
    A.length ≤ kQueueCapacity

section
variable {cfg : RtConfig} {G : FrozenGraph}

/-- The contract of the queue: as many cells as tasks are enough. -/
theorem fitsQueues_of_n_le (h : G.n ≤ kQueueCapacity) : FitsQueues cfg G := by
  intro q A hA _
  have hsub : A.Subperm (List.range G.n) :=
    hA.nodup.subperm fun i hi => List.mem_range.mpr (hA.lt i hi)
  have hlen := hsub.length_le
  rw [List.length_range] at hlen
  omega

/-! ## Waiting tasks are independent -/

namespace RunInv
variable {s : RtState cfg}

/-- The ancestors of an enqueued task have been claimed. -/
theorem claimed_of_path (h : RunInv G s) {x c : ℕ} (hp : TransGen G.Edge x c)
    (hc : c ∈ s.enq) : x ∈ s.claimed := by
  induction hp with
  | single he => exact (h.released_of_enq hc he).1
  | tail _ he ih => exact ih (h.mem_enq_of_claimed (h.released_of_enq hc he).1)

/-- A task in a queue has been enqueued and not been claimed. -/
theorem of_mem_queue (h : RunInv G s) {q : Qid cfg.gpuBlocks} {i : ℕ} (hi : i ∈ s.q q) :
    i ∈ s.enq ∧ i ∉ s.claimed := by
  have hpos := List.count_pos_iff.mpr hi
  have hle := le_queued s.q q i
  have henq := h.enq_eq i
  have hone := h.count_enq_le i
  refine ⟨List.count_pos_iff.mp (by omega), fun hc => ?_⟩
  have hclaimed := List.count_pos_iff.mpr hc
  omega

theorem queue_nodup (h : RunInv G s) (q : Qid cfg.gpuBlocks) : (s.q q).Nodup := by
  apply List.nodup_iff_count_le_one.mpr
  intro i
  have hle := le_queued s.q q i
  have henq := h.enq_eq i
  have hone := h.count_enq_le i
  omega

/-- A task that is ready but not yet enqueued: its producers have been claimed. -/
structure Due (G : FrozenGraph) (s : RtState cfg) (c : ℕ) : Prop where
  lt : c < G.n
  not_enq : c ∉ s.enq
  producers : ∀ p, G.Edge p c → p ∈ s.claimed

theorem due_of_count_zero (h : RunInv G s) {c : ℕ} (hc : c < G.n) (henq : c ∉ s.enq)
    (hz : s.depCount c = 0) : Due G s c := by
  have hdep := h.dep_eq c hc
  rw [hz] at hdep
  exact ⟨hc, henq, openEdges_eq_zero.mp (by omega)⟩

/-- What a party is about to push is due. -/
theorem due_of_push (h : RunInv G s) {a : Agent cfg} {ids : List ℕ} {c : ℕ}
    {rel : List (ℕ × ℕ)} (hp : s.pc a = .push ids c rel) : Due G s c := by
  have hwf := h.pc_wf a
  rw [hp] at hwf
  have hready := h.ready_eq c hwf.2.1
  have hown : 1 ≤ total s.pc fun p => p.pending.count c := by
    have hle := single_le_total s.pc a fun p => p.pending.count c
    simpa [hp, Pc.pending] using hle
  have hzero : s.depCount c = 0 := by
    by_contra hne
    rw [isZero, if_neg hne] at hready
    omega
  refine h.due_of_count_zero hwf.2.1 (fun hc => ?_) hzero
  have hpos := List.count_pos_iff.mpr hc
  rw [isZero, if_pos hzero] at hready
  omega

/-- What the host is about to push is due. -/
theorem due_of_pushRoot (h : RunInv G s) {i : ℕ} (hp : s.host = .pushRoot i) : Due G s i := by
  obtain ⟨hi, hroot⟩ := h.root i hp
  have hready := h.ready_eq i hi
  rw [hp, rootsDue, if_pos ⟨le_rfl, hroot⟩] at hready
  have hzero : s.depCount i = 0 := by
    by_contra hne
    rw [isZero, if_neg hne] at hready
    omega
  refine h.due_of_count_zero hi (fun hc => ?_) hzero
  have hpos := List.count_pos_iff.mpr hc
  rw [isZero, if_pos hzero] at hready
  omega

/-- A task that is due and the tasks of a queue are independent. -/
theorem independent_of_due (h : RunInv G s) {c : ℕ} (hd : Due G s c) (q : Qid cfg.gpuBlocks) :
    Independent G (c :: s.q q) := by
  have hfree : ∀ i ∈ c :: s.q q, i ∉ s.claimed := by
    intro i hi
    rcases List.mem_cons.mp hi with rfl | hi
    · exact fun hc => hd.not_enq (h.mem_enq_of_claimed hc)
    · exact (h.of_mem_queue hi).2
  refine ⟨List.nodup_cons.mpr ⟨fun hc => hd.not_enq (h.of_mem_queue hc).1, h.queue_nodup q⟩,
    fun i hi => ?_, fun i hi j hj hp => hfree i hi ?_⟩
  · rcases List.mem_cons.mp hi with rfl | hi
    · exact hd.lt
    · exact h.enq_lt i (h.of_mem_queue hi).1
  · rcases List.mem_cons.mp hj with rfl | hj
    · -- the last producer on the path has been claimed, and so has what it depends on
      obtain ⟨p, hip, hpj⟩ := TransGen.tail'_iff.mp hp
      have hclaimed := hd.producers p hpj
      rcases reflTransGen_iff_eq_or_transGen.mp hip with rfl | hip
      · exact hclaimed
      · exact h.claimed_of_path hip (h.mem_enq_of_claimed hclaimed)
    · exact h.claimed_of_path hp (h.of_mem_queue hj).1

/-- A due task finds room at its destination. -/
theorem room (h : RunInv G s) (hr : Routed s) (hG : s.graph = some G) (hfit : FitsQueues cfg G)
    {c : ℕ} (hd : Due G s c) : (s.q (dest cfg G c)).length < kQueueCapacity := by
  have hlen := hfit (dest cfg G c) (c :: s.q (dest cfg G c)) (h.independent_of_due hd _)
    fun i hi => by
      rcases List.mem_cons.mp hi with rfl | hi
      · rfl
      · exact hr.queue G hG _ i hi
  rw [List.length_cons] at hlen
  omega

end RunInv

/-! ## Wedged states -/

/-- The queue has no free cell. -/
def Full (s : RtState cfg) (q : Qid cfg.gpuBlocks) : Prop := kQueueCapacity ≤ (s.q q).length

/-- Party `a` waits in a push. -/
def Spins (G : FrozenGraph) (s : RtState cfg) (a : Agent cfg) : Prop :=
  ∃ ids c rel, s.pc a = .push ids c rel ∧
    Full s (publishQueue cfg a.isGpu c (G.task c).toTaskParams)

/-- The host waits in a push of its publishing loop. -/
def HostSpins (G : FrozenGraph) (s : RtState cfg) : Prop :=
  ∃ i, s.host = .pushRoot i ∧ Full s (publishQueue cfg false i (G.task i).toTaskParams)

/-- Tasks are unfinished, and either every worker waits in a push, and so does the host
unless its publishing loop is over; or all queues are empty, nobody holds a batch and
the host waits. -/
def Wedged (G : FrozenGraph) (s : RtState cfg) : Prop :=
  s.graph = some G ∧ s.nDone ≠ G.n ∧
    (((∀ w, Spins G s (.inl w)) ∧ (HostSpins G s ∨ s.host = .wait)) ∨
      (Quiet s ∧ s.host = .wait))

/-- A party that is about to push belongs to a run that is under way. -/
theorem Inv.running_of_push {s : RtState cfg} (h : Inv s) (hG : s.graph = some G)
    {a : Agent cfg} {ids : List ℕ} {c : ℕ} {rel : List (ℕ × ℕ)}
    (hp : s.pc a = .push ids c rel) : RunInv G s := by
  have hquiet : ¬ Quiet s := fun hq => by
    have hidle := hq.parties a
    rw [hp] at hidle
    exact hidle
  cases h with
  | fresh _ _ _ hq _ => exact absurd hq hquiet
  | resetting _ _ _ _ _ _ hq _ _ _ => exact absurd hq hquiet
  | running G' hG' _ _ hinv =>
    obtain rfl := Option.some.inj (hG'.symm.trans hG)
    exact hinv

/-- Every push finds room: of a worker, of a block and of the host. -/
theorem push_never_waits {E : FloatOps} {s : RtState cfg} (hs : Reach E s)
    (hG : s.graph = some G) (hfit : FitsQueues cfg G) :
    (∀ a, ¬ Spins G s a) ∧ ¬ HostSpins G s := by
  constructor
  · rintro a ⟨ids, c, rel, hp, hfull⟩
    have hinv := hs.inv.running_of_push hG hp
    rw [publishQueue_agree] at hfull
    exact absurd (hinv.room hs.routed hG hfit (hinv.due_of_push hp)) (Nat.not_lt.mpr hfull)
  · rintro ⟨i, hp, hfull⟩
    have hinv := hs.inv.running_of hG (by simp [hp]) (by simp [hp])
    exact absurd (hinv.room hs.routed hG hfit (hinv.due_of_pushRoot hp)) (Nat.not_lt.mpr hfull)

/-- Without blocks, a state in which the workers and the host wait in pushes is final. -/
theorem no_step_of_spins {E : FloatOps} {s : RtState cfg} (hG : s.graph = some G)
    (hcpu : cfg.gpuBlocks = 0) (hall : ∀ w, Spins G s (.inl w)) (hhost : HostSpins G s)
    (l : Label) (t : RtState cfg) : ¬ Step E s l t := by
  obtain ⟨i, hi, hfull⟩ := hhost
  have hspin (a : Agent cfg) : Spins G s a := by
    cases a with
    | inl w => exact hall w
    | inr b => exact absurd b.isLt (by simp [hcpu])
  have hpush {a : Agent cfg} {p : Pc cfg.gpuBlocks} (hp : s.pc a = p)
      (hne : ∀ ids c rel, p ≠ .push ids c rel) : False := by
    obtain ⟨ids, c, rel, hpc, -⟩ := hspin a
    exact hne ids c rel (hp.symm.trans hpc)
  have hgraph {G' : FrozenGraph} (h : s.graph = some G') : G' = G :=
    Option.some.inj (h.symm.trans hG)
  intro hst
  cases hst with
  | hostWrite _ ho => rw [hi] at ho; cases ho
  | begin _ _ ho => rw [hi] at ho; cases ho
  | reset _ hr _ => rw [hi] at hr; cases hr
  | activate _ hr _ => rw [hi] at hr; cases hr
  | skipTask _ hp _ _ => rw [hi] at hp; cases hp
  | foundRoot _ hp _ _ => rw [hi] at hp; cases hp
  | @pushRoot G' j q hG' hp hq hroom =>
    obtain rfl := hgraph hG'
    obtain rfl : i = j := by rw [hi] at hp; exact HostPc.pushRoot.inj hp
    rw [hq] at hroom
    exact absurd hroom (Nat.not_lt.mpr hfull)
  | published _ hp _ => rw [hi] at hp; cases hp
  | finishRun _ hw _ _ => rw [hi] at hw; cases hw
  | startPoll _ hp _ => exact hpush hp (by simp)
  | miss hp => exact hpush hp (by simp)
  | endPoll hp => exact hpush hp (by simp)
  | pop hp _ _ _ => exact hpush hp (by simp)
  | startTask _ hp => exact hpush hp (by simp)
  | read hp => exact hpush hp (by simp)
  | write hp => exact hpush hp (by simp)
  | finishTask hp => exact hpush hp (by simp)
  | execDone hp => exact hpush hp (by simp)
  | mark _ hp => exact hpush hp (by simp)
  | markDone _ hp => exact hpush hp (by simp)
  | release hp => exact hpush hp (by simp)
  | @push G' a ids c rel q hG' hp hq hroom =>
    obtain rfl := hgraph hG'
    obtain ⟨ids', c', rel', hpc, hfull'⟩ := hspin a
    obtain ⟨-, rfl, -⟩ := Pc.push.inj (hp.symm.trans hpc)
    rw [hq] at hroom
    exact absurd hroom (Nat.not_lt.mpr hfull')
  | countDone hp => exact hpush hp (by simp)

end

/-- A signal for the CPU. -/
def cpuSignal : TaskParams := { kind := .SIGNAL, affinity := .CPU }

/-- Two roots more than a queue has cells. -/
def stuffedRoots : ℕ := kQueueCapacity + 2

/-- Root 0 leads to an inner task; this task and the other roots lead to the last one. -/
def stuffedEdges : List (ℕ × ℕ) :=
  (0, stuffedRoots) :: (List.range stuffedRoots).map fun i => (i + 1, stuffedRoots + 1)

/-- The graph with these tasks and edges. -/
structure Stuffed (G : FrozenGraph) : Prop where
  n_eq : G.n = stuffedRoots + 2
  task : ∀ i < G.n, (G.task i).toTaskParams = cpuSignal
  cons_zero : G.cons 0 = [stuffedRoots]
  dep_root : ∀ i < stuffedRoots, G.depInit i = 0
  dep_inner : G.depInit stuffedRoots = 1

theorem mem_stuffedEdges {p c : ℕ} : (p, c) ∈ stuffedEdges ↔
    p = 0 ∧ c = stuffedRoots ∨ 1 ≤ p ∧ p ≤ stuffedRoots ∧ c = stuffedRoots + 1 := by
  simp only [stuffedEdges, List.mem_cons, Prod.mk.injEq, List.mem_map, List.mem_range]
  constructor
  · rintro (h | ⟨i, hi, rfl, rfl⟩)
    · exact .inl h
    · exact .inr ⟨by omega, by omega, rfl⟩
  · rintro (h | ⟨h1, h2, rfl⟩)
    · exact .inl h
    · exact .inr ⟨p - 1, by omega, by omega, rfl⟩

/-- Its calls are accepted: edges lead upwards, and only the last task leads nowhere. -/
theorem accepted_stuffed : GraphImpl.Accepted
    (GraphImpl.addsThenEdges (List.replicate (stuffedRoots + 2) cpuSignal) stuffedEdges) := by
  have hleads {p c : ℕ} : GraphImpl.Leads (GraphImpl.addsThenEdges
      (List.replicate (stuffedRoots + 2) cpuSignal) stuffedEdges) p c ↔ (p, c) ∈ stuffedEdges := by
    rw [GraphImpl.Leads, GraphImpl.edges_addsThenEdges]
  have hup {p c : ℕ} (h : (p, c) ∈ stuffedEdges) : p < c := by
    have hpos : 0 < stuffedRoots := by simp [stuffedRoots]
    rcases mem_stuffedEdges.mp h with ⟨rfl, rfl⟩ | ⟨h1, h2, rfl⟩ <;> omega
  have hsink (s : ℕ) : GraphImpl.IsSink (GraphImpl.addsThenEdges
      (List.replicate (stuffedRoots + 2) cpuSignal) stuffedEdges) s ↔ s = stuffedRoots + 1 := by
    rw [GraphImpl.IsSink, GraphImpl.records_addsThenEdges, List.length_replicate]
    simp only [hleads, mem_stuffedEdges]
    constructor
    · rintro ⟨hlt, hno⟩
      by_contra hne
      rcases Nat.eq_zero_or_pos s with rfl | hpos
      · exact hno stuffedRoots (.inl ⟨rfl, rfl⟩)
      · exact hno (stuffedRoots + 1) (.inr ⟨hpos, by omega, rfl⟩)
    · rintro rfl
      exact ⟨by omega, fun c hc => by omega⟩
  refine ⟨fun i hp => ?_, ⟨_, (hsink _).mpr rfl, fun s hs => (hsink s).mp hs⟩, fun s t _ ht => ?_,
    fun t ht => ?_⟩
  · have hlt {i j : ℕ} (h : TransGen (GraphImpl.Leads (GraphImpl.addsThenEdges
        (List.replicate (stuffedRoots + 2) cpuSignal) stuffedEdges)) i j) : i < j := by
      induction h with
      | single he => exact hup (hleads.mp he)
      | tail _ he ih => exact ih.trans (hup (hleads.mp he))
    exact absurd (hlt hp) (lt_irrefl i)
  · rw [GraphImpl.records_addsThenEdges] at ht
    rw [List.eq_of_mem_replicate (List.mem_of_getElem? ht)]
    rfl
  · rw [GraphImpl.records_addsThenEdges] at ht
    rw [List.eq_of_mem_replicate ht]
    exact GraphImpl.checkTask_ok.mp rfl

/-- Such a graph is built and frozen. -/
theorem exists_stuffed : ∃ G : FrozenGraph, Stuffed G := by
  have hlen : (List.replicate (stuffedRoots + 2) cpuSignal).length = stuffedRoots + 2 :=
    List.length_replicate
  have hroom : (List.replicate (stuffedRoots + 2) cpuSignal).length ≤ (65540 : UInt32).toNat := by
    rw [hlen]
    decide
  have hes : ∀ e ∈ stuffedEdges, e.1 < (List.replicate (stuffedRoots + 2) cpuSignal).length ∧
      e.2 < (List.replicate (stuffedRoots + 2) cpuSignal).length ∧ e.1 ≠ e.2 := by
    intro e he
    rw [hlen]
    have hpos : 0 < stuffedRoots := by simp [stuffedRoots]
    rcases mem_stuffedEdges.mp he with h | h <;> omega
  have hnd : (stuffedEdges.map Prod.fst).Nodup := by
    simp only [stuffedEdges, List.map_cons, List.map_map, List.nodup_cons]
    refine ⟨by simp, List.Nodup.map (fun a b hab => ?_) List.nodup_range⟩
    simpa using hab
  obtain ⟨g, hg, -⟩ := GraphImpl.exists_build hroom hes hnd
  obtain ⟨G, hn, htask, hcons, hdep⟩ := GraphImpl.exists_frozen hg accepted_stuffed
  rw [GraphImpl.records_addsThenEdges] at hn htask
  rw [GraphImpl.edges_addsThenEdges] at hcons
  have hdep' (c : ℕ) : G.depInit c = stuffedEdges.countP fun e => e.2 = c := by
    rw [hdep, GraphImpl.edgesInto, GraphImpl.edges_addsThenEdges]
  refine ⟨G, hn.trans hlen, fun i hi => ?_, ?_, fun i hi => ?_, ?_⟩
  · have ht := List.mem_of_getElem? (htask i hi)
    exact List.eq_of_mem_replicate ht
  · rw [hcons, stuffedEdges, List.filter_cons_of_pos (by simp), List.map_cons,
      List.filter_eq_nil_iff.mpr (by simp), List.map_nil]
  · rw [hdep', Nat.cast_eq_zero, List.countP_eq_zero]
    intro e he
    rcases mem_stuffedEdges.mp he with h | h <;> simp <;> omega
  · have hrest : ((List.range stuffedRoots).map fun i => (i + 1, stuffedRoots + 1)).countP
        (fun e => e.2 = stuffedRoots) = 0 := by
      rw [List.countP_eq_zero]
      simp
    rw [hdep', stuffedEdges, List.countP_cons_of_pos (by simp), hrest]
    rfl

section
variable {E : FloatOps} {G : FrozenGraph} {s : RtState oneWorker}

/-- The host resets the counters. -/
theorem reset_all (hs : Reach E s) (hG : s.graph = some G) {i : ℕ} (hi : s.host = .reset i)
    (hle : i ≤ G.n) (hdep : ∀ j < i, s.depCount j = G.depInit j) :
    ∃ t, Reach E t ∧ t.graph = some G ∧ t.host = .publish 0 ∧ t.active = true ∧ t.q = s.q ∧
      t.pc = s.pc ∧ t.nDone = s.nDone ∧ ∀ j < G.n, t.depCount j = G.depInit j := by
  obtain ⟨k, hk⟩ := Nat.exists_eq_add_of_le hle
  induction k generalizing s i with
  | zero =>
    have hn : G.n = i := by omega
    exact ⟨_, hs.step (.activate hG hi (by omega)), hG, rfl, rfl, rfl, rfl, rfl,
      fun j hj => hdep j (by omega)⟩
  | succ k ih =>
    have hstep := hs.step (.reset hG hi (by omega))
    obtain ⟨t, ht, hgt, hht, hat, hqt, hpt, hnt, hdt⟩ := ih hstep hG rfl (by omega)
      (fun j hj => by
        by_cases hji : j = i
        · subst hji
          simp
        · exact (Function.update_of_ne hji _ _).trans (hdep j (by omega))) (by omega)
    exact ⟨t, ht, hgt, hht, hat, hqt, hpt, hnt, hdt⟩

/-- The host publishes `k` roots with destination `q`. -/
theorem publish_roots (hs : Reach E s) (hG : s.graph = some G) {i k : ℕ}
    (hi : s.host = .publish i) {q : Qid oneWorker.gpuBlocks}
    (hroot : ∀ j, i ≤ j → j < i + k → j < G.n ∧ G.depInit j = 0 ∧ dest oneWorker G j = q)
    (hlen : (s.q q).length + k ≤ kQueueCapacity) :
    ∃ t, Reach E t ∧ t.graph = some G ∧ t.host = .publish (i + k) ∧
      (t.q q).length = (s.q q).length + k ∧ t.pc = s.pc ∧ t.nDone = s.nDone := by
  induction k generalizing s i with
  | zero => exact ⟨s, hs, hG, hi, rfl, rfl, rfl⟩
  | succ k ih =>
    obtain ⟨hlt, hdep, hdest⟩ := hroot i le_rfl (by omega)
    have h1 := hs.step (.foundRoot hG hi hlt hdep)
    have hroom : (s.q q).length < kQueueCapacity := by omega
    have h2 := h1.step (.pushRoot (i := i) (q := q) hG rfl hdest.symm hroom)
    have hgrow : ((s.enqueue q i).q q).length = (s.q q).length + 1 := by
      simp [RtState.enqueue]
    obtain ⟨t, ht, hgt, hht, hqt, hpt, hnt⟩ := ih h2 hG rfl
      (fun j hj hjk => hroot j (by omega) (by omega)) (by
        change ((s.enqueue q i).q q).length + k ≤ _
        omega)
    refine ⟨t, ht, hgt, hht.trans (congrArg _ (by omega)), hqt.trans ?_, hpt, hnt⟩
    change ((s.enqueue q i).q q).length + k = _
    omega

/-- The worker claims and executes root 0 and is about to push its consumer. -/
theorem claim_root (hs : Reach E s) (hG : s.graph = some G) (hst : Stuffed G)
    (hidle : s.pc theWorker = .idle) (hactive : s.active = true) (hq : s.q (.main 1) = [0])
    (hdep : s.depCount stuffedRoots = 1) :
    ∃ t, Reach E t ∧ t.graph = some G ∧ t.host = s.host ∧ t.q (.main 1) = [] ∧
      t.pc theWorker = .push [0] stuffedRoots [] ∧ t.nDone = s.nDone := by
  have hn : 0 < G.n := by rw [hst.n_eq]; omega
  have hprog : G.prog E 0 = .pure () := by
    rw [FrozenGraph.prog, hst.task 0 hn]
    rfl
  have hpc (u : RtState oneWorker) (p : Pc oneWorker.gpuBlocks) :
      (u.setPc theWorker p).pc theWorker = p := by
    simp [RtState.setPc]
  have hempty : Function.update s.q (.main 1) [] (.main 1) = [] := by simp
  have h1 := hs.step (.startPoll (a := theWorker) 0 hidle fun _ => hactive)
  have h2 := h1.step (.miss (a := theWorker) (q := .main 2) (hpc _ _))
  have hfront : s.q (.main 1) = [0] ++ [] := hq
  have h3 := h2.step (.pop (a := theWorker) (q := .main 1) (hpc _ _) hfront (by simp) le_rfl)
  have h4 := h3.step (.startTask (a := theWorker) (i := 0) hG (hpc _ _))
  rw [hprog] at h4
  have h5 := h4.step (.finishTask (a := theWorker) (i := 0) (hpc _ _))
  have h6 := h5.step (.execDone (a := theWorker) (hpc _ _))
  have h7 := h6.step (.mark (a := theWorker) (i := 0) hG (hpc _ _))
  have h8 := h7.step (.markDone (a := theWorker) hG (hpc _ _))
  have hrel : (theWorker : Agent oneWorker).releases ([0].flatMap G.cons) =
      [(stuffedRoots, 1)] := by
    simp [theWorker, Agent.releases, hst.cons_zero]
  rw [hrel] at h8
  have h9 := h8.step (.release (a := theWorker) (c := stuffedRoots) (k := 1) (hpc _ _))
  refine ⟨_, h9, hG, rfl, hempty, ?_, rfl⟩
  rw [hpc]
  exact if_pos hdep

end

end FastLlm
