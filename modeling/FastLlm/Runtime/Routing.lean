import FastLlm.Runtime.RunOnce

/-!
# Who executes what

Every task has one destination, and publishers on both sides agree on it.  So in
every reachable state a queue holds only tasks that belong there, and a party holds
only tasks whose destination it polls.  Two properties of the routing follow:
neither engine executes what only the other one can, and a queued task is in a queue
that somebody polls — the second with one exception, which is stated exactly.

## Main definitions

* `dest` — the destination of a task.
* `Serves`, `Served` — the queues a party polls, at some time or in every round.
* `Routed` — the typing invariant; `Reach.routed`.
* `engine_isolation`, `served_iff` — the two properties.
-/

namespace FastLlm

/-- The configurations the constructor and the launch set up: rings only with the GPU
on, and a grid of 1 to 64 blocks. -/
structure RtConfig.Constructed (cfg : RtConfig) : Prop where
  perblock_gpu : cfg.perblockQ = true → cfg.gpuEnabled = true
  grid : cfg.gpuEnabled = true → 1 ≤ cfg.gpuBlocks ∧ cfg.gpuBlocks ≤ 64

section
variable {cfg : RtConfig}

/-- The queue a host publisher pushes task `i` to, and so everybody. -/
def dest (cfg : RtConfig) (G : FrozenGraph) (i : ℕ) : Qid cfg.gpuBlocks :=
  publishQueue cfg false i (G.task i).toTaskParams

/-- Some round of `a` looks into queue `q`. -/
def Serves (a : Agent cfg) (q : Qid cfg.gpuBlocks) : Prop := ∃ rr, q ∈ a.polls rr

/-- Somebody looks into queue `q` in every round. -/
def Served (cfg : RtConfig) (q : Qid cfg.gpuBlocks) : Prop :=
  ∃ a : Agent cfg, ∀ rr, q ∈ a.polls rr

/-! ## The typing invariant -/

/-- What queues hold is destined there, and what a party polls or holds it serves. -/
structure Routed (s : RtState cfg) : Prop where
  queue : ∀ G, s.graph = some G → ∀ q, ∀ i ∈ s.q q, dest cfg G i = q
  poll : ∀ a qs, s.pc a = .poll qs → ∀ q ∈ qs, Serves a q
  held : ∀ G, s.graph = some G → ∀ a, ∀ i ∈ (s.pc a).held, Serves a (dest cfg G i)

theorem routed_init (m : Loc → Word) (dep : ℕ → ℤ) : Routed (RtState.init cfg m dep) where
  queue _ hG := by cases hG
  poll _ _ hp := by cases hp
  held _ hG := by cases hG

namespace Routed
variable {s t : RtState cfg}

/-- A step of one party keeps the typing when the queues stay typed and the party moves
to a typed program counter. -/
theorem move (h : Routed s) {a : Agent cfg} {p : Pc cfg.gpuBlocks}
    (hpc : t.pc = Function.update s.pc a p) (hgraph : t.graph = s.graph)
    (hqueue : ∀ G, s.graph = some G → ∀ q, ∀ i ∈ t.q q, dest cfg G i = q)
    (hpoll : ∀ qs, p = .poll qs → ∀ q ∈ qs, Serves a q)
    (hheld : ∀ G, s.graph = some G → ∀ i ∈ p.held, Serves a (dest cfg G i)) : Routed t := by
  refine ⟨fun G hG => hqueue G (hgraph ▸ hG), fun b qs hb => ?_, fun G hG b => ?_⟩
  · rw [hpc] at hb
    by_cases hba : b = a
    · subst hba
      exact hpoll qs (by simpa using hb)
    · exact h.poll b qs (by simpa [Function.update_of_ne hba] using hb)
  · rw [hpc]
    by_cases hba : b = a
    · subst hba
      simpa using hheld G (hgraph ▸ hG)
    · simpa [Function.update_of_ne hba] using h.held G (hgraph ▸ hG) b

/-- A step inside a batch: the queues and the batch stay. -/
theorem inside (h : Routed s) {a : Agent cfg} {p p' : Pc cfg.gpuBlocks} (hp : s.pc a = p)
    (hpc : t.pc = Function.update s.pc a p') (hgraph : t.graph = s.graph) (hq : t.q = s.q)
    (hheld : p'.held = p.held) (hno : ∀ qs, p' ≠ .poll qs) : Routed t := by
  apply h.move hpc hgraph
  · intro G hG
    rw [hq]
    exact h.queue G hG
  · intro qs hqs
    exact absurd hqs (hno qs)
  · intro G hG
    rw [hheld, ← hp]
    exact h.held G hG a

/-- A task enqueued at its destination. -/
theorem enqueue (h : Routed s) {G : FrozenGraph} (hG : s.graph = some G) {i : ℕ}
    {q : Qid cfg.gpuBlocks} (hq : q = dest cfg G i) :
    ∀ G', s.graph = some G' → ∀ k, ∀ j ∈ (s.enqueue q i).q k, dest cfg G' j = k := by
  intro G' hG' k j hj
  obtain rfl := Option.some.inj (hG.symm.trans hG')
  simp only [RtState.enqueue] at hj
  by_cases hk : k = q
  · subst hk
    rw [Function.update_self, List.mem_append, List.mem_singleton] at hj
    rcases hj with hj | rfl
    · exact h.queue G hG k j hj
    · exact hq.symm
  · rw [Function.update_of_ne hk] at hj
    exact h.queue G hG k j hj

/-- A step of the host that leaves queues and parties alone. -/
theorem host (h : Routed s) (hgraph : t.graph = s.graph) (hq : t.q = s.q) (hpc : t.pc = s.pc) :
    Routed t := by
  refine ⟨fun G hG => ?_, fun a qs hp => ?_, fun G hG a => ?_⟩
  · rw [hq]
    exact h.queue G (hgraph ▸ hG)
  · exact h.poll a qs (hpc ▸ hp)
  · rw [hpc]
    exact h.held G (hgraph ▸ hG) a

/-- The step lemma for workers and blocks. -/
theorem agent_step {E : FloatOps} (h : Routed s) {ts : List ℕ} (hst : Step E s (.agent ts) t) :
    Routed t := by
  cases hst with
  | @startPoll a rr hp _ =>
    refine h.move rfl rfl h.queue (fun qs hqs q hq => ?_) (fun G _ i hi => absurd hi List.not_mem_nil)
    obtain rfl := Pc.poll.inj hqs
    exact ⟨rr, hq⟩
  | @miss a q qs hp =>
    refine h.move rfl rfl h.queue (fun qs' hqs q' hq' => ?_)
      (fun G _ i hi => absurd hi List.not_mem_nil)
    obtain rfl := Pc.poll.inj hqs
    exact h.poll a _ hp q' (List.mem_cons_of_mem _ hq')
  | endPoll hp =>
    exact h.move rfl rfl h.queue (fun qs hqs => by cases hqs)
      (fun G _ i hi => absurd hi List.not_mem_nil)
  | @pop a q qs ids rest hp hq hne hlen =>
    refine h.move rfl rfl (fun G hG k j hj => ?_) (fun qs' hqs => by cases hqs)
      (fun G hG i hi => ?_)
    · simp only [RtState.setPc] at hj
      by_cases hk : k = q
      · subst hk
        rw [Function.update_self] at hj
        exact h.queue G hG k j (hq ▸ List.mem_append_right _ hj)
      · rw [Function.update_of_ne hk] at hj
        exact h.queue G hG k j hj
    · -- what was in the queue is destined there, and the party polls it
      rw [h.queue G hG q i (hq ▸ List.mem_append_left _ hi)]
      exact h.poll a _ hp q List.mem_cons_self
  | startTask _ hp => exact h.inside hp rfl rfl rfl rfl (by simp)
  | read hp => exact h.inside hp rfl rfl rfl rfl (by simp)
  | write hp => exact h.inside hp rfl rfl rfl rfl (by simp)
  | finishTask hp => exact h.inside hp rfl rfl rfl rfl (by simp)
  | execDone hp => exact h.inside hp rfl rfl rfl rfl (by simp)
  | mark _ hp => exact h.inside hp rfl rfl rfl rfl (by simp)
  | markDone _ hp => exact h.inside hp rfl rfl rfl rfl (by simp)
  | release hp =>
    refine h.inside hp rfl rfl rfl ?_ ?_ <;> split_ifs <;> simp [Pc.held]
  | @push G a ids c rel q hG hp hq _ =>
    refine h.move rfl rfl ?_ (fun qs hqs => by cases hqs) (fun G' hG' i hi => ?_)
    · exact h.enqueue hG (hq.trans (publishQueue_agree a c _))
    · have hold := h.held G' hG' a
      rw [hp] at hold
      exact hold i hi
  | countDone hp =>
    exact h.move rfl rfl h.queue (fun qs hqs => by cases hqs)
      (fun G _ i hi => absurd hi List.not_mem_nil)

/-- The step lemma. -/
theorem step {E : FloatOps} {l : Label} (h : Routed s) (hinv : Inv s) (hst : Step E s l t) :
    Routed t := by
  cases l with
  | agent ts => exact h.agent_step hst
  | begin =>
    cases hst with
    | begin G dep ho =>
      -- a run begins with empty queues, and nobody holds a batch
      have hquiet := hinv.quiet_outside ho
      refine ⟨fun G' _ q i hi => ?_, h.poll, fun G' _ a i hi => ?_⟩
      · rw [show _ = _ from hquiet.queues q] at hi
        exact absurd hi List.not_mem_nil
      · have hidle := hquiet.parties a
        change i ∈ (s.pc a).held at hi
        cases hp : s.pc a with
        | idle => rw [hp] at hi; exact absurd hi List.not_mem_nil
        | poll _ => rw [hp] at hi; exact absurd hi List.not_mem_nil
        | _ => rw [hp] at hidle; exact hidle.elim
  | host ts =>
    cases hst with
    | @pushRoot G i q hG hp hq _ => exact ⟨h.enqueue hG hq, h.poll, h.held⟩
    | hostWrite => exact h.host rfl rfl rfl
    | reset => exact h.host rfl rfl rfl
    | activate => exact h.host rfl rfl rfl
    | skipTask => exact h.host rfl rfl rfl
    | foundRoot => exact h.host rfl rfl rfl
    | published => exact h.host rfl rfl rfl
    | finishRun => exact h.host rfl rfl rfl

end Routed

/-- The run lemma. -/
theorem Reach.routed {E : FloatOps} {s : RtState cfg} (h : Reach E s) : Routed s := by
  induction h with
  | init m dep => exact routed_init m dep
  | step hs hst ih => exact ih.step hs.inv hst

/-! ## Isolation of the engines -/

/-- A dot over a codebook format, plain or through an expert id. -/
def CodebookTile (t : TaskParams) : Prop :=
  (t.kind = .STREAM_DOT ∨ t.kind = .STREAM_DOT_IDX) ∧ fmtIsCodebook t.fmt = true

/-- A decode operation, executed by one lane on a block. -/
def DecodeOp (t : TaskParams) : Prop := TaskKind.RMSNORM.num ≤ t.kind.num

theorem mem_ringsFrom {start count : ℕ} {q : Qid cfg.gpuBlocks}
    (h : q ∈ (ringsFrom start count : List (Qid cfg.gpuBlocks))) : ∃ b, q = .ring b := by
  unfold ringsFrom at h
  split at h
  · obtain ⟨k, -, rfl⟩ := List.mem_map.mp h
    exact ⟨_, rfl⟩
  · exact absurd h List.not_mem_nil

/-- No worker looks into the queue of the codebook dots. -/
theorem not_serves_worker (w : Fin cfg.cpuThreads) :
    ¬ Serves (.inl w : Agent cfg) (.main 3 : Qid cfg.gpuBlocks) := by
  rintro ⟨rr, hq⟩
  simp only [Agent.polls, cpuPolls, List.mem_append] at hq
  rcases hq with hq | hq
  · simp at hq
  · split_ifs at hq
    · simp at hq
    · obtain ⟨b, hb⟩ := mem_ringsFrom hq
      cases hb
    · simp at hq

/-- No block looks into the queue of the decode operations. -/
theorem not_serves_block (b : Fin cfg.gpuBlocks) :
    ¬ Serves (.inr b : Agent cfg) (.main 2 : Qid cfg.gpuBlocks) := by
  rintro ⟨rr, hq⟩
  simp only [Agent.polls, gpuPolls, List.mem_append] at hq
  rcases hq with (hq | hq) | hq
  · split_ifs at hq <;> simp at hq
  · split_ifs at hq
    · obtain ⟨b', hb⟩ := mem_ringsFrom hq
      cases hb
    · simp at hq
  · split_ifs at hq <;> simp at hq

theorem publishQueue_of_ne_zero {fromGpu : Bool} {id : ℕ} {t : TaskParams}
    (h : taskQueue t (fromGpu || cfg.gpuEnabled) ≠ 0) :
    publishQueue cfg fromGpu id t = .main (taskQueue t (fromGpu || cfg.gpuEnabled)) := by
  simp [publishQueue, h]

theorem dest_codebook {G : FrozenGraph} {i : ℕ} (hon : cfg.gpuEnabled = true)
    (h : CodebookTile (G.task i).toTaskParams) : dest cfg G i = .main 3 := by
  obtain ⟨hkind, hfmt⟩ := h
  have hop : ¬ TaskKind.RMSNORM.num ≤ (G.task i).kind.num := by
    rcases hkind with hk | hk <;> rw [hk] <;> decide
  have hq : taskQueue (G.task i).toTaskParams (false || cfg.gpuEnabled) = 3 := by
    simp [taskQueue, hop, hfmt, hon]
  rw [dest, publishQueue_of_ne_zero (by rw [hq]; decide), hq]

theorem dest_decodeOp {G : FrozenGraph} {i : ℕ} (h : DecodeOp (G.task i).toTaskParams) :
    dest cfg G i = .main 2 := by
  have hop : TaskKind.RMSNORM.num ≤ (G.task i).kind.num := h
  have hq : taskQueue (G.task i).toTaskParams (false || cfg.gpuEnabled) = 2 := by
    simp [taskQueue, hop]
  rw [dest, publishQueue_of_ne_zero (by rw [hq]; decide), hq]

/-- What a party executes it holds. -/
theorem Inv.mem_held {s : RtState cfg} (h : Inv s) {a : Agent cfg} {i : ℕ}
    (hi : i ∈ (s.pc a).runningIds) : i ∈ (s.pc a).held := by
  have hquiet : Quiet s → i ∈ (s.pc a).held := by
    intro hq
    have hidle := hq.parties a
    cases hp : s.pc a with
    | exec ids todo running => rw [hp] at hidle; exact hidle.elim
    | _ => rw [hp] at hi; exact absurd hi List.not_mem_nil
  cases h with
  | fresh _ _ _ hq _ => exact hquiet hq
  | resetting _ _ _ _ _ _ hq _ _ _ => exact hquiet hq
  | running G _ _ _ hinv =>
    have hwf := hinv.pc_wf a
    cases hp : s.pc a with
    | exec ids todo running =>
      rw [hp] at hwf hi
      exact hwf.2.2.2 i hi
    | _ => rw [hp] at hi; exact absurd hi List.not_mem_nil

/-- **Engine isolation.**  In every reachable state of a runtime with the GPU on, with
or without stealing and rings, no worker has claimed or is executing a codebook tile,
and no block a decode operation. -/
theorem engine_isolation {E : FloatOps} {s : RtState cfg} (hs : Reach E s)
    (hon : cfg.gpuEnabled = true) {G : FrozenGraph} (hG : s.graph = some G) (a : Agent cfg)
    {i : ℕ} (hi : i ∈ (s.pc a).held ∨ i ∈ (s.pc a).runningIds) :
    (a.isGpu = false → ¬ CodebookTile (G.task i).toTaskParams) ∧
      (a.isGpu = true → ¬ DecodeOp (G.task i).toTaskParams) := by
  have hheld : i ∈ (s.pc a).held := hi.elim id hs.inv.mem_held
  have hserves := hs.routed.held G hG a i hheld
  cases a with
  | inl w =>
    refine ⟨fun _ htile => ?_, fun hgpu => (by cases hgpu)⟩
    rw [dest_codebook hon htile] at hserves
    exact not_serves_worker w hserves
  | inr b =>
    refine ⟨fun hcpu => (by cases hcpu), fun _ hop => ?_⟩
    rw [dest_decodeOp hop] at hserves
    exact not_serves_block b hserves

/-- One worker and one block. -/
def workerAndBlock : RtConfig :=
  { oneWorker with
    gpuBlocks := 1
    gpuEnabled := true
    gpu_off := by decide }

/-- The worker of `workerAndBlock` claims the decode operation of `addThenSignal`. -/
theorem workerAndBlock_claims (E : FloatOps) : ∃ (s : RtState workerAndBlock)
    (a : Agent workerAndBlock), Reach E s ∧ s.graph = some addThenSignal ∧ a.isGpu = false ∧
      0 ∈ (s.pc a).held := by
  have h : Reach E (.init workerAndBlock (fun _ => 0) fun _ => 7) := .init _ _
  have h := h.step (.begin addThenSignal (fun _ => 7) rfl)
  have h := h.step (.reset rfl rfl (by decide))
  have h := h.step (.reset rfl rfl (by decide))
  have h := h.step (.activate rfl rfl (by decide))
  have h := h.step (.foundRoot rfl rfl (by decide) rfl)
  have h := h.step (.pushRoot rfl rfl rfl (by decide))
  have h := h.step (.startPoll (a := .inl ⟨0, workerAndBlock.cpuThreads_pos⟩) 0 rfl fun _ => rfl)
  have h := h.step (.pop (a := .inl ⟨0, workerAndBlock.cpuThreads_pos⟩) rfl
    (show _ = [0] ++ [] from rfl) (by simp) le_rfl)
  have hmem : 0 ∈ [0] := List.mem_cons_self
  exact ⟨_, .inl ⟨0, workerAndBlock.cpuThreads_pos⟩, h, rfl, rfl, hmem⟩

theorem engine_isolation_workerAndBlock :
    ∃ (s : RtState workerAndBlock) (a : Agent workerAndBlock),
      Reach default s ∧ a.isGpu = false ∧ 0 ∈ (s.pc a).held ∧
        ¬ CodebookTile (addThenSignal.task 0).toTaskParams := by
  obtain ⟨s, a, hs, hG, hcpu, hheld⟩ := workerAndBlock_claims default
  exact ⟨s, a, hs, hcpu, hheld, (engine_isolation hs rfl hG a (.inl hheld)).1 hcpu⟩

/-! ## Every queue is served -/

/-- A task for the GPU that a worker may steal. -/
def GpuAffine (t : TaskParams) : Prop :=
  ¬ DecodeOp t ∧ fmtIsCodebook t.fmt = false ∧ t.affinity = .GPU

theorem served_main_two : Served cfg (.main 2) :=
  ⟨.inl ⟨0, cfg.cpuThreads_pos⟩, fun rr => by simp [Agent.polls, cpuPolls]⟩

theorem served_main_one : Served cfg (.main 1) :=
  ⟨.inl ⟨0, cfg.cpuThreads_pos⟩, fun rr => by simp [Agent.polls, cpuPolls]⟩

theorem served_main_three (h : 0 < cfg.gpuBlocks) : Served cfg (.main 3) :=
  ⟨.inr ⟨0, h⟩, fun rr => by simp [Agent.polls, gpuPolls]⟩

theorem served_ring (hring : cfg.perblockQ = true) (b : Fin cfg.gpuBlocks) :
    Served cfg (.ring b) :=
  ⟨.inr b, fun rr => by simp [Agent.polls, gpuPolls, hring]⟩

theorem served_main_zero_gpu (hring : cfg.perblockQ = false) (h : 0 < cfg.gpuBlocks) :
    Served cfg (.main 0) :=
  ⟨.inr ⟨0, h⟩, fun rr => by simp [Agent.polls, gpuPolls, hring]⟩

theorem served_main_zero_cpu (hring : cfg.perblockQ = false) (hsteal : cfg.noSteal = false) :
    Served cfg (.main 0) :=
  ⟨.inl ⟨0, cfg.cpuThreads_pos⟩, fun rr => by simp [Agent.polls, cpuPolls, hring, hsteal]⟩

/-- Without the GPU and without stealing nobody looks into the queue of the GPU. -/
theorem not_mem_polls (hoff : cfg.gpuEnabled = false) (hno : cfg.noSteal = true) (a : Agent cfg)
    (rr : ℕ) : (.main 0 : Qid cfg.gpuBlocks) ∉ a.polls rr := by
  cases a with
  | inl w => simp [Agent.polls, cpuPolls, hno]
  | inr b => exact absurd b.isLt (by simp [cfg.gpu_off hoff])

/-- Without the GPU, its queue gets the tasks with its affinity and no others. -/
theorem taskQueue_off_eq_zero {t : TaskParams} : taskQueue t false = 0 ↔ GpuAffine t := by
  rw [taskQueue, GpuAffine, DecodeOp]
  by_cases hop : TaskKind.RMSNORM.num ≤ t.kind.num
  · simp [hop]
  · cases hfmt : fmtIsCodebook t.fmt with
    | true => simp [hop]
    | false => cases haff : t.affinity <;> simp [hop]

/-- Only a runtime with the GPU on uses the queue of the codebook dots. -/
theorem taskQueue_cases (t : TaskParams) (on : Bool) :
    taskQueue t on = 0 ∨ taskQueue t on = 1 ∨ taskQueue t on = 2 ∨
      on = true ∧ taskQueue t on = 3 := by
  unfold taskQueue
  split_ifs with _ _ hon <;> simp_all

/-- The destination of a task is served unless the GPU is off, stealing is off and the
task has GPU affinity. -/
theorem served_dest_iff (hc : cfg.Constructed) (G : FrozenGraph) (i : ℕ) :
    Served cfg (dest cfg G i) ↔
      cfg.gpuEnabled = true ∨ cfg.noSteal = false ∨ ¬ GpuAffine (G.task i).toTaskParams := by
  by_cases hzero : taskQueue (G.task i).toTaskParams (false || cfg.gpuEnabled) = 0
  · cases hon : cfg.gpuEnabled with
    | true =>
      have hblocks : 0 < cfg.gpuBlocks := (hc.grid hon).1
      refine iff_of_true ?_ (.inl rfl)
      cases hring : cfg.perblockQ with
      | true =>
        rw [dest, publishQueue, dif_pos ⟨hzero, hring, hblocks⟩]
        exact served_ring hring _
      | false =>
        rw [dest, publishQueue, dif_neg (by simp [hring]), hzero]
        exact served_main_zero_gpu hring hblocks
    | false =>
      have hring : cfg.perblockQ = false := by
        cases hr : cfg.perblockQ with
        | false => rfl
        | true => exact absurd (hc.perblock_gpu hr) (by simp [hon])
      have hdest : dest cfg G i = .main 0 := by
        rw [dest, publishQueue, dif_neg (by simp [hring]), hzero]
      have haff : GpuAffine (G.task i).toTaskParams := by
        rw [hon] at hzero
        exact taskQueue_off_eq_zero.mp hzero
      rw [hdest]
      cases hno : cfg.noSteal with
      | false => exact iff_of_true (served_main_zero_cpu hring hno) (.inr (.inl rfl))
      | true =>
        refine iff_of_false ?_ (by simp [haff])
        rintro ⟨a, ha⟩
        exact not_mem_polls hon hno a 0 (ha 0)
  · rw [dest, publishQueue_of_ne_zero hzero]
    have haff : cfg.gpuEnabled = true ∨ cfg.noSteal = false ∨
        ¬ GpuAffine (G.task i).toTaskParams := by
      cases hon : cfg.gpuEnabled with
      | true => exact .inl rfl
      | false =>
        rw [hon] at hzero
        exact .inr (.inr fun h => hzero (taskQueue_off_eq_zero.mpr h))
    refine iff_of_true ?_ haff
    rcases taskQueue_cases (G.task i).toTaskParams cfg.gpuEnabled with hq | hq | hq | ⟨hon, hq⟩
    · exact absurd hq hzero
    · rw [Bool.false_or, hq]
      exact served_main_one
    · rw [Bool.false_or, hq]
      exact served_main_two
    · rw [Bool.false_or, hq]
      exact served_main_three (hc.grid hon).1

/-- The publishers: the host and the workers, and the blocks when there are any. -/
theorem publishQueue_eq_dest {fromGpu : Bool} (hfrom : fromGpu = true → 0 < cfg.gpuBlocks)
    (G : FrozenGraph) (i : ℕ) :
    publishQueue cfg fromGpu i (G.task i).toTaskParams = dest cfg G i := by
  cases fromGpu with
  | false => rfl
  | true => exact publishQueue_agree (.inr ⟨0, hfrom rfl⟩) i _

/-- **Every queue is served**, exactly when the GPU is on, stealing is on or the graph has
no task with GPU affinity.  Then, in every reachable state, a queue that holds a task is
in somebody's poll loop. -/
theorem served_iff (E : FloatOps) (hc : cfg.Constructed) (G : FrozenGraph) :
    ((∀ i < G.n, ∀ fromGpu : Bool, (fromGpu = true → 0 < cfg.gpuBlocks) →
        Served cfg (publishQueue cfg fromGpu i (G.task i).toTaskParams)) ↔
      cfg.gpuEnabled = true ∨ cfg.noSteal = false ∨
        ∀ i < G.n, ¬ GpuAffine (G.task i).toTaskParams) ∧
    ((cfg.gpuEnabled = true ∨ cfg.noSteal = false ∨
        ∀ i < G.n, ¬ GpuAffine (G.task i).toTaskParams) →
      ∀ s : RtState cfg, Reach E s → s.graph = some G → ∀ q, s.q q ≠ [] → Served cfg q) := by
  have hone (i : ℕ) (hcond : cfg.gpuEnabled = true ∨ cfg.noSteal = false ∨
      ∀ i < G.n, ¬ GpuAffine (G.task i).toTaskParams) (hi : i < G.n) :
      Served cfg (dest cfg G i) :=
    (served_dest_iff hc G i).mpr (hcond.imp_right (Or.imp_right fun h => h i hi))
  refine ⟨⟨fun h => ?_, fun hcond i hi fromGpu hfrom => ?_⟩, fun hcond s hs hG q hq => ?_⟩
  · by_cases hon : cfg.gpuEnabled = true
    · exact .inl hon
    · by_cases hno : cfg.noSteal = false
      · exact .inr (.inl hno)
      · refine .inr (.inr fun i hi => ?_)
        have hserved := (served_dest_iff hc G i).mp (h i hi false (by simp))
        tauto
  · rw [publishQueue_eq_dest hfrom]
    exact hone i hcond hi
  · obtain ⟨i, hi⟩ := List.exists_mem_of_ne_nil _ hq
    have hlt : i < G.n := by
      cases hs.inv with
      | fresh hg => rw [hg] at hG; cases hG
      | resetting _ _ _ _ _ _ hquiet =>
        rw [hquiet.queues q] at hi
        exact absurd hi List.not_mem_nil
      | running G' hG' _ _ hinv =>
        obtain rfl := Option.some.inj (hG'.symm.trans hG)
        have hall : s.q q = s.q q ++ [] := (List.append_nil _).symm
        exact (hinv.of_queue hall).1 i hi
    rw [← hs.routed.queue G hG q i hi]
    exact hone i hcond hlt

end

theorem served_iff_oneWorker :
    (∀ i < addThenSignal.n, ∀ fromGpu : Bool, (fromGpu = true → 0 < oneWorker.gpuBlocks) →
        Served oneWorker (publishQueue oneWorker fromGpu i (addThenSignal.task i).toTaskParams)) ∧
    ∀ s : RtState oneWorker, Reach default s → s.graph = some addThenSignal →
      ∀ q, s.q q ≠ [] → Served oneWorker q := by
  have hc : oneWorker.Constructed := ⟨by decide, by decide⟩
  obtain ⟨hiff, hreach⟩ := served_iff default hc addThenSignal
  exact ⟨hiff.mpr (.inr (.inl rfl)), hreach (.inr (.inl rfl))⟩

/-! ### A task nobody takes -/

/-- One worker that does not steal, no GPU. -/
def strictWorker : RtConfig := { oneWorker with noSteal := true }

/-- A signal with the default affinity. -/
def soleSignal : FrozenGraph where
  g := { tasks := [{ kind := .SIGNAL }], max := 1, terminal := 0, frozen := true }
  built := .freeze (.add (.create 1) (t := { kind := .SIGNAL }) rfl) rfl
  frozen := rfl

/-- The host publishes the signal to the queue of the GPU, and nobody looks there. -/
theorem soleSignal_orphaned : strictWorker.Constructed ∧
    ∃ s : RtState strictWorker, Reach default s ∧ s.graph = some soleSignal ∧
      0 ∈ s.q (.main 0) ∧ ∀ (a : Agent strictWorker) (rr : ℕ), .main 0 ∉ a.polls rr := by
  have h : Reach default (.init strictWorker (fun _ => 0) fun _ => 0) := .init _ _
  have h := h.step (.begin soleSignal (fun _ => 0) rfl)
  have h := h.step (.reset rfl rfl (by decide))
  have h := h.step (.activate rfl rfl (by decide))
  have h := h.step (.foundRoot rfl rfl (by decide) rfl)
  have h := h.step (.pushRoot rfl rfl rfl (by decide))
  have hmem : 0 ∈ [0] := List.mem_cons_self
  exact ⟨⟨by decide, by decide⟩, _, h, rfl, hmem, not_mem_polls rfl rfl⟩

end FastLlm
