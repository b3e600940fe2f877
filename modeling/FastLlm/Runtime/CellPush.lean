import FastLlm.Runtime.CellRefine
import FastLlm.Runtime.QueueFifo

/-!
# Pushes that return false

A push returns false when the cell it looks at lags behind its copy of `head`.  As long as every
claim finds its cells ready, none does: the cell of a push was left free by an earlier run, or
has never been used (`push_never_fails`).

A claim may also come too late.  A worker finds a task ready and is suspended before its
compare-and-swap on `tail`; another worker takes the task, and run after run follows until `tail`
has gone round its `2³²` values.  The compare-and-swap then succeeds although nothing is ready:
the worker recycles a cell a push is filling, and nobody will recycle it after the push.  The push
one lap of the cells later finds it so and returns false (`push_fails_late`).

## Main definitions

* `Goes` — a party has got on inside one queue while nobody else moved.
* `Resting` — the state between two runs, after `k` tasks.
* `Lapping`, `Stuck` — before and after the claim that comes too late.
-/

namespace FastLlm
open ReadyQueue (wrap dif State Queue)

namespace ReadyQueue
variable {ι : Type}

/-- A counter that is ahead by less than half a turn. -/
theorem dif_nonneg {p j : ℕ} (hj : j < 2 ^ 31) : 0 ≤ dif (wrap (p + j)) (wrap p) := by
  have hsub : (wrap (p + j) - wrap p).toNat = j := by
    rw [UInt32.toNat_sub, wrap_toNat, wrap_toNat]
    omega
  have hbit : (wrap (p + j) - wrap p).toBitVec.toNat = j := hsub
  change 0 ≤ (wrap (p + j) - wrap p).toBitVec.toInt
  rw [BitVec.toInt, hbit]
  omega

/-- The `seq` of the cell of an enqueued position, or of a vacant one that comes next. -/
theorem Mirrors.seqAt_ahead {n : ℕ} {m : Queue} {r : Ring ι UInt32} (hcap : Capacity n)
    (h : Mirrors n m r) {p : ℕ} (hp : p ≤ r.enq.length) (hlap : r.enq.length ≤ p + n)
    (hvacant : r.Vacant n r.enq.length) :
    ∃ j ≤ n, m.seqAt (wrap p) = wrap (p + j) := by
  have hpos := hcap.pos
  rw [h.seqAt hcap]
  rcases Nat.lt_or_eq_of_le hp with hlt | rfl
  · rw [h.seq p hlt hlap]
    cases r.phase p with
    | fresh | reserved | stored => exact ⟨0, Nat.zero_le n, rfl⟩
    | ready | claimed | taken => exact ⟨1, hpos, rfl⟩
    | free => exact ⟨n, le_rfl, rfl⟩
  · refine ⟨0, Nat.zero_le n, ?_⟩
    rcases Nat.lt_or_ge r.enq.length n with hlt | hge
    · rw [Nat.mod_eq_of_lt hlt]
      exact h.seq_fresh _ hlt le_rfl
    · have hcell : (r.enq.length - n) % n = r.enq.length % n := (Nat.mod_eq_sub_mod hge).symm
      rw [← hcell, h.seq _ (by omega) (by omega), hvacant hge, seqOf, Nat.sub_add_cancel hge]
      rfl

end ReadyQueue

section
variable {cfg : RtConfig} {E : FloatOps} {c : CellState cfg} {a : Party cfg}
  {q : Qid cfg.gpuBlocks} {light : Bool} {ok : State (Party cfg) → Party cfg → Prop}

/-- The cell a push looks at does not lag behind its copy of `head`. -/
theorem CellInv.dif_nonneg (h : CellInv E c) {v pos : UInt32}
    (hpc : (c.queue q).pc a = .pushSeq v pos) :
    0 ≤ ReadyQueue.dif ((c.queue q).q.seqAt pos) pos := by
  obtain ⟨op, hop, hcov⟩ := h.calls a q (by rw [hpc]; simp)
  rw [hpc] at hcov
  obtain rfl := ReadyQueue.Op.eq_push_of_covers (.inl hcov)
  have hlt := h.length_enq_lt hop (by rw [hpc]; exact ⟨rfl, rfl⟩)
  obtain ⟨start, hturn⟩ := h.turn
  have hroom := hturn.room q
  obtain ⟨p, hstart, hp, rfl⟩ := hturn.copy q a v pos hpc
  have hmirror := (h.queues q).mirrors
  obtain ⟨j, hj, hseq⟩ := hmirror.seqAt_ahead capacity_kQueueCapacity hp (by omega)
    (h.vacant hop (by rw [hpc]; exact ⟨rfl, rfl⟩))
  rw [hseq]
  exact ReadyQueue.dif_nonneg (hj.trans_lt (by decide))

/-- In every run whose claims find their cells ready, over any number of runs of graphs of at
most as many tasks as a queue has cells, no push returns false. -/
theorem push_never_fails {light : Bool} (h : CellReach E light State.ClaimsReady c)
    (q : Qid cfg.gpuBlocks) (a : Party cfg) : ¬ (c.queue q).PushFails a := by
  rintro ⟨v, pos, hpc, hdif⟩
  exact absurd (h.inv.dif_nonneg hpc) (not_le.mpr hdif)

/-- The host steps, and has come to no push. -/
theorem CellReach.hostStep (h : CellReach E light ok c) {l : Label} {t : RtState cfg}
    {G : FrozenGraph} (hst : Step E c.rt l t) (hop : ∀ i, c.rt.host ≠ .pushRoot i)
    (hpc : t.pc = c.rt.pc) (hG : t.graph = some G) (hfit : G.n ≤ kQueueCapacity) :
    CellReach E light ok { c with rt := t } := by
  refine h.inner hst ⟨fun hb => ?_, fun b _ => by rw [hpc]⟩ fun G' hG' => ?_
  · rw [RtState.queueOp_none_eq_none hop] at hb
    cases hb
  · obtain rfl := Option.some.inj (hG'.symm.trans hG)
    exact hfit

end

theorem push_never_fails_addThenSignal : ∃ c : CellState oneWorker,
    CellReach default false State.ClaimsReady c ∧
      (c.queue (.main 2)).pc none = .pushSeq 0 0 ∧ ¬ (c.queue (.main 2)).PushFails none := by
  have hfit : addThenSignal.n ≤ kQueueCapacity := by decide
  have h : CellReach default false State.ClaimsReady
      (.init oneWorker false (fun _ => 0) fun _ => 0) := .init _ _
  have h := h.hostStep (.begin addThenSignal (fun _ => 0) rfl)
    (by simp [CellState.init, RtState.init]) rfl rfl hfit
  have h := h.hostStep (.reset rfl rfl (by decide)) (by simp) rfl rfl hfit
  have h := h.hostStep (.reset rfl rfl (by decide)) (by simp) rfl rfl hfit
  have h := h.hostStep (.activate rfl rfl (by decide)) (by simp) rfl rfl hfit
  have h := h.hostStep (.foundRoot rfl rfl (by decide) rfl) (by simp) rfl rfl hfit
  obtain ⟨s, hs, hG, hhost⟩ : ∃ s, CellReach default false State.ClaimsReady
      { CellState.init oneWorker false (fun _ => 0) fun _ => 0 with rt := s } ∧
      s.graph = some addThenSignal ∧ s.host = .pushRoot 0 := ⟨_, h, rfl, rfl⟩
  have hop : s.queueOp none = some (.main 2, .push 0) := by
    rw [RtState.queueOp, hG, hhost]
    rfl
  have h := hs.call hop rfl
  have h := h.access hop (show ReadyQueue.Pc.pushLoad 0 ≠ .idle by simp) trivial
  exact ⟨_, h, rfl, push_never_fails h _ _⟩

/-! ## A claim that comes a lap too late -/

/-- The states of all runs. -/
abbrev CellRuns {cfg : RtConfig} (E : FloatOps) (light : Bool) : CellState cfg → Prop :=
  CellReach E light fun _ _ => True

/-! ### Calls that nobody disturbs -/

section
variable {cfg : RtConfig} {E : FloatOps} {light : Bool} {c c' : CellState cfg} {a : Party cfg}
  {q : Qid cfg.gpuBlocks} {op : ReadyQueue.Op} {s : RtState cfg} {r : Queue}
  {p : ReadyQueue.Pc} {v pos : UInt32}

@[simp] theorem CellState.access_queue_self : (c.access a q).queue q = (c.queue q).advance a :=
  Function.update_self ..

@[simp] theorem CellState.call_queue_self : (c.call a q op).queue q = (c.queue q).call a op :=
  Function.update_self ..

/-- From `c`, party `a` has come to `p` in queue `q`, which is now `r`, and the run to `s`. -/
structure Goes (E : FloatOps) (light : Bool) (c : CellState cfg) (a : Party cfg)
    (q : Qid cfg.gpuBlocks) (s : RtState cfg) (r : Queue) (p : ReadyQueue.Pc)
    (c' : CellState cfg) : Prop where
  runs : CellRuns E light c'
  rt : c'.rt = s
  ne : ∀ k ≠ q, c'.queue k = c.queue k
  mem : (c'.queue q).q = r
  pc : (c'.queue q).pc = Function.update (c.queue q).pc a p

theorem Goes.start (h : CellRuns E light c) :
    Goes E light c a q c.rt (c.queue q).q ((c.queue q).pc a) c :=
  ⟨h, rfl, fun _ _ => rfl, rfl, (Function.update_eq_self a _).symm⟩

theorem Goes.pc_self (h : Goes E light c a q s r p c') : (c'.queue q).pc a = p := by
  rw [h.pc, Function.update_self]

/-- One more access. -/
theorem Goes.access {u : RtState cfg} {m : Queue} {x : ReadyQueue.Pc}
    (h : Goes E light c a q s r p c') (hop : s.queueOp a = some (q, op))
    (hne : p ≠ .idle) (hadv : ∀ t : State (Party cfg), t.q = r → t.pc a = p →
      s.afterAccess a q t = u ∧ (t.advance a).q = m ∧
        (t.advance a).pc = Function.update t.pc a x) :
    ∃ c', Goes E light c a q u m x c' := by
  obtain ⟨hrt, hq, hpc⟩ := hadv _ h.mem h.pc_self
  have hop' : c'.rt.queueOp a = some (q, op) := by rw [h.rt, hop]
  refine ⟨c'.access a q, h.runs.access hop' (by rw [h.pc_self]; exact hne) trivial,
    ?_, fun k hk => ?_, ?_, ?_⟩
  · rw [CellState.access, h.rt]
    exact hrt
  · exact (Function.update_of_ne hk _ _).trans (h.ne k hk)
  · rw [CellState.access_queue_self]
    exact hq
  · rw [CellState.access_queue_self, hpc, h.pc, Function.update_idem]

/-- A call. -/
theorem Goes.call (h : CellRuns E light c) (hop : c.rt.queueOp a = some (q, op))
    (hidle : (c.queue q).pc a = .idle)
    (hpc : ∀ t : State (Party cfg), t.call a op = t.goto a p) :
    ∃ c', Goes E light c a q c.rt (c.queue q).q p c' := by
  refine ⟨c.call a q op, h.call hop hidle, rfl, fun k hk => Function.update_of_ne hk _ _, ?_, ?_⟩
  · rw [CellState.call_queue_self, hpc]
    rfl
  · rw [CellState.call_queue_self, hpc]
    rfl

theorem RtState.queueOp_enqueue (i : ℕ) (k : Qid cfg.gpuBlocks) :
    (s.enqueue k i).queueOp a = s.queueOp a := by
  cases a <;> rfl

theorem RtState.queueOp_dequeue (m : ℕ) (k : Qid cfg.gpuBlocks) :
    (s.dequeue k m).queueOp a = s.queueOp a := by
  cases a <;> rfl

/-- A push up to its compare-and-swap. -/
theorem Goes.push_scan (h : CellRuns E light c) (hop : c.rt.queueOp a = some (q, .push v))
    (hidle : (c.queue q).pc a = .idle)
    (hfree : (c.queue q).q.seqAt (c.queue q).q.head = (c.queue q).q.head) :
    ∃ c', Goes E light c a q c.rt (c.queue q).q (.pushCas v (c.queue q).q.head) c' := by
  have hcall (t : State (Party cfg)) : t.call a (.push v) = t.goto a (.pushLoad v) := rfl
  obtain ⟨c₁, h₁⟩ := Goes.call h hop hidle hcall
  obtain ⟨c₂, h₂⟩ := h₁.access (u := c.rt) (m := (c.queue q).q)
    (x := .pushSeq v (c.queue q).q.head) hop (by simp) fun t ht hpc => by
      rw [RtState.afterAccess, State.advance, hpc, ← ht]
      exact ⟨rfl, rfl, rfl⟩
  exact h₂.access hop (by simp) fun t ht hpc => by
    rw [RtState.afterAccess, State.advance, hpc]
    dsimp only
    rw [ht, if_pos (ReadyQueue.dif_eq_zero.mpr hfree)]
    exact ⟨rfl, ht, rfl⟩

/-- A push from its compare-and-swap on. -/
theorem Goes.push_commit (h : CellRuns E light c) (hop : c.rt.queueOp a = some (q, .push v))
    (hpc : (c.queue q).pc a = .pushCas v pos) (hhead : (c.queue q).q.head = pos) :
    ∃ c', Goes E light c a q ((c.rt.enqueue q v.toNat).pushed a)
      ((({ (c.queue q).q with head := pos + 1 } : Queue).storeVal pos v).storeSeq pos (pos + 1))
      .idle c' := by
  have hop' : (c.rt.enqueue q v.toNat).queueOp a = some (q, .push v) :=
    (RtState.queueOp_enqueue ..).trans hop
  obtain ⟨c₁, h₁⟩ := (Goes.start (a := a) (q := q) h).access (u := c.rt.enqueue q v.toNat)
    (m := { (c.queue q).q with head := pos + 1 }) (x := .pushVal v pos) hop
    (by rw [hpc]; simp) fun t ht hp => by
      rw [RtState.afterAccess, State.advance, hp, hpc]
      dsimp only
      rw [ht, if_pos hhead, if_pos hhead]
      refine ⟨rfl, ?_, rfl⟩
      rw [← ht]
      rfl
  obtain ⟨c₂, h₂⟩ := h₁.access (u := c.rt.enqueue q v.toNat)
    (m := ({ (c.queue q).q with head := pos + 1 } : Queue).storeVal pos v)
    (x := .pushDone pos) hop' (by simp) fun t ht hp => by
      rw [RtState.afterAccess, State.advance, hp, ← ht]
      exact ⟨rfl, rfl, rfl⟩
  exact h₂.access hop' (by simp) fun t ht hp => by
    rw [RtState.afterAccess, State.advance, hp, ← ht]
    exact ⟨rfl, rfl, rfl⟩

/-- A pop up to its compare-and-swap. -/
theorem Goes.pop_scan (h : CellRuns E light c) (hop : c.rt.queueOp a = some (q, .pop))
    (hidle : (c.queue q).pc a = .idle)
    (hready : (c.queue q).q.seqAt (c.queue q).q.tail = (c.queue q).q.tail + 1) :
    ∃ c', Goes E light c a q c.rt (c.queue q).q (.popCas (c.queue q).q.tail) c' := by
  have hcall (t : State (Party cfg)) : t.call a .pop = t.goto a .popLoad := rfl
  obtain ⟨c₁, h₁⟩ := Goes.call h hop hidle hcall
  obtain ⟨c₂, h₂⟩ := h₁.access (u := c.rt) (m := (c.queue q).q)
    (x := .popSeq (c.queue q).q.tail) hop (by simp) fun t ht hpc => by
      rw [RtState.afterAccess, State.advance, hpc, ← ht]
      exact ⟨rfl, rfl, rfl⟩
  exact h₂.access hop (by simp) fun t ht hpc => by
    rw [RtState.afterAccess, State.advance, hpc]
    dsimp only
    rw [ht, if_pos (ReadyQueue.dif_eq_zero.mpr hready),
      if_neg (by rw [ReadyQueue.dif_eq_zero.mpr hready]; exact lt_irrefl 0)]
    exact ⟨rfl, ht, rfl⟩

/-- A pop from its compare-and-swap on. -/
theorem Goes.pop_commit (h : CellRuns E light c) (hop : c.rt.queueOp a = some (q, .pop))
    (hpc : (c.queue q).pc a = .popCas pos) (htail : (c.queue q).q.tail = pos) :
    ∃ c', Goes E light c a q ((c.rt.dequeue q 1).popped [((c.queue q).q.valAt pos).toNat] a)
      (({ (c.queue q).q with tail := pos + 1 } : Queue).storeSeq pos
        (pos + (c.queue q).q.mask + 1)) .idle c' := by
  have hop' : (c.rt.dequeue q 1).queueOp a = some (q, .pop) :=
    (RtState.queueOp_dequeue ..).trans hop
  have hzero : pos + UInt32.ofNat 0 = pos := UInt32.add_zero pos
  obtain ⟨c₁, h₁⟩ := (Goes.start (a := a) (q := q) h).access (u := c.rt.dequeue q 1)
    (m := { (c.queue q).q with tail := pos + 1 }) (x := .readVal false pos 1 0 []) hop
    (by rw [hpc]; simp) fun t ht hp => by
      rw [RtState.afterAccess, State.advance, hp, hpc]
      dsimp only
      rw [ht, if_pos htail, if_pos htail]
      refine ⟨rfl, ?_, rfl⟩
      rw [← ht]
      rfl
  obtain ⟨c₂, h₂⟩ := h₁.access (m := { (c.queue q).q with tail := pos + 1 })
    (x := .recycle false pos 1 0 [(c.queue q).q.valAt pos]) hop' (by simp) fun t ht hp => by
      rw [RtState.afterAccess, State.advance, hp]
      dsimp only
      refine ⟨rfl, ht, ?_⟩
      rw [ht, List.nil_append, hzero]
      rfl
  exact h₂.access hop' (by simp) fun t ht hp => by
    rw [RtState.afterAccess, State.advance, hp]
    dsimp only
    rw [if_neg (by decide), if_neg (by decide), ht, hzero]
    exact ⟨rfl, rfl, rfl⟩

/-- A pop that finds nothing. -/
theorem Goes.pop_miss (h : CellRuns E light c) (hop : c.rt.queueOp a = some (q, .pop))
    (hidle : (c.queue q).pc a = .idle)
    (hempty : dif ((c.queue q).q.seqAt (c.queue q).q.tail) ((c.queue q).q.tail + 1) < 0) :
    ∃ c', Goes E light c a q (c.rt.missed a) (c.queue q).q .idle c' := by
  have hcall (t : State (Party cfg)) : t.call a .pop = t.goto a .popLoad := rfl
  obtain ⟨c₁, h₁⟩ := Goes.call h hop hidle hcall
  obtain ⟨c₂, h₂⟩ := h₁.access (u := c.rt) (m := (c.queue q).q)
    (x := .popSeq (c.queue q).q.tail) hop (by simp) fun t ht hpc => by
      rw [RtState.afterAccess, State.advance, hpc, ← ht]
      exact ⟨rfl, rfl, rfl⟩
  exact h₂.access hop (by simp) fun t ht hpc => by
    rw [RtState.afterAccess, State.advance, hpc]
    dsimp only
    rw [ht, if_pos hempty, if_neg hempty.ne, if_pos hempty]
    exact ⟨rfl, ht, rfl⟩

end

/-! ### Runs of one task -/

/-- Two workers and no GPU. -/
def twoWorkers : RtConfig := { oneWorker with cpuThreads := 2, cpuThreads_pos := by decide }

/-- A signal for the CPU. -/
def soleCpuSignal : FrozenGraph where
  g := { tasks := [{ kind := .SIGNAL, affinity := .CPU }], max := 1, terminal := 0, frozen := true }
  built := .freeze (.add (.create 1) (t := cpuSignal) rfl) rfl
  frozen := rfl

theorem soleCpuSignal_prog (E : FloatOps) : soleCpuSignal.prog E 0 = .pure () := rfl

/-- The queue in memory after `h` pushes and `t` claims. -/
def lane (light : Bool) (cells : ℕ → ReadyQueue.QueueCell) (h t : ℕ) : Queue where
  cells := cells
  mask := wrap (kQueueCapacity - 1)
  fenceLight := light
  head := wrap h
  tail := wrap t

section lane
variable (light : Bool) (cells : ℕ → ReadyQueue.QueueCell) (h t k : ℕ)

theorem lane_cell : (lane light cells h t).cell (wrap k) = k % kQueueCapacity :=
  Queue.cell_wrap capacity_kQueueCapacity rfl k

theorem lane_seqAt :
    (lane light cells h t).seqAt (wrap k) = (cells (k % kQueueCapacity)).seq := by
  rw [Queue.seqAt, lane_cell]
  rfl

theorem lane_valAt :
    (lane light cells h t).valAt (wrap k) = (cells (k % kQueueCapacity)).val := by
  rw [Queue.valAt, lane_cell]
  rfl

theorem lane_push (v : UInt32) :
    (({ lane light cells h t with head := wrap h + 1 } : Queue).storeVal (wrap h) v).storeSeq
        (wrap h) (wrap h + 1) =
      lane light (Function.update cells (h % kQueueCapacity) ⟨wrap (h + 1), v⟩) (h + 1) t := by
  have hcell : ({ lane light cells h t with head := wrap h + 1 } : Queue).cell (wrap h) =
      h % kQueueCapacity := lane_cell light cells h t h
  have hcell' (x : UInt32) :
      (({ lane light cells h t with head := wrap h + 1 } : Queue).storeVal (wrap h) x).cell
        (wrap h) = h % kQueueCapacity := hcell
  rw [Queue.storeSeq, hcell', Queue.storeVal, hcell]
  simp only [Function.update_idem, Function.update_self, ReadyQueue.wrap_add_one]
  rfl

theorem lane_pop :
    ({ lane light cells h t with tail := wrap t + 1 } : Queue).storeSeq (wrap t)
        (wrap t + (lane light cells h t).mask + 1) =
      lane light (Function.update cells (t % kQueueCapacity)
        ⟨wrap (t + kQueueCapacity), (cells (t % kQueueCapacity)).val⟩) h (t + 1) := by
  have hcell : ({ lane light cells h t with tail := wrap t + 1 } : Queue).cell (wrap t) =
      t % kQueueCapacity := lane_cell light cells h t t
  have hnext : wrap t + (lane light cells h t).mask + 1 = wrap (t + kQueueCapacity) := by
    rw [lane, ReadyQueue.wrap_add, ReadyQueue.wrap_add_one]
    rfl
  rw [Queue.storeSeq, hcell, hnext, ReadyQueue.wrap_add_one]
  rfl

theorem lane_init :
    Queue.init (UInt32.ofNat kQueueCapacity) light =
      lane light (fun i => ⟨wrap i, ReadyQueue.kQueueEmpty⟩) 0 0 := rfl

end lane

section
variable {E : FloatOps} {light : Bool} {c c' c'' : CellState twoWorkers} {host : HostPc}
  {done : Bool} {n : ℕ} {w : Fin twoWorkers.cpuThreads}

/-- A worker steps, and has come to no queue operation. -/
theorem CellReach.agentStep (h : CellRuns E light c) {a : Agent twoWorkers} {l : Label}
    {t : RtState twoWorkers} (hst : Step E c.rt l t) (hop : c.rt.queueOp (some a) = none)
    (hhost : t.host = c.rt.host) (hpc : ∀ b ≠ a, t.pc b = c.rt.pc b)
    (hG : t.graph = some soleCpuSignal) : CellRuns E light { c with rt := t } := by
  refine h.inner hst ⟨fun _ => hhost, fun b hb => hpc b ?_⟩ fun G hG' => ?_
  · rintro rfl
    rw [hop] at hb
    cases hb
  · rw [hG] at hG'
    cases hG'
    decide

/-- In the middle of a run. -/
structure Running (s : RtState twoWorkers) (host : HostPc) (done : Bool) (n : ℕ) : Prop where
  graph : s.graph = some soleCpuSignal
  active : s.active = true
  host : s.host = host
  doneFlag : s.doneFlag = done
  nDone : s.nDone = n

theorem begin_run (h : CellRuns E light c) (ho : c.rt.host = .outside) :
    ∃ s, CellRuns E light { c with rt := s } ∧ Running s (.pushRoot 0) false 0 ∧
      s.pc = c.rt.pc := by
  have hfit : soleCpuSignal.n ≤ kQueueCapacity := by decide
  have h1 := h.hostStep (.begin soleCpuSignal (fun _ => 0) ho) (by rw [ho]; simp) rfl rfl hfit
  have h2 := h1.hostStep (.reset rfl rfl (by decide)) (by simp) rfl rfl hfit
  have h3 := h2.hostStep (.activate rfl rfl (by decide)) (by simp) rfl rfl hfit
  have h4 := h3.hostStep (.foundRoot rfl rfl (by decide) rfl) (by simp) rfl rfl hfit
  exact ⟨_, h4, ⟨rfl, rfl, rfl, rfl, rfl⟩, rfl⟩

theorem finish_run (h : CellRuns E light c) (hr : Running c.rt .wait true 1) :
    ∃ s, CellRuns E light { c with rt := s } ∧ s.host = .outside ∧ s.pc = c.rt.pc :=
  ⟨_, h.hostStep (.finishRun hr.graph hr.host hr.doneFlag hr.nDone) (by rw [hr.host]; simp) rfl
    hr.graph (by decide), rfl, rfl⟩

theorem Running.setPc {s : RtState twoWorkers} {a : Agent twoWorkers} (h : Running s host done n)
    (p : Pc twoWorkers.gpuBlocks) : Running (s.setPc a p) host done n :=
  ⟨h.graph, h.active, h.host, h.doneFlag, h.nDone⟩

/-- Where a worker stands that has come to no queue operation. -/
def Busy (p : Pc twoWorkers.gpuBlocks) : Prop :=
  (∀ k qs, p ≠ .poll (k :: qs)) ∧ ∀ ids d rel, p ≠ .push ids d rel

/-- A worker gets from `p` to `p'`. -/
theorem CellReach.work (h : CellRuns E light c) {l : Label} {t : RtState twoWorkers}
    {a : Agent twoWorkers} {p p' : Pc twoWorkers.gpuBlocks} (hpc : c.rt.pc a = p)
    (hst : Step E c.rt l (t.setPc a p')) (hbusy : Busy p) (hr : Running t host done n)
    (hhost : c.rt.host = host) (ht : t.pc = c.rt.pc) :
    ∃ s, CellRuns E light { c with rt := s } ∧ Running s host done n ∧
      s.pc = Function.update c.rt.pc a p' := by
  have hop : c.rt.queueOp (some a) = none :=
    RtState.queueOp_eq_none (by rw [hpc]; exact hbusy.1) (by rw [hpc]; exact hbusy.2)
  refine ⟨_, h.agentStep hst hop (hr.host.trans hhost.symm) (fun b hb => ?_) hr.graph,
    hr.setPc p', ?_⟩
  · rw [RtState.setPc_pc_ne _ hb, ht]
  · rw [RtState.setPc, ht]

/-- A worker executes the task. -/
theorem execute (h : CellRuns E light c) (hr : Running c.rt host false 0)
    (hpc : c.rt.pc (.inl w) = .exec [0] [0] []) :
    ∃ s, CellRuns E light { c with rt := s } ∧ Running s host true 1 ∧
      s.pc = Function.update c.rt.pc (.inl w) .idle := by
  have hat {s : RtState twoWorkers} {f : Agent twoWorkers → Pc twoWorkers.gpuBlocks}
      {p : Pc twoWorkers.gpuBlocks} (hs : s.pc = Function.update f (.inl w) p) :
      s.pc (.inl w) = p := by
    rw [hs, Function.update_self]
  have hstart := Step.startTask (E := E) (a := .inl w) (i := 0) hr.graph hpc
  rw [soleCpuSignal_prog] at hstart
  obtain ⟨s₁, h, hr, hs₁⟩ := h.work hpc hstart ⟨by simp, by simp⟩
    ⟨hr.graph, hr.active, hr.host, hr.doneFlag, hr.nDone⟩ hr.host rfl
  have hrunning : s₁.pc (.inl w) = .exec [0] [] ([] ++ (0, .pure ()) :: []) := hat hs₁
  obtain ⟨s₂, h, hr, hs₂⟩ := h.work hrunning (.finishTask hrunning) ⟨by simp, by simp⟩
    ⟨hr.graph, hr.active, hr.host, hr.doneFlag, hr.nDone⟩ hr.host rfl
  obtain ⟨s₃, h, hr, hs₃⟩ := h.work (hat hs₂) (.execDone (hat hs₂)) ⟨by simp, by simp⟩ hr
    hr.host rfl
  have hmark := Step.mark (E := E) hr.graph (hat hs₃)
  have hdone : Running { s₃ with doneFlag := s₃.doneFlag || decide (0 = soleCpuSignal.terminal) }
      host true 0 := ⟨hr.graph, hr.active, hr.host, Bool.or_true _, hr.nDone⟩
  obtain ⟨s₄, h, hr, hs₄⟩ := h.work (hat hs₃) hmark ⟨by simp, by simp⟩ hdone hr.host rfl
  obtain ⟨s₅, h, hr, hs₅⟩ := h.work (hat hs₄) (.markDone hr.graph (hat hs₄)) ⟨by simp, by simp⟩ hr
    hr.host rfl
  obtain ⟨s₆, h, hr, hs₆⟩ := h.work (hat hs₅) (.countDone (hat hs₅)) ⟨by simp, by simp⟩
    ⟨hr.graph, hr.active, hr.host, hr.doneFlag, congrArg (· + 1) hr.nDone⟩ hr.host rfl
  refine ⟨s₆, h, hr, ?_⟩
  simp only [hs₆, hs₅, hs₄, hs₃, hs₂, hs₁, Function.update_idem]

/-! ### One task passes through its queue -/

/-- A pop finds nothing. -/
def Blank (r : Queue) : Prop := dif (r.seqAt r.tail) (r.tail + 1) < 0

/-- Nothing has changed in the other queues. -/
def Aside (c c' : CellState twoWorkers) : Prop :=
  ∀ k, k ≠ .main 1 → (c'.queue k).q = (c.queue k).q ∧ (c'.queue k).pc = (c.queue k).pc

theorem Aside.trans (h : Aside c c') (h' : Aside c' c'') : Aside c c'' :=
  fun k hk => ⟨(h' k hk).1.trans (h k hk).1, (h' k hk).2.trans (h k hk).2⟩

/-- The host finds a cell for the task. -/
theorem scan_root {cells : ℕ → ReadyQueue.QueueCell} {k t : ℕ} (h : CellRuns E light c)
    (hr : Running c.rt (.pushRoot 0) done n) (hidle : (c.queue (.main 1)).pc none = .idle)
    (hmem : (c.queue (.main 1)).q = lane light cells k t)
    (hfree : (cells (k % kQueueCapacity)).seq = wrap k) :
    ∃ c', CellRuns E light c' ∧ c'.rt = c.rt ∧ (c'.queue (.main 1)).q = lane light cells k t ∧
      (c'.queue (.main 1)).pc =
        Function.update (c.queue (.main 1)).pc none (.pushCas 0 (wrap k)) ∧ Aside c c' := by
  have hop : c.rt.queueOp none = some (.main 1, .push 0) := by
    rw [RtState.queueOp, hr.graph, hr.host]
    rfl
  obtain ⟨c₁, h₁⟩ := Goes.push_scan h hop hidle (by
    rw [hmem]
    exact (lane_seqAt ..).trans hfree)
  rw [hmem] at h₁
  exact ⟨c₁, h₁.runs, h₁.rt, h₁.mem, h₁.pc, fun q hq => by rw [h₁.ne q hq]; exact ⟨rfl, rfl⟩⟩

/-- The host enqueues the task, and waits. -/
theorem commit_root {cells : ℕ → ReadyQueue.QueueCell} {k t : ℕ} (h : CellRuns E light c)
    (hr : Running c.rt (.pushRoot 0) done n)
    (hpc : (c.queue (.main 1)).pc none = .pushCas 0 (wrap k))
    (hmem : (c.queue (.main 1)).q = lane light cells k t) :
    ∃ c', CellRuns E light c' ∧ Running c'.rt .wait done n ∧ c'.rt.pc = c.rt.pc ∧
      (c'.queue (.main 1)).q = lane light
        (Function.update cells (k % kQueueCapacity) ⟨wrap (k + 1), 0⟩) (k + 1) t ∧
      (c'.queue (.main 1)).pc = Function.update (c.queue (.main 1)).pc none .idle ∧
      Aside c c' := by
  have hop : c.rt.queueOp none = some (.main 1, .push 0) := by
    rw [RtState.queueOp, hr.graph, hr.host]
    rfl
  obtain ⟨c₁, h₁⟩ := Goes.push_commit h hop hpc (by rw [hmem]; rfl)
  rw [hmem, lane_push] at h₁
  have hrt : c₁.rt = { c.rt.enqueue (.main 1) 0 with host := .publish 1 } := by
    exact h₁.rt.trans
      (RtState.pushed_of_pushRoot (s := c.rt.enqueue (.main 1) 0) (i := 0) hr.host)
  have hG : c₁.rt.graph = some soleCpuSignal := by rw [hrt]; exact hr.graph
  have hhost : c₁.rt.host = .publish 1 := by rw [hrt]
  refine ⟨_, h₁.runs.hostStep (.published hG hhost (by decide)) (by rw [hhost]; simp) rfl hG
    (by decide), ?_, ?_, h₁.mem, h₁.pc, fun q hq => by rw [h₁.ne q hq]; exact ⟨rfl, rfl⟩⟩
  · rw [hrt]
    exact ⟨hr.graph, hr.active, rfl, hr.doneFlag, hr.nDone⟩
  · rw [hrt]
    rfl

/-- Worker `w` finds the task ready. -/
theorem find_task (h : CellRuns E light c) (hr : Running c.rt host done n)
    (hidle : c.rt.pc (.inl w) = .idle) (hcalls : ∀ q, (c.queue q).pc (some (.inl w)) = .idle)
    (hblank : Blank (c.queue (.main 2)).q)
    (hready : (c.queue (.main 1)).q.seqAt (c.queue (.main 1)).q.tail =
      (c.queue (.main 1)).q.tail + 1) :
    ∃ c', CellRuns E light c' ∧ Running c'.rt host done n ∧
      c'.rt.pc = Function.update c.rt.pc (.inl w) (.poll [.main 1, .main 0]) ∧
      (c'.queue (.main 1)).q = (c.queue (.main 1)).q ∧
      (c'.queue (.main 1)).pc = Function.update (c.queue (.main 1)).pc (some (.inl w))
        (.popCas (c.queue (.main 1)).q.tail) ∧ Aside c c' := by
  have h₁ := h.agentStep (.startPoll (a := .inl w) 0 hidle fun _ => hr.active)
    (RtState.queueOp_eq_none (by rw [hidle]; simp) (by rw [hidle]; simp)) rfl
    (fun b hb => RtState.setPc_pc_ne _ hb) hr.graph
  have hop (s : RtState twoWorkers) (hG : s.graph = some soleCpuSignal)
      (q : Qid twoWorkers.gpuBlocks) (qs : List (Qid twoWorkers.gpuBlocks))
      (hp : s.pc (.inl w) = .poll (q :: qs)) : s.queueOp (some (.inl w)) = some (q, .pop) := by
    rw [RtState.queueOp, hG, hp]
    rfl
  have hpoll : (c.rt.setPc (.inl w) (.poll (Agent.polls (.inl w) 0))).pc (.inl w) =
      .poll [.main 2, .main 1, .main 0] := RtState.setPc_pc_self _
  obtain ⟨c₂, h₂⟩ := Goes.pop_miss h₁
    (hop (c.rt.setPc (.inl w) (.poll (Agent.polls (.inl w) 0))) hr.graph _ _ hpoll) (hcalls _)
    hblank
  have hrt : c₂.rt = (c.rt.setPc (.inl w) (.poll (Agent.polls (.inl w) 0))).setPc (.inl w)
      (.poll [.main 1, .main 0]) := by
    rw [h₂.rt, RtState.missed, hpoll]
  have hrun : Running c₂.rt host done n := by
    rw [hrt]
    exact (hr.setPc _).setPc _
  have hqueue : c₂.queue (.main 1) = c.queue (.main 1) := h₂.ne _ (by decide)
  obtain ⟨c₃, h₃⟩ := Goes.pop_scan h₂.runs (hop _ hrun.graph (.main 1) [.main 0] (by
    rw [hrt]
    exact RtState.setPc_pc_self _)) (by rw [hqueue]; exact hcalls _) (by rw [hqueue]; exact hready)
  rw [hqueue] at h₃
  refine ⟨c₃, h₃.runs, by rw [h₃.rt]; exact hrun, ?_, h₃.mem, by rw [h₃.pc, hqueue], ?_⟩
  · rw [h₃.rt, hrt]
    simp [RtState.setPc]
  · intro q hq
    rw [h₃.ne q hq]
    by_cases hq2 : q = .main 2
    · subst hq2
      exact ⟨h₂.mem, h₂.pc.trans (Function.update_eq_self_iff.mpr (hcalls _).symm)⟩
    · rw [h₂.ne q hq2]
      exact ⟨rfl, rfl⟩

/-- Worker `w` takes the task and executes it. -/
theorem take_task {cells : ℕ → ReadyQueue.QueueCell} {m k : ℕ}
    {qs : List (Qid twoWorkers.gpuBlocks)} (h : CellRuns E light c)
    (hr : Running c.rt host false 0) (hpoll : c.rt.pc (.inl w) = .poll (.main 1 :: qs))
    (hpc : (c.queue (.main 1)).pc (some (.inl w)) = .popCas (wrap k))
    (hmem : (c.queue (.main 1)).q = lane light cells m k)
    (hval : (cells (k % kQueueCapacity)).val = 0) :
    ∃ c', CellRuns E light c' ∧ Running c'.rt host true 1 ∧
      c'.rt.pc = Function.update c.rt.pc (.inl w) .idle ∧
      (c'.queue (.main 1)).q = lane light
        (Function.update cells (k % kQueueCapacity) ⟨wrap (k + kQueueCapacity), 0⟩) m (k + 1) ∧
      (c'.queue (.main 1)).pc =
        Function.update (c.queue (.main 1)).pc (some (.inl w)) .idle ∧ Aside c c' := by
  have hop : c.rt.queueOp (some (.inl w)) = some (.main 1, .pop) := by
    rw [RtState.queueOp, hr.graph, hpoll]
    rfl
  obtain ⟨c₁, h₁⟩ := Goes.pop_commit h hop hpc (by rw [hmem]; rfl)
  rw [hmem, lane_pop, lane_valAt, hval] at h₁
  have hrt : c₁.rt = (c.rt.dequeue (.main 1) 1).setPc (.inl w) (.exec [0] [0] []) := h₁.rt
  have hrun : Running c₁.rt host false 0 := by
    rw [hrt]
    exact ⟨hr.graph, hr.active, hr.host, hr.doneFlag, hr.nDone⟩
  obtain ⟨s, hs, hrun', hpc'⟩ := execute (w := w) h₁.runs hrun (by
    rw [hrt]
    exact RtState.setPc_pc_self _)
  refine ⟨_, hs, hrun', ?_, h₁.mem, h₁.pc, fun q hq => ?_⟩
  · change s.pc = _
    rw [hpc', hrt]
    exact Function.update_idem ..
  · change (c₁.queue q).q = _ ∧ (c₁.queue q).pc = _
    rw [h₁.ne q hq]
    exact ⟨rfl, rfl⟩

end

/-! ### Run after run -/

/-- The worker that is suspended. -/
def late : Fin twoWorkers.cpuThreads := ⟨0, by decide⟩

/-- The worker that takes the tasks. -/
def other : Fin twoWorkers.cpuThreads := ⟨1, by decide⟩

section
variable {E : FloatOps} {light : Bool} {c c' : CellState twoWorkers}
  {cells : ℕ → ReadyQueue.QueueCell} {k : ℕ}

/-- The host and the other worker are in no operation. -/
structure Calm (c : CellState twoWorkers) : Prop where
  idle : c.rt.pc (.inl other) = .idle
  host : ∀ q, (c.queue q).pc none = .idle
  calls : ∀ q, (c.queue q).pc (some (.inl other)) = .idle
  blank : Blank (c.queue (.main 2)).q

/-- Every party stands where it stood, and nothing has come to the first queue a worker polls. -/
structure Still (c c' : CellState twoWorkers) : Prop where
  rt : c'.rt.pc = c.rt.pc
  pc : ∀ q, (c'.queue q).pc = (c.queue q).pc
  mem : (c'.queue (.main 2)).q = (c.queue (.main 2)).q

theorem Still.trans {c'' : CellState twoWorkers} (h : Still c c') (h' : Still c' c'') :
    Still c c'' :=
  ⟨h'.rt.trans h.rt, fun q => (h'.pc q).trans (h.pc q), h'.mem.trans h.mem⟩

theorem Calm.of_still (h : Calm c) (hs : Still c c') : Calm c' := by
  refine ⟨?_, fun q => ?_, fun q => ?_, ?_⟩
  · rw [hs.rt]
    exact h.idle
  · rw [hs.pc]
    exact h.host q
  · rw [hs.pc]
    exact h.calls q
  · rw [hs.mem]
    exact h.blank

theorem Still.of_aside (hrt : c'.rt.pc = c.rt.pc) (ha : Aside c c')
    (hpc : (c'.queue (.main 1)).pc = (c.queue (.main 1)).pc) : Still c c' := by
  refine ⟨hrt, fun q => ?_, (ha _ (by decide)).1⟩
  by_cases hq : q = .main 1
  · rw [hq, hpc]
  · exact (ha q hq).2

/-- A run begins, and the host enqueues its task. -/
theorem publish_root (h : CellRuns E light c) (ho : c.rt.host = .outside) (hc : Calm c)
    (hmem : (c.queue (.main 1)).q = lane light cells k k)
    (hfree : (cells (k % kQueueCapacity)).seq = wrap k) :
    ∃ c', CellRuns E light c' ∧ Running c'.rt .wait false 0 ∧ Still c c' ∧
      (c'.queue (.main 1)).q = lane light
        (Function.update cells (k % kQueueCapacity) ⟨wrap (k + 1), 0⟩) (k + 1) k := by
  obtain ⟨s, h₁, hr₁, hpc₁⟩ := begin_run h ho
  obtain ⟨c₂, h₂, hrt₂, hmem₂, hq₂, ha₂⟩ := scan_root h₁ hr₁ (hc.host _) hmem hfree
  obtain ⟨c₃, h₃, hr₃, hpc₃, hmem₃, hq₃, ha₃⟩ := commit_root h₂ (by rw [hrt₂]; exact hr₁)
    (by rw [hq₂, Function.update_self]) hmem₂
  refine ⟨c₃, h₃, hr₃, .of_aside (c := c) ?_ (ha₂.trans ha₃) ?_, hmem₃⟩
  · rw [hpc₃, hrt₂]
    exact hpc₁
  · rw [hq₃, hq₂, Function.update_idem]
    exact Function.update_eq_self_iff.mpr (hc.host _).symm

/-- The other worker executes the task, and the run ends. -/
theorem serve_root (h : CellRuns E light c) (hr : Running c.rt .wait false 0) (hc : Calm c)
    (hmem : (c.queue (.main 1)).q = lane light cells (k + 1) k)
    (hcell : cells (k % kQueueCapacity) = ⟨wrap (k + 1), 0⟩) :
    ∃ c', CellRuns E light c' ∧ c'.rt.host = .outside ∧ Still c c' ∧
      (c'.queue (.main 1)).q = lane light
        (Function.update cells (k % kQueueCapacity) ⟨wrap (k + kQueueCapacity), 0⟩) (k + 1)
        (k + 1) := by
  have hready : (c.queue (.main 1)).q.seqAt (c.queue (.main 1)).q.tail =
      (c.queue (.main 1)).q.tail + 1 := by
    rw [hmem]
    refine (lane_seqAt ..).trans ?_
    rw [hcell]
    exact (ReadyQueue.wrap_add_one k).symm
  obtain ⟨c₁, h₁, hr₁, hpc₁, hmem₁, hq₁, ha₁⟩ := find_task (w := other) h hr hc.idle hc.calls
    hc.blank hready
  have htail : (c.queue (.main 1)).q.tail = wrap k := by rw [hmem]; rfl
  obtain ⟨c₂, h₂, hr₂, hpc₂, hmem₂, hq₂, ha₂⟩ := take_task (w := other) h₁ hr₁
    (by rw [hpc₁, Function.update_self]) (by rw [hq₁, Function.update_self, htail])
    (hmem₁.trans hmem) (by rw [hcell])
  obtain ⟨s, h₃, ho, hpc₃⟩ := finish_run h₂ hr₂
  refine ⟨_, h₃, ho, .of_aside (c := c) ?_ (ha₁.trans ha₂) ?_, hmem₂⟩
  · change s.pc = _
    rw [hpc₃, hpc₂, hpc₁, Function.update_idem]
    exact Function.update_eq_self_iff.mpr hc.idle.symm
  · change (c₂.queue (.main 1)).pc = _
    rw [hq₂, hq₁, Function.update_idem]
    exact Function.update_eq_self_iff.mpr (hc.calls _).symm

/-- Between two runs, after `k` tasks. -/
structure Resting (E : FloatOps) (light : Bool) (c : CellState twoWorkers)
    (cells : ℕ → ReadyQueue.QueueCell) (k : ℕ) : Prop where
  runs : CellRuns E light c
  outside : c.rt.host = .outside
  calm : Calm c
  mem : (c.queue (.main 1)).q = lane light cells k k

/-- One more run. -/
theorem Resting.turn (h : Resting E light c cells k)
    (hfree : (cells (k % kQueueCapacity)).seq = wrap k) :
    ∃ c', Resting E light c'
      (Function.update cells (k % kQueueCapacity) ⟨wrap (k + kQueueCapacity), 0⟩) (k + 1) ∧
      Still c c' := by
  obtain ⟨c₁, h₁, hr₁, hs₁, hmem₁⟩ := publish_root h.runs h.outside h.calm h.mem hfree
  obtain ⟨c₂, h₂, ho₂, hs₂, hmem₂⟩ := serve_root h₁ hr₁ (h.calm.of_still hs₁) hmem₁
    (Function.update_self ..)
  rw [Function.update_idem] at hmem₂
  exact ⟨c₂, ⟨h₂, ho₂, (h.calm.of_still hs₁).of_still hs₂, hmem₂⟩, hs₁.trans hs₂⟩

/-- The late worker stands before its compare-and-swap, and every cell comes round in time. -/
structure Lapping (E : FloatOps) (light : Bool) (c : CellState twoWorkers)
    (cells : ℕ → ReadyQueue.QueueCell) (k : ℕ) : Prop extends Resting E light c cells k where
  free : ∀ i, k ≤ i → i < k + kQueueCapacity → (cells (i % kQueueCapacity)).seq = wrap i
  val : (cells 0).val = 0
  polls : c.rt.pc (.inl late) = .poll [.main 1, .main 0]
  stands : (c.queue (.main 1)).pc (some (.inl late)) = .popCas 0

/-- The cells after the task of position `k` has passed. -/
theorem free_update (hfree : ∀ i, k ≤ i → i < k + kQueueCapacity →
      (cells (i % kQueueCapacity)).seq = wrap i) (i : ℕ) (hi : k + 1 ≤ i)
    (hlt : i < k + 1 + kQueueCapacity) :
    (Function.update cells (k % kQueueCapacity) ⟨wrap (k + kQueueCapacity), 0⟩
      (i % kQueueCapacity)).seq = wrap i := by
  have hcap : kQueueCapacity = 65536 := rfl
  rw [hcap] at hfree hlt ⊢
  by_cases hmod : i % 65536 = k % 65536
  · obtain rfl : i = k + 65536 := by omega
    rw [hmod, Function.update_self]
  · rw [Function.update_of_ne hmod]
    exact hfree i (by omega) (by omega)

/-- In the first run the late worker finds the task ready, and the other takes it. -/
theorem exists_lapping (E : FloatOps) (light : Bool) :
    ∃ c cells, Lapping E light c cells 1 := by
  have h₀ : CellRuns E light (.init twoWorkers light (fun _ => 0) fun _ => 0) := .init _ _
  have hblank : Blank (lane light (fun i => ⟨wrap i, ReadyQueue.kQueueEmpty⟩) 0 0) := by
    have hseq := lane_seqAt light (fun i => ⟨wrap i, ReadyQueue.kQueueEmpty⟩) 0 0 0
    have hdif : dif (wrap 0) (wrap 0 + 1) < 0 := by
      rw [ReadyQueue.wrap_add_one]
      exact ReadyQueue.dif_neg_of_lt (by decide) (by decide)
    rw [Blank, lane]
    rw [lane] at hseq
    rw [hseq]
    exact hdif
  have hc₀ : Calm (.init twoWorkers light (fun _ => 0) fun _ => 0) :=
    ⟨rfl, fun _ => rfl, fun _ => rfl, hblank⟩
  obtain ⟨c₁, h₁, hr₁, hs₁, hmem₁⟩ := publish_root h₀ rfl hc₀ (lane_init light) rfl
  have hc₁ := hc₀.of_still hs₁
  have htail : (c₁.queue (.main 1)).q.tail = wrap 0 := by rw [hmem₁]; rfl
  obtain ⟨c₂, h₂, hr₂, hpc₂, hmem₂, hq₂, ha₂⟩ := find_task (w := late) h₁ hr₁
    (by rw [hs₁.rt]; rfl) (fun q => by rw [hs₁.pc]; rfl) hc₁.blank (by
      rw [hmem₁]
      exact lane_seqAt ..)
  have hc₂ : Calm c₂ := by
    refine ⟨?_, fun q => ?_, fun q => ?_, ?_⟩
    · rw [hpc₂, Function.update_of_ne (by decide)]
      exact hc₁.idle
    · by_cases hq : q = .main 1
      · rw [hq, hq₂, Function.update_of_ne (by decide)]
        exact hc₁.host _
      · rw [(ha₂ q hq).2]
        exact hc₁.host q
    · by_cases hq : q = .main 1
      · rw [hq, hq₂, Function.update_of_ne (by decide)]
        exact hc₁.calls _
      · rw [(ha₂ q hq).2]
        exact hc₁.calls q
    · rw [(ha₂ _ (by decide)).1]
      exact hc₁.blank
  obtain ⟨c₃, h₃, ho₃, hs₃, hmem₃⟩ := serve_root (k := 0) h₂ hr₂ hc₂ (hmem₂.trans hmem₁)
    (Function.update_self ..)
  rw [Function.update_idem] at hmem₃
  refine ⟨c₃, _, ⟨h₃, ho₃, hc₂.of_still hs₃, hmem₃⟩, fun i hi hlt => ?_, ?_, ?_, ?_⟩
  · refine free_update (k := 0) (fun j _ hj => ?_) i hi hlt
    rw [Nat.zero_add] at hj
    exact congrArg wrap (Nat.mod_eq_of_lt hj)
  · rw [Nat.zero_mod, Function.update_self]
  · rw [hs₃.rt, hpc₂, Function.update_self]
  · rw [hs₃.pc, hq₂, Function.update_self, htail]
    rfl

/-- Meanwhile the runs go on. -/
theorem Lapping.turn (h : Lapping E light c cells k) :
    ∃ c' cells', Lapping E light c' cells' (k + 1) := by
  have hcap : 0 < kQueueCapacity := by decide
  obtain ⟨c₁, h₁, hs₁⟩ := h.toResting.turn (h.free k le_rfl (by omega))
  refine ⟨c₁, _, h₁, free_update h.free, ?_, ?_, ?_⟩
  · by_cases hk : 0 = k % kQueueCapacity
    · rw [← hk, Function.update_self]
    · rw [Function.update_of_ne hk]
      exact h.val
  · rw [hs₁.rt]
    exact h.polls
  · rw [hs₁.pc]
    exact h.stands

theorem exists_lapping_of_le (E : FloatOps) (light : Bool) (hk : 1 ≤ k) :
    ∃ c cells, Lapping E light c cells k := by
  induction k, hk using Nat.le_induction with
  | base => exact exists_lapping E light
  | succ k _ ih =>
    obtain ⟨c, cells, h⟩ := ih
    exact h.turn

/-- `tail` has gone round once. -/
def fullTurn : ℕ := 2 ^ 32

/-- The cell of a task that has been executed will not be recycled. -/
structure Stuck (E : FloatOps) (light : Bool) (c : CellState twoWorkers)
    (cells : ℕ → ReadyQueue.QueueCell) (k : ℕ) : Prop extends Resting E light c cells k where
  free : ∀ i, k ≤ i → i < fullTurn + kQueueCapacity →
    (cells (i % kQueueCapacity)).seq = wrap i
  stuck : (cells 0).seq = wrap (fullTurn + 1)

/-- The late worker wakes up between the two halves of the host's push. -/
theorem Lapping.wake (h : Lapping E light c cells fullTurn) :
    ∃ c' cells', Stuck E light c' cells' (fullTurn + 1) := by
  have hzero : wrap fullTurn = 0 := rfl
  have hmod : fullTurn % kQueueCapacity = 0 := by decide
  have hfree : (cells (fullTurn % kQueueCapacity)).seq = wrap fullTurn :=
    h.free fullTurn le_rfl (Nat.lt_add_of_pos_right (by decide))
  obtain ⟨s, h₁, hr₁, hpc₁⟩ := begin_run h.runs h.outside
  obtain ⟨c₂, h₂, hrt₂, hmem₂, hq₂, ha₂⟩ := scan_root h₁ hr₁ (h.calm.host _) h.mem hfree
  have hpolls : c₂.rt.pc (.inl late) = .poll [.main 1, .main 0] := by
    rw [hrt₂]
    exact (congrFun hpc₁ _).trans h.polls
  obtain ⟨c₃, h₃, hr₃, hpc₃, hmem₃, hq₃, ha₃⟩ := take_task (w := late) h₂
    (by rw [hrt₂]; exact hr₁) hpolls (by
      rw [hq₂, Function.update_of_ne (by decide), hzero]
      exact h.stands) hmem₂ (by rw [hmod]; exact h.val)
  obtain ⟨c₄, h₄, hr₄, hpc₄, hmem₄, hq₄, ha₄⟩ := commit_root (k := fullTurn) h₃ hr₃ (by
    rw [hq₃, Function.update_of_ne (by decide), hq₂, Function.update_self]) hmem₃
  obtain ⟨s₅, h₅, ho₅, hpc₅⟩ := finish_run h₄ hr₄
  have ha : Aside c c₄ := (ha₂.trans ha₃).trans ha₄
  rw [Function.update_idem, hmod] at hmem₄
  refine ⟨_, _, ⟨h₅, ho₅, ⟨?_, fun q => ?_, fun q => ?_, ?_⟩, hmem₄⟩, fun i hi hlt => ?_, ?_⟩
  · change s₅.pc _ = _
    rw [hpc₅, hpc₄, hpc₃, Function.update_of_ne (by decide), hrt₂]
    exact (congrFun hpc₁ _).trans h.calm.idle
  · change (c₄.queue q).pc none = _
    by_cases hq : q = .main 1
    · rw [hq, hq₄, Function.update_self]
    · rw [(ha q hq).2]
      exact h.calm.host q
  · change (c₄.queue q).pc _ = _
    by_cases hq : q = .main 1
    · rw [hq, hq₄, Function.update_of_ne (by decide), hq₃, Function.update_of_ne (by decide), hq₂,
        Function.update_of_ne (by decide)]
      exact h.calm.calls _
    · rw [(ha q hq).2]
      exact h.calm.calls q
  · change Blank (c₄.queue (.main 2)).q
    rw [(ha _ (by decide)).1]
    exact h.calm.blank
  · have hne : i % kQueueCapacity ≠ 0 := by
      have hcap : kQueueCapacity = 65536 := rfl
      have hturn : fullTurn = 65536 * 65536 := rfl
      rw [hturn] at hi
      rw [hcap, hturn] at hlt
      rw [hcap]
      omega
    rw [Function.update_of_ne hne]
    exact h.free i (by omega) hlt
  · rw [Function.update_self]

/-- The other cells go round once more. -/
theorem Stuck.turn (h : Stuck E light c cells k) (hle : fullTurn < k)
    (hlt : k < fullTurn + kQueueCapacity) : ∃ c' cells', Stuck E light c' cells' (k + 1) := by
  have hcap : kQueueCapacity = 65536 := rfl
  have hturn : fullTurn = 65536 * 65536 := rfl
  obtain ⟨c₁, h₁, -⟩ := h.toResting.turn (h.free k le_rfl hlt)
  refine ⟨c₁, _, h₁, fun i hi hi' => ?_, ?_⟩
  · have hne : i % kQueueCapacity ≠ k % kQueueCapacity := by
      rw [hcap, hturn] at hi' hlt
      rw [hturn] at hle
      rw [hcap]
      omega
    rw [Function.update_of_ne hne]
    exact h.free i (by omega) hi'
  · have hne : 0 ≠ k % kQueueCapacity := by
      rw [hcap, hturn] at hlt
      rw [hturn] at hle
      rw [hcap]
      omega
    rw [Function.update_of_ne hne]
    exact h.stuck

theorem exists_stuck (E : FloatOps) (light : Bool) (hle : fullTurn + 1 ≤ k)
    (hk : k ≤ fullTurn + kQueueCapacity) : ∃ c cells, Stuck E light c cells k := by
  induction k, hle using Nat.le_induction with
  | base =>
    obtain ⟨c, cells, h⟩ := exists_lapping_of_le E light (k := fullTurn) (by decide)
    exact h.wake
  | succ k hle ih =>
    obtain ⟨c, cells, h⟩ := ih (by omega)
    exact h.turn (by omega) (by omega)

end

/-- **The push that fails.**  Two workers, no GPU, and run after run of a graph of one task: a
worker suspended between its scan and its compare-and-swap for `2³²` tasks makes a push return
false `65536` tasks later. -/
theorem push_fails_late : ∃ (c : CellState twoWorkers) (q : Qid twoWorkers.gpuBlocks)
    (a : Party twoWorkers), CellRuns default false c ∧ (c.queue q).PushFails a := by
  obtain ⟨c, cells, h⟩ := exists_stuck default false (k := fullTurn + kQueueCapacity)
    (Nat.add_le_add_left (by decide) _) le_rfl
  obtain ⟨s, h₁, hr₁, hpc₁⟩ := begin_run h.runs h.outside
  have hop : s.queueOp none = some (.main 1, .push 0) := by
    rw [RtState.queueOp, hr₁.graph, hr₁.host]
    rfl
  have hcall (t : State (Party twoWorkers)) : t.call none (.push 0) = t.goto none (.pushLoad 0) :=
    rfl
  obtain ⟨c₂, h₂⟩ := Goes.call h₁ hop (h.calm.host _) hcall
  obtain ⟨c₃, h₃⟩ := h₂.access (u := s) (m := (c.queue (.main 1)).q)
    (x := .pushSeq 0 (c.queue (.main 1)).q.head) hop (by simp) fun t ht hpc => by
      rw [RtState.afterAccess, State.advance, hpc, ← ht]
      exact ⟨rfl, rfl, rfl⟩
  refine ⟨c₃, .main 1, none, h₃.runs, 0, _, h₃.pc_self, ?_⟩
  rw [h₃.mem, h.mem]
  change dif ((lane false cells _ _).seqAt (wrap (fullTurn + kQueueCapacity)))
    (wrap (fullTurn + kQueueCapacity)) < 0
  have hmod : (fullTurn + kQueueCapacity) % kQueueCapacity = 0 := by decide
  rw [lane_seqAt, hmod, h.stuck]
  exact ReadyQueue.dif_neg_of_lt (by decide) (by decide)

end FastLlm
