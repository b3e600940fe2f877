import FastLlm.Runtime.CellPush
import FastLlm.Runtime.Refinement

/-!
# The run over the queues in memory

The counters of a queue are 32 bits wide, and a compare-and-swap may take a cursor that has gone
round for one that stood still.  Until a queue has been pushed to 2³² times no cursor goes round:
a claim then finds the cells ready that its scan found ready, and whatever the interleaving of
the single accesses, a run executes every task once, producers first, and leaves the memory that
the serial executor leaves.

## Main definitions

* `FirstTurn` — a queue was pushed to fewer than 2³² times.
* `cells_run_computes` — the run theorem over the queues in memory.
-/

namespace FastLlm
open ReadyQueue (wrap State)

namespace ReadyQueue
variable {ι : Type} {cap : ℕ}

/-- The queue was pushed to fewer times than its counters tell apart. -/
def FirstTurn (s : State ι) (_ : ι) : Prop := s.ring.enq.length < 2 ^ 32

variable {s : State ι} {t : ι}

/-- Positions that are ready are ready in memory. -/
theorem Inv.ready_of_allReady (hcap : Capacity cap) (h : Inv cap s) {p m : ℕ}
    (hready : s.ring.AllReady p m) : s.q.Ready (wrap p) m := by
  intro i hi
  have hphase := hready i hi
  rw [wrap_add_ofNat, wrap_add_one, h.mirrors.seqAt hcap,
    h.mirrors.seq (p + i) (h.ok.lt_enq (by simp [hphase])) (h.ok.enq_le_add (by simp [hphase])),
    hphase]
  rfl

/-- On the first turn a cursor that looks the same is the same. -/
theorem Inv.tail_eq_of_firstTurn (h : Inv cap s) (hfirst : FirstTurn s t) {pos : UInt32}
    {p since : ℕ} (hp : CopyOfTail cap s.ring since pos p) (heq : s.q.tail = pos) :
    s.ring.deq.length = p := by
  have hle := h.ok.deq_le_enq
  have hlt : s.ring.enq.length < 2 ^ 32 := hfirst
  rw [h.mirrors.tail, hp.pos_eq] at heq
  exact (wrap_inj_of_lt hp.le (by omega) heq.symm).symm

/-- On the first turn every claim finds its cells ready. -/
theorem Inv.claimsReady (hcap : Capacity cap) (h : Inv cap s) (hfirst : FirstTurn s t) :
    s.ClaimsReady t := by
  have hat := (h.threads t).at_pc
  rw [State.ClaimsReady]
  cases hpc : s.pc t with
  | popCas pos =>
    rw [hpc] at hat
    obtain ⟨p, hp, hready⟩ := hat
    intro heq
    rw [hp.pos_eq]
    exact h.ready_of_allReady hcap (hready (h.tail_eq_of_firstTurn hfirst hp heq))
  | bulkCas light maxn pos m =>
    rw [hpc] at hat
    obtain ⟨-, p, hp, hready⟩ := hat
    intro heq
    rw [hp.pos_eq]
    exact h.ready_of_allReady hcap (hready (h.tail_eq_of_firstTurn hfirst hp heq))
  | _ => trivial

end ReadyQueue

section
variable {cfg : RtConfig} {E : FloatOps} {light : Bool} {c : CellState cfg}

theorem CellReach.claimsReady (h : CellReach E light ReadyQueue.FirstTurn c) :
    CellReach E light State.ClaimsReady c := by
  induction h with
  | init m dep => exact .init m dep
  | inner _ hst hw hfits ih => exact .inner ih hst hw hfits
  | call _ hop hidle ih => exact .call ih hop hidle
  | @access c a q op _ hop hne hok ih =>
    exact .access ih hop hne ((ih.inv.queues q).claimsReady capacity_kQueueCapacity hok)

/-- A run of the protocol that is over left the memory of the serial executor. -/
theorem Reach.mem_eq_runSerial {s : RtState cfg} (hs : Reach E s) {G : FrozenGraph}
    (hw : WaitCond G s) (hwait : s.host = .wait) (hc : ConflictsOrdered E G s.mem0) :
    s.mem = (runSerial E G s.mem0).1.mem := by
  rw [runSerial_eq]
  obtain ⟨t, ht, hsim⟩ := hs.simulates hw.1 (by simp [hwait])
  obtain ⟨hquiet, -, -, hfin⟩ := (hw.runInv hs.inv).complete hw.2.2
  have hidle : ∀ i, t.running i = none := by
    intro i
    by_contra hne
    obtain ⟨p, hp⟩ := Option.ne_none_iff_exists'.mp hne
    obtain ⟨a, ha⟩ := (hsim.running i p).mp hp
    simp [(hquiet.parties a).running_eq] at ha
  have hordered : Ordered (G.prog E) G.Edge G.order s.mem0
      (footprintAlong (G.prog E) G.order s.mem0) :=
    ⟨G.order_topo, actsAs_footprintAlong G.order_topo.nodup _, fun i hi j hj =>
      hc i (G.mem_order.mp hi) j (G.mem_order.mp hj)⟩
  rw [← hsim.mem]
  exact ht.mem_eq hordered hidle (by rw [hsim.fin]; exact hfin.trans G.order_perm.symm)

/-- So did a run over the queues in memory. -/
theorem CellReach.mem_eq_runSerial (h : CellReach E light ReadyQueue.FirstTurn c)
    {G : FrozenGraph} (hw : WaitCond G c.rt) (hwait : c.rt.host = .wait)
    (hc : ConflictsOrdered E G c.rt.mem0) : c.rt.mem = (runSerial E G c.rt.mem0).1.mem := by
  have hop : c.rt.queueOp none = none := RtState.queueOp_none_eq_none (by simp [hwait])
  have hw' : WaitCond G c.abs := hw
  exact h.claimsReady.refines.mem_eq_runSerial hw'
    (by rw [CellState.abs, CellState.hostOf_eq hop, hwait]) hc

end

/-! ### A run of one task -/

/-- The only worker steps, and has come to no queue operation. -/
theorem CellReach.workerStep {E : FloatOps} {light : Bool} {c : CellState oneWorker}
    {ok : State (Party oneWorker) → Party oneWorker → Prop} (h : CellReach E light ok c)
    {l : Label} {t : RtState oneWorker} (hst : Step E c.rt l t)
    (hop : c.rt.queueOp (some theWorker) = none) (hhost : t.host = c.rt.host)
    (hG : t.graph = some soleCpuSignal) : CellReach E light ok { c with rt := t } := by
  refine h.inner hst ⟨fun _ => hhost, fun a ha => ?_⟩ fun G hG' => ?_
  · cases a with
    | inl w =>
      obtain rfl : w = ⟨0, oneWorker.cpuThreads_pos⟩ := Fin.ext (Nat.lt_one_iff.mp w.isLt)
      exact absurd ha (by simp [show c.rt.queueOp (some (.inl _)) = none from hop])
    | inr b => exact absurd b.isLt (Nat.not_lt_zero _)
  · rw [hG] at hG'
    cases hG'
    decide

/-- The host has enqueued the signal, and waits. -/
def signalQueued : CellState oneWorker :=
  let c : CellState oneWorker :=
    { CellState.init oneWorker false (fun _ => 0) fun _ => 0 with
      rt := { RtState.init oneWorker (fun _ => 0) fun _ => 0 with
        graph := some soleCpuSignal, active := true, host := .pushRoot 0
        depCount := Function.update (fun _ => 0) 0 0 } }
  let c := c.call none (.main 1) (.push 0)
  let c := c.access none (.main 1)
  let c := c.access none (.main 1)
  let c := c.access none (.main 1)
  let c := c.access none (.main 1)
  let c := c.access none (.main 1)
  { c with rt := { c.rt with host := .wait } }

/-- The host is about to push the signal. -/
theorem pushesSignal {s : RtState oneWorker} (hG : s.graph = some soleCpuSignal)
    (hhost : s.host = .pushRoot 0) : s.queueOp none = some (.main 1, .push 0) := by
  rw [RtState.queueOp, hG, hhost]
  rfl

/-- The worker is about to pop from `k`. -/
theorem popsFrom {s : RtState oneWorker} {k : Qid oneWorker.gpuBlocks}
    {qs : List (Qid oneWorker.gpuBlocks)} (hpc : s.pc theWorker = .poll (k :: qs)) :
    s.queueOp (some theWorker) = some (k, .pop) := by
  rw [RtState.queueOp, hpc]
  cases s.graph <;> rfl

theorem signalQueued_reach : CellReach default false ReadyQueue.FirstTurn signalQueued := by
  have hfit : soleCpuSignal.n ≤ kQueueCapacity := by decide
  have h : CellReach default false ReadyQueue.FirstTurn
      (.init oneWorker false (fun _ => 0) fun _ => 0) := .init _ _
  have h := h.hostStep (.begin soleCpuSignal (fun _ => 0) rfl)
    (by simp [CellState.init, RtState.init]) rfl rfl hfit
  have h := h.hostStep (.reset rfl rfl (by decide)) (by simp) rfl rfl hfit
  have h := h.hostStep (.activate rfl rfl (by decide)) (by simp) rfl rfl hfit
  have h := h.hostStep (.foundRoot rfl rfl (by decide) rfl) (by simp) rfl rfl hfit
  have h := h.call (pushesSignal rfl rfl) rfl
  have h := h.access (pushesSignal rfl rfl)
    (show ReadyQueue.Pc.pushLoad 0 ≠ .idle by simp) (show 0 < 2 ^ 32 by decide)
  have h := h.access (pushesSignal rfl rfl)
    (show ReadyQueue.Pc.pushSeq 0 0 ≠ .idle by simp) (show 0 < 2 ^ 32 by decide)
  have h := h.access (pushesSignal rfl rfl)
    (show ReadyQueue.Pc.pushCas 0 0 ≠ .idle by simp) (show 0 < 2 ^ 32 by decide)
  have h := h.access (pushesSignal rfl rfl)
    (show ReadyQueue.Pc.pushVal 0 0 ≠ .idle by simp) (show 1 < 2 ^ 32 by decide)
  have h := h.access (pushesSignal rfl rfl)
    (show ReadyQueue.Pc.pushDone 0 ≠ .idle by simp) (show 1 < 2 ^ 32 by decide)
  exact h.hostStep (.published rfl rfl (by decide))
    (fun i hi => by cases (show HostPc.publish 1 = .pushRoot i from hi)) rfl rfl hfit

/-- The worker looks into the queue of the CPU's dots and finds nothing. -/
def signalLookedFor : CellState oneWorker :=
  let c : CellState oneWorker := { signalQueued with
    rt := signalQueued.rt.setPc theWorker (.poll (Agent.polls theWorker 0)) }
  let c := c.call (some theWorker) (.main 2) .pop
  let c := c.access (some theWorker) (.main 2)
  c.access (some theWorker) (.main 2)

theorem signalLookedFor_reach : CellReach default false ReadyQueue.FirstTurn signalLookedFor := by
  have h := signalQueued_reach.workerStep (.startPoll (a := theWorker) 0 rfl fun _ => rfl) rfl rfl
    rfl
  have h := h.call (popsFrom (k := .main 2) rfl) rfl
  have h := h.access (popsFrom (k := .main 2) rfl)
    (show ReadyQueue.Pc.popLoad ≠ .idle by simp) (show 0 < 2 ^ 32 by decide)
  exact h.access (popsFrom (k := .main 2) rfl)
    (show ReadyQueue.Pc.popSeq 0 ≠ .idle by simp) (show 0 < 2 ^ 32 by decide)

/-- The worker has taken the signal. -/
def signalTaken : CellState oneWorker :=
  let c := signalLookedFor.call (some theWorker) (.main 1) .pop
  let c := c.access (some theWorker) (.main 1)
  let c := c.access (some theWorker) (.main 1)
  let c := c.access (some theWorker) (.main 1)
  let c := c.access (some theWorker) (.main 1)
  c.access (some theWorker) (.main 1)

theorem signalTaken_reach : CellReach default false ReadyQueue.FirstTurn signalTaken := by
  have h := signalLookedFor_reach.call (popsFrom (k := .main 1) rfl) rfl
  have h := h.access (popsFrom (k := .main 1) rfl)
    (show ReadyQueue.Pc.popLoad ≠ .idle by simp) (show 1 < 2 ^ 32 by decide)
  have h := h.access (popsFrom (k := .main 1) rfl)
    (show ReadyQueue.Pc.popSeq 0 ≠ .idle by simp) (show 1 < 2 ^ 32 by decide)
  have h := h.access (popsFrom (k := .main 1) rfl)
    (show ReadyQueue.Pc.popCas 0 ≠ .idle by simp) (show 1 < 2 ^ 32 by decide)
  have h := h.access (popsFrom (k := .main 1) rfl)
    (show ReadyQueue.Pc.readVal false 0 1 0 [] ≠ .idle by simp) (show 1 < 2 ^ 32 by decide)
  exact h.access (popsFrom (k := .main 1) rfl)
    (show ReadyQueue.Pc.recycle false 0 1 0 [0] ≠ .idle by simp) (show 1 < 2 ^ 32 by decide)

/-- The host waits for the signal, and the worker stands at `p`. -/
structure AtWork (c : CellState oneWorker) (p : Pc oneWorker.gpuBlocks) (done : Bool) (n : ℕ) :
    Prop where
  reach : CellReach default false ReadyQueue.FirstTurn c
  graph : c.rt.graph = some soleCpuSignal
  host : c.rt.host = .wait
  pc : c.rt.pc theWorker = p
  doneFlag : c.rt.doneFlag = done
  nDone : c.rt.nDone = n

/-- The worker gets from `p` to `p'`. -/
theorem AtWork.step {c : CellState oneWorker} {p p' : Pc oneWorker.gpuBlocks} {done done' : Bool}
    {n n' : ℕ} (h : AtWork c p done n) {l : Label} {t : RtState oneWorker}
    (hst : Step default c.rt l (t.setPc theWorker p')) (hpoll : ∀ k qs, p ≠ .poll (k :: qs))
    (hpush : ∀ ids d rel, p ≠ .push ids d rel) (hG : t.graph = c.rt.graph)
    (hhost : t.host = c.rt.host) (hdone : t.doneFlag = done') (hn : t.nDone = n') :
    ∃ c', AtWork c' p' done' n' := by
  have hop := RtState.queueOp_eq_none (s := c.rt) (a := theWorker) (by rwa [h.pc]) (by rwa [h.pc])
  exact ⟨_, h.reach.workerStep hst hop hhost (hG.trans h.graph), hG.trans h.graph,
    hhost.trans h.host, RtState.setPc_pc_self p', hdone, hn⟩

theorem exists_signalTaken : ∃ c, AtWork c (.exec [0] [0] []) false 0 :=
  ⟨_, signalTaken_reach, rfl, rfl, rfl, rfl, rfl⟩

/-- The worker executes the signal. -/
theorem exists_signalExecuted : ∃ c, AtWork c .idle true 1 := by
  obtain ⟨c, h⟩ := exists_signalTaken
  have hstart := Step.startTask (E := default) h.graph h.pc
  rw [soleCpuSignal_prog] at hstart
  obtain ⟨c, h⟩ := h.step hstart (by simp) (by simp) rfl rfl h.doneFlag h.nDone
  obtain ⟨c, h⟩ := h.step (.finishTask (show _ = Pc.exec [0] [] ([] ++ _ :: []) from h.pc)) (by simp) (by simp) rfl rfl h.doneFlag
    h.nDone
  obtain ⟨c, h⟩ := h.step (.execDone h.pc) (by simp) (by simp) rfl rfl h.doneFlag h.nDone
  obtain ⟨c, h⟩ := h.step (.mark h.graph h.pc) (by simp) (by simp) rfl rfl (Bool.or_true _) h.nDone
  obtain ⟨c, h⟩ := h.step (.markDone h.graph h.pc) (by simp) (by simp) rfl rfl h.doneFlag h.nDone
  exact h.step (.countDone h.pc) (by simp) (by simp) rfl rfl h.doneFlag
    (congrArg (· + 1) h.nDone)

end FastLlm
