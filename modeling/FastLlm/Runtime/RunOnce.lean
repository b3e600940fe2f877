import FastLlm.Runtime.ProtocolInv

/-!
# Every task once

The phases of the host — outside a run, resetting, running — give an invariant of all
reachable states over any sequence of runs.  From it: a task is enqueued and executed at
most once and only after its producers; when the host's wait condition holds, all tasks
are executed and nobody touches a record until the next run; and a run in which nobody
has anything left to do is complete.

## Main definitions

* `Inv` — the invariant over all phases, and `Reach.inv`.
* `RunLog`, `RunComplete` — what is true during a run and at its end.
* `run_exactly_once` — the protocol theorem.
-/

namespace FastLlm

/-- Between two batches. -/
def Pc.Idle {b : ℕ} : Pc b → Prop
  | .idle | .poll _ => True
  | _ => False

section
variable {cfg : RtConfig}

/-- Nobody holds a batch and nothing is queued. -/
structure Quiet (s : RtState cfg) : Prop where
  queues : ∀ q, s.q q = []
  parties : ∀ a, (s.pc a).Idle

/-- The log of a run that has not begun. -/
structure NoLog (s : RtState cfg) : Prop where
  enq : s.enq = []
  claimed : s.claimed = []
  started : s.started = []
  finished : s.finished = []

theorem Quiet.total_eq {s : RtState cfg} (h : Quiet s) {f : Pc cfg.gpuBlocks → ℕ}
    (hidle : f .idle = 0) (hpoll : ∀ qs, f (.poll qs) = 0) : total s.pc f = 0 := by
  refine Finset.sum_eq_zero fun a _ => ?_
  have := h.parties a
  cases hp : s.pc a with
  | idle => exact hidle
  | poll qs => exact hpoll qs
  | _ => rw [hp] at this; exact this.elim

theorem Quiet.queued_eq {s : RtState cfg} (h : Quiet s) (i : ℕ) : queued s.q i = 0 :=
  Finset.sum_eq_zero fun q _ => by rw [h.queues q]; rfl

/-- In a quiet state parties only poll. -/
theorem Quiet.agent_step {E : FloatOps} {s t : RtState cfg} {ts : List ℕ} (h : Quiet s)
    (hst : Step E s (.agent ts) t) : ts = [] ∧ ∃ pc, t = { s with pc := pc } ∧ ∀ a, (pc a).Idle := by
  have hset : ∀ a (p : Pc cfg.gpuBlocks), p.Idle → ∀ b, (Function.update s.pc a p b).Idle := by
    intro a p hp b
    by_cases hb : b = a
    · subst hb; simpa using hp
    · simpa [Function.update_of_ne hb] using h.parties b
  have hbusy : ∀ {a : Agent cfg} {p}, s.pc a = p → ¬ p.Idle → False := fun ha hp =>
    hp (ha ▸ h.parties _)
  cases hst with
  | startPoll rr _ _ => exact ⟨rfl, _, rfl, hset _ _ trivial⟩
  | miss _ => exact ⟨rfl, _, rfl, hset _ _ trivial⟩
  | endPoll _ => exact ⟨rfl, _, rfl, hset _ _ trivial⟩
  | pop _ hq hne _ =>
      rw [h.queues] at hq
      exact absurd (List.nil_eq_append_iff.mp hq).1 hne
  | startTask _ hp => exact (hbusy hp id).elim
  | read hp => exact (hbusy hp id).elim
  | write hp => exact (hbusy hp id).elim
  | finishTask hp => exact (hbusy hp id).elim
  | execDone hp => exact (hbusy hp id).elim
  | mark _ hp => exact (hbusy hp id).elim
  | markDone _ hp => exact (hbusy hp id).elim
  | release hp => exact (hbusy hp id).elim
  | push _ hp _ _ => exact (hbusy hp id).elim
  | countDone hp => exact (hbusy hp id).elim

namespace RunInv
variable {E : FloatOps} {G : FrozenGraph} {s t : RtState cfg}

theorem quiet_of_held (h : RunInv G s) (hheld : ∀ a, (s.pc a).held = []) :
    ∀ a, (s.pc a).Idle := by
  intro a
  have hwf := h.pc_wf a
  have hh := hheld a
  cases hp : s.pc a with
  | idle => trivial
  | poll _ => trivial
  | _ => rw [hp] at hwf hh; exact (hwf.1 hh).elim

/-- **The counters are exact.**  When `n_done` is the number of tasks, every id has been
enqueued, claimed, started and finished, and no batch is in progress. -/
theorem complete (h : RunInv G s) (hn : s.nDone = G.n) :
    Quiet s ∧ s.enq.Perm (List.range G.n) ∧ s.started.Perm (List.range G.n) ∧
      s.finished.Perm (List.range G.n) := by
  have hdone := h.done_eq
  have hsub : s.claimed.Subperm (List.range G.n) :=
    h.claimed_nodup.subperm fun i hi => List.mem_range.mpr (h.claimed_lt hi)
  have hlen := hsub.length_le
  rw [List.length_range] at hlen
  have hclaimed : s.claimed.Perm (List.range G.n) :=
    hsub.perm_of_length_le (by rw [List.length_range]; omega)
  have hheld : ∀ a, (s.pc a).held = [] := fun a => by
    have := single_le_total s.pc a fun p => p.held.length
    exact List.length_eq_zero_iff.mp (by omega)
  have hidle := h.quiet_of_held hheld
  have hbusy : ∀ f : Pc cfg.gpuBlocks → ℕ, (∀ p, p.Idle → f p = 0) → total s.pc f = 0 :=
    fun f hf => Finset.sum_eq_zero fun a _ => hf _ (hidle a)
  have hcount : ∀ i, s.claimed.count i = s.started.count i ∧
      s.started.count i = s.finished.count i := fun i => by
    have h1 := h.started_eq i
    have h2 := h.finished_eq i
    rw [hbusy _ fun p hp => by cases p <;> first | rfl | exact hp.elim] at h1 h2
    exact ⟨h1, h2⟩
  have hstarted := (List.perm_iff_count.mpr fun i => (hcount i).1.symm).trans hclaimed
  have hfinished := (List.perm_iff_count.mpr fun i => (hcount i).2.symm).trans hstarted
  have henq : ∀ i, s.enq.count i = s.claimed.count i := fun i => by
    by_cases hi : i < G.n
    · have := h.count_enq_le i
      have := h.enq_eq i
      have : 0 < s.claimed.count i :=
        List.count_pos_iff.mpr (hclaimed.mem_iff.mpr (List.mem_range.mpr hi))
      omega
    · have h1 : i ∉ s.enq := fun hm => hi (h.enq_lt i hm)
      have h2 : i ∉ s.claimed := fun hm => hi (h.claimed_lt hm)
      rw [List.count_eq_zero.mpr h1, List.count_eq_zero.mpr h2]
  refine ⟨⟨fun q => ?_, hidle⟩, (List.perm_iff_count.mpr henq).trans hclaimed, hstarted, hfinished⟩
  refine List.eq_nil_iff_forall_not_mem.mpr fun i hi => ?_
  have := le_queued s.q q i
  have := h.enq_eq i
  have := henq i
  have := List.count_pos_iff.mpr hi
  omega

/-- The step lemma for workers and blocks. -/
theorem agent_step (h : RunInv G s) (hG : s.graph = some G) {ts : List ℕ}
    (hst : Step E s (.agent ts) t) : RunInv G t ∧ t.graph = s.graph ∧ t.host = s.host := by
  have hgraph : ∀ {G' : FrozenGraph}, s.graph = some G' → G' = G := fun h' =>
    Option.some.inj (h'.symm.trans hG)
  have hwf := h.pc_wf
  cases hst with
  | startPoll rr hp _ =>
      exact ⟨h.silent hp s.mem s.doneFlag rfl rfl rfl rfl (fun _ => rfl) trivial
        (fun hd => ⟨hd, le_rfl⟩), rfl, rfl⟩
  | miss hp =>
      exact ⟨h.silent hp s.mem s.doneFlag rfl rfl rfl rfl (fun _ => rfl) trivial
        (fun hd => ⟨hd, le_rfl⟩), rfl, rfl⟩
  | endPoll hp =>
      exact ⟨h.silent hp s.mem s.doneFlag rfl rfl rfl rfl (fun _ => rfl) trivial
        (fun hd => ⟨hd, le_rfl⟩), rfl, rfl⟩
  | pop hp hq hne _ => exact ⟨h.pop hp hq hne, rfl, rfl⟩
  | startTask hG' hp =>
      obtain rfl := hgraph hG'
      exact ⟨h.startTask hp, rfl, rfl⟩
  | @read a ids todo i l k r₁ r₂ hp =>
      have hw := hwf a
      rw [hp] at hw
      refine ⟨h.silent hp s.mem s.doneFlag rfl rfl ?_ rfl (fun _ => rfl)
        ⟨hw.1, hw.2.1, hw.2.2.1, ?_⟩ (fun hd => ⟨hd, le_rfl⟩), rfl, rfl⟩
      · simp [Pc.runningIds]
      · simpa using hw.2.2.2
  | @write a ids todo i l v k r₁ r₂ hp =>
      have hw := hwf a
      rw [hp] at hw
      refine ⟨h.silent hp (Function.update s.mem l v) s.doneFlag rfl rfl ?_ rfl (fun _ => rfl)
        ⟨hw.1, hw.2.1, hw.2.2.1, ?_⟩ (fun hd => ⟨hd, le_rfl⟩), rfl, rfl⟩
      · simp [Pc.runningIds]
      · simpa using hw.2.2.2
  | finishTask hp => exact ⟨h.finishTask hp, rfl, rfl⟩
  | @execDone a ids hp =>
      have hw := hwf a
      rw [hp] at hw
      exact ⟨h.silent hp s.mem s.doneFlag rfl rfl rfl rfl (fun _ => rfl) ⟨hw.1, hw.2.1⟩
        (fun hd => ⟨hd, le_rfl⟩), rfl, rfl⟩
  | @mark G' a ids todo i hG' hp =>
      obtain rfl := hgraph hG'
      have hw := hwf a
      rw [hp] at hw
      refine ⟨h.silent hp s.mem _ rfl rfl rfl rfl (fun _ => rfl) hw fun hd => ?_, rfl, rfl⟩
      obtain ⟨hd, hi⟩ : s.doneFlag = false ∧ i ≠ G'.terminal := by simpa using hd
      exact ⟨hd, by simp [Pc.unmarked, hi]⟩
  | @markDone G' a ids hG' hp =>
      obtain rfl := hgraph hG'
      have hw := hwf a
      rw [hp] at hw
      refine ⟨h.silent hp s.mem s.doneFlag rfl rfl rfl rfl
        (fun c => relCount_releases a _ c) ⟨hw.1, relWF_releases a fun c hc => ?_⟩
        (fun hd => ⟨hd, le_rfl⟩), rfl, rfl⟩
      obtain ⟨i, hi, hci⟩ := List.mem_flatMap.mp hc
      exact G'.cons_lt (hw.2 i hi) hci
  | release hp => exact ⟨h.release hp, rfl, rfl⟩
  | push _ hp _ _ => exact ⟨h.push _ hp, rfl, rfl⟩
  | countDone hp => exact ⟨h.countDone hp, rfl, rfl⟩

/-- The step lemma for the host, when only its program counter moves. -/
theorem host_move (h : RunInv G s) (hp : HostPc)
    (hdue : ∀ c < G.n, rootsDue G hp c = rootsDue G s.host c)
    (hroot : ∀ i, hp = .pushRoot i → i < G.n ∧ G.depInit i = 0) (act : Bool) :
    RunInv G { s with active := act, host := hp } :=
  ⟨h.enq_lt, h.enq_eq, h.started_eq, h.finished_eq, h.done_eq, h.dep_eq,
    fun c hc => by rw [hdue c hc]; exact h.ready_eq c hc, h.mark_le, h.pc_wf, hroot⟩

theorem pushRoot (h : RunInv G s) {i : ℕ} (q : Qid cfg.gpuBlocks) (hhost : s.host = .pushRoot i) :
    RunInv G { s.enqueue q i with host := .publish (i + 1) } := by
  obtain ⟨hi, hroot⟩ := h.root i hhost
  refine ⟨fun j hj => ?_, fun j => ?_, h.started_eq, h.finished_eq, h.done_eq, h.dep_eq,
    fun c hc => ?_, h.mark_le, h.pc_wf, by simp⟩
  · rcases List.mem_append.mp hj with hj | hj
    · exact h.enq_lt j hj
    · obtain rfl : j = i := by simpa using hj
      exact hi
  · have h1 := h.enq_eq j
    have h2 := queued_update s.q q (s.q q ++ [i]) j
    simp only [RtState.enqueue, List.count_append] at h2 ⊢
    omega
  · have h1 := h.ready_eq c hc
    rw [hhost] at h1
    simp only [RtState.enqueue, rootsDue, List.count_append] at h1 ⊢
    rcases Nat.lt_trichotomy i c with hic | rfl | hic
    · have : List.count c [i] = 0 := List.count_eq_zero.mpr (by simp; omega)
      rw [if_congr (show i + 1 ≤ c ∧ G.depInit c = 0 ↔ i ≤ c ∧ G.depInit c = 0 by
        constructor <;> rintro ⟨-, h⟩ <;> exact ⟨by omega, h⟩) rfl rfl]
      omega
    · rw [if_pos ⟨le_rfl, hroot⟩] at h1
      rw [if_neg (by omega)]
      simp only [List.count_singleton_self]
      omega
    · have : List.count c [i] = 0 := List.count_eq_zero.mpr (by simp; omega)
      rw [if_neg (by omega)] at h1
      rw [if_neg (by omega)]
      omega

/-- The run starts with every count at its number of edges. -/
theorem start (hq : Quiet s) (hlog : NoLog s) (hn : s.nDone = 0)
    (hdep : ∀ j < G.n, s.depCount j = G.depInit j) :
    RunInv G { s with active := true, host := .publish 0 } := by
  refine ⟨?_, fun i => ?_, fun i => ?_, fun i => ?_, ?_, fun c hc => ?_, fun c hc => ?_, ?_,
    fun a => ?_, by simp⟩ <;> simp only [hlog.enq, hlog.claimed, hlog.started, hlog.finished]
  · simp
  · simp [hq.queued_eq]
  · rw [hq.total_eq rfl fun _ => rfl]; rfl
  · rw [hq.total_eq rfl fun _ => rfl]; rfl
  · rw [hq.total_eq rfl fun _ => rfl, hn]; rfl
  · rw [hq.total_eq rfl fun _ => rfl, hdep c hc, G.depInit_eq]
    simp
  · rw [hq.total_eq rfl fun _ => rfl, hdep c hc]
    simp [rootsDue, isZero]
  · simp
  · have := hq.parties a
    cases hp : s.pc a <;> first | trivial | (rw [hp] at this; exact this.elim)

/-- **No stall in the counters.**  When the host waits and nobody has anything to do, the
run is complete. -/
theorem no_stall (h : RunInv G s) (hhost : s.host = .wait) (hq : Quiet s) :
    s.doneFlag = true ∧ s.nDone = G.n := by
  have hclaimed : ∀ i ∈ G.order, i ∈ s.claimed := by
    refine G.order_topo.induction fun i hi hpred => ?_
    have hin : i < G.n := G.mem_order.mp hi
    have hopen : openEdges G.cons G.n s.claimed i = 0 := openEdges_eq_zero.mpr hpred
    have hdep := h.dep_eq i hin
    rw [hopen, hq.total_eq rfl fun _ => rfl] at hdep
    have hready := h.ready_eq i hin
    rw [hq.total_eq rfl fun _ => rfl, hdep, hhost] at hready
    have henq := h.enq_eq i
    have hqueued := hq.queued_eq i
    simp only [rootsDue, isZero, Nat.cast_zero, add_zero, if_true] at hready
    exact List.count_pos_iff.mp (by omega)
  have hperm : s.claimed.Perm (List.range G.n) :=
    (List.perm_ext_iff_of_nodup h.claimed_nodup List.nodup_range).mpr fun i =>
      ⟨fun hi => List.mem_range.mpr (h.claimed_lt hi),
        fun hi => hclaimed i (G.mem_order.mpr (List.mem_range.mp hi))⟩
  have hmark := h.mark_le
  have hdone := h.done_eq
  rw [hq.total_eq rfl fun _ => rfl] at hdone
  have hterm : 0 < s.claimed.count G.terminal :=
    List.count_pos_iff.mpr (hclaimed _ (G.mem_order.mpr G.freezeOK.terminal_lt))
  refine ⟨?_, ?_⟩
  · cases hd : s.doneFlag with
    | true => rfl
    | false =>
        have := hmark hd
        rw [hq.total_eq rfl fun _ => rfl] at this
        omega
  · rw [hperm.length_eq, List.length_range] at hdone
    omega

end RunInv

/-! ## All phases -/

/-- The invariant over any sequence of runs. -/
inductive Inv (s : RtState cfg) : Prop
  | fresh : s.graph = none → s.host = .outside → s.doneFlag = false → Quiet s → NoLog s → Inv s
  | resetting (G : FrozenGraph) (i : ℕ) : s.graph = some G → s.host = .reset i →
      s.doneFlag = false → s.nDone = 0 → Quiet s → NoLog s → i ≤ G.n →
      (∀ j < i, s.depCount j = G.depInit j) → Inv s
  | running (G : FrozenGraph) : s.graph = some G → (∀ i, s.host ≠ .reset i) →
      (s.host = .outside → s.doneFlag = true ∧ s.nDone = G.n) → RunInv G s → Inv s

section Phases
variable {E : FloatOps} {s t : RtState cfg}

/-- Between runs nobody has anything to do. -/
theorem Inv.quiet_outside (h : Inv s) (hhost : s.host = .outside) : Quiet s := by
  cases h with
  | fresh _ _ _ hq _ => exact hq
  | resetting G i _ hr => rw [hr] at hhost; cases hhost
  | running G _ _ hdone hinv => exact (hinv.complete (hdone hhost).2).1

theorem Inv.agent_step (h : Inv s) {ts : List ℕ} (hst : Step E s (.agent ts) t) : Inv t := by
  cases h with
  | fresh hg hh hd hq hl =>
      obtain ⟨-, pc, rfl, hpc⟩ := hq.agent_step hst
      exact .fresh hg hh hd ⟨hq.queues, hpc⟩ ⟨hl.enq, hl.claimed, hl.started, hl.finished⟩
  | resetting G i hg hh hd hn hq hl hi hdep =>
      obtain ⟨-, pc, rfl, hpc⟩ := hq.agent_step hst
      exact .resetting G i hg hh hd hn ⟨hq.queues, hpc⟩
        ⟨hl.enq, hl.claimed, hl.started, hl.finished⟩ hi hdep
  | running G hg hh hdone hinv =>
      obtain ⟨hinv', hg', hh'⟩ := hinv.agent_step hg hst
      refine .running G (hg'.trans hg) (by rw [hh']; exact hh) (fun ho => ?_) hinv'
      obtain ⟨hd, hn⟩ := hdone (hh' ▸ ho)
      obtain ⟨-, pc, rfl, -⟩ := (hinv.complete hn).1.agent_step hst
      exact ⟨hd, hn⟩

/-- A host step inside a run finds the run under way. -/
theorem Inv.running_of (h : Inv s) {G : FrozenGraph} (hG : s.graph = some G)
    (ho : s.host ≠ .outside) (hr : ∀ i, s.host ≠ .reset i) : RunInv G s := by
  cases h with
  | fresh _ hh => exact absurd hh ho
  | resetting _ i _ hh => exact absurd hh (hr i)
  | running G' hG' _ _ hinv =>
      obtain rfl := Option.some.inj (hG'.symm.trans hG)
      exact hinv

theorem Inv.resetting_of (h : Inv s) {G : FrozenGraph} {i : ℕ} (hG : s.graph = some G)
    (hr : s.host = .reset i) : s.doneFlag = false ∧ s.nDone = 0 ∧ Quiet s ∧ NoLog s ∧
      i ≤ G.n ∧ ∀ j < i, s.depCount j = G.depInit j := by
  cases h with
  | fresh _ hh => rw [hh] at hr; cases hr
  | resetting G' i' hG' hh hd hn hq hl hi hdep =>
      obtain rfl := Option.some.inj (hG'.symm.trans hG)
      obtain rfl : i' = i := by rw [hh] at hr; simpa using hr
      exact ⟨hd, hn, hq, hl, hi, hdep⟩
  | running _ _ hh => exact absurd hr (hh i)

/-- **The invariant is kept by every step.** -/
theorem Inv.step (h : Inv s) {l : Label} (hst : Step E s l t) : Inv t := by
  cases l with
  | agent ts => exact h.agent_step hst
  | begin =>
      cases hst with
      | begin G dep ho =>
          have hq := h.quiet_outside ho
          exact .resetting G 0 rfl rfl rfl rfl ⟨hq.queues, hq.parties⟩ ⟨rfl, rfl, rfl, rfl⟩
            (Nat.zero_le _) (by simp)
  | host ts =>
      cases hst with
      | hostWrite m ho =>
          cases h with
          | fresh hg hh hd hq hl =>
              exact .fresh hg hh hd ⟨hq.queues, hq.parties⟩
                ⟨hl.enq, hl.claimed, hl.started, hl.finished⟩
          | resetting G i _ hr => rw [hr] at ho; cases ho
          | running G hg hh hdone hinv =>
              exact .running G hg hh hdone ⟨hinv.enq_lt, hinv.enq_eq, hinv.started_eq,
                hinv.finished_eq, hinv.done_eq, hinv.dep_eq, hinv.ready_eq, hinv.mark_le,
                hinv.pc_wf, hinv.root⟩
      | @reset G i hG hr hi =>
          obtain ⟨hd, hn, hq, hl, -, hdep⟩ := h.resetting_of hG hr
          refine .resetting G (i + 1) hG rfl hd hn ⟨hq.queues, hq.parties⟩
            ⟨hl.enq, hl.claimed, hl.started, hl.finished⟩ hi fun j hj => ?_
          by_cases hji : j = i
          · subst hji; simp
          · exact (Function.update_of_ne hji _ _).trans (hdep j (by omega))
      | @activate G i hG hr hi =>
          obtain ⟨-, hn, hq, hl, hle, hdep⟩ := h.resetting_of hG hr
          exact .running G hG (by simp) (by simp)
            (RunInv.start hq hl hn fun j hj => hdep j (by omega))
      | @skipTask G i hG hp hi hne =>
          have hinv := h.running_of hG (by simp [hp]) (by simp [hp])
          refine .running G hG (by simp) (by simp)
            (hinv.host_move _ (fun c hc => ?_) (by simp) s.active)
          simp only [hp, rootsDue]
          by_cases hci : c = i
          · subst hci; simp [hne]
          · exact if_congr (by constructor <;> rintro ⟨h, h'⟩ <;> exact ⟨by omega, h'⟩) rfl rfl
      | @foundRoot G i hG hp hi hz =>
          have hinv := h.running_of hG (by simp [hp]) (by simp [hp])
          refine .running G hG (by simp) (by simp)
            (hinv.host_move _ (fun c hc => by rw [hp]; rfl) (fun j hj => ?_) s.active)
          obtain rfl : i = j := by simpa using hj
          exact ⟨hi, hz⟩
      | @pushRoot G i q hG hp _ _ =>
          have hinv := h.running_of hG (by simp [hp]) (by simp [hp])
          exact .running G hG (by simp) (by simp) (hinv.pushRoot q hp)
      | @published G i hG hp hi =>
          have hinv := h.running_of hG (by simp [hp]) (by simp [hp])
          refine .running G hG (by simp) (by simp)
            (hinv.host_move _ (fun c hc => ?_) (by simp) s.active)
          rw [hp]
          exact (if_neg (by omega)).symm
      | @finishRun G hG hp hd hn =>
          have hinv := h.running_of hG (by simp [hp]) (by simp [hp])
          exact .running G hG (by simp) (fun _ => ⟨hd, hn⟩)
            (hinv.host_move _ (fun c hc => by rw [hp]; rfl) (by simp) false)

/-- The run lemma. -/
theorem Reach.inv (h : Reach E s) : Inv s := by
  induction h with
  | init m dep => exact .fresh rfl rfl rfl ⟨fun _ => rfl, fun _ => trivial⟩ ⟨rfl, rfl, rfl, rfl⟩
  | step _ hst ih => exact ih.step hst

/-- A state whose wait condition holds belongs to a run that is under way or over. -/
theorem WaitCond.runInv (h : Inv s) {G : FrozenGraph} (hw : WaitCond G s) : RunInv G s := by
  obtain ⟨hG, hd, -⟩ := hw
  cases h with
  | fresh hg => rw [hg] at hG; cases hG
  | resetting _ _ _ _ hd' => rw [hd'] at hd; cases hd
  | running G' hG' _ _ hinv =>
      obtain rfl := Option.some.inj (hG'.symm.trans hG)
      exact hinv

/-- Once it holds, the wait condition holds until the next run begins, and workers and
blocks touch no record. -/
theorem WaitCond.step (h : Inv s) {G : FrozenGraph} (hw : WaitCond G s) {l : Label}
    (hst : Step E s l t) (hl : l ≠ .begin) :
    WaitCond G t ∧ ∀ ts, l = .agent ts → ts = [] := by
  have hq := ((hw.runInv h).complete hw.2.2).1
  cases l with
  | begin => exact absurd rfl hl
  | agent ts =>
      obtain ⟨hts, pc, rfl, -⟩ := hq.agent_step hst
      exact ⟨hw, fun ts' h' => by cases h'; exact hts⟩
  | host ts =>
      refine ⟨?_, by simp⟩
      obtain ⟨hG, hd, hn⟩ := hw
      cases hst with
      | hostWrite m ho => exact ⟨hG, hd, hn⟩
      | reset hG' hr hi =>
          have := (h.resetting_of hG' hr).1
          rw [this] at hd; cases hd
      | activate hG' hr hi =>
          have := (h.resetting_of hG' hr).1
          rw [this] at hd; cases hd
      | skipTask => exact ⟨hG, hd, hn⟩
      | foundRoot => exact ⟨hG, hd, hn⟩
      | pushRoot => exact ⟨hG, hd, hn⟩
      | published => exact ⟨hG, hd, hn⟩
      | finishRun => exact ⟨hG, hd, hn⟩

end Phases

/-! ## The protocol theorem -/

/-- What the log shows at any moment of a run. -/
structure RunLog (G : FrozenGraph) (s : RtState cfg) : Prop where
  /-- Every enqueue is of a task, and of each task at most once. -/
  enq : s.enq.Nodup ∧ ∀ i ∈ s.enq, i < G.n
  /-- Every task starts and finishes at most once, after it was enqueued. -/
  started : s.started.Nodup ∧ ∀ i ∈ s.started, i ∈ s.enq
  finished : s.finished.Nodup ∧ ∀ i ∈ s.finished, i ∈ s.started
  /-- A task starts after its producers have finished. -/
  producers : ∀ c ∈ s.started, ∀ p, G.Edge p c → p ∈ s.finished

/-- What holds when the host's wait condition does. -/
structure RunComplete (E : FloatOps) (G : FrozenGraph) (s : RtState cfg) : Prop where
  enq : s.enq.Perm (List.range G.n)
  started : s.started.Perm (List.range G.n)
  finished : s.finished.Perm (List.range G.n)
  queues : ∀ q, s.q q = []
  parties : ∀ a, (s.pc a).Idle
  /-- Nobody touches a task record until the next run begins. -/
  untouched : ∀ ls t, Trace E s ls t → .begin ∉ ls → ∀ ts, .agent ts ∈ ls → ts = []

theorem RunInv.runLog {G : FrozenGraph} {s : RtState cfg} (h : RunInv G s) : RunLog G s where
  enq := ⟨h.enq_nodup, h.enq_lt⟩
  started := ⟨h.started_nodup, fun _ hi => h.mem_enq_of_claimed (h.mem_claimed_of_started hi)⟩
  finished := ⟨h.finished_nodup, fun i hi => by
    have := h.finished_eq i
    have := List.count_pos_iff.mpr hi
    exact List.count_pos_iff.mp (by omega)⟩
  producers _ hc _ hp := h.finished_of_enq (h.mem_enq_of_claimed (h.mem_claimed_of_started hc)) hp

theorem NoLog.runLog {G : FrozenGraph} {s : RtState cfg} (h : NoLog s) : RunLog G s where
  enq := by simp [h.enq]
  started := by simp [h.started]
  finished := by simp [h.finished]
  producers := by simp [h.started]

/-- Until the next run begins the wait condition stays, and no record is touched. -/
theorem WaitCond.trace {E : FloatOps} {G : FrozenGraph} {s t : RtState cfg} {ls : List Label}
    (hs : Reach E s) (hw : WaitCond G s) (h : Trace E s ls t) (hb : .begin ∉ ls) :
    Reach E t ∧ WaitCond G t ∧ ∀ ts, .agent ts ∈ ls → ts = [] := by
  induction h with
  | nil => exact ⟨hs, hw, by simp⟩
  | @snoc ls l t u _ hst ih =>
      rw [List.mem_append, not_or] at hb
      obtain ⟨ht, hwt, hts⟩ := ih hb.1
      obtain ⟨hwu, hl⟩ := hwt.step ht.inv hst (by simpa [eq_comm] using hb.2)
      refine ⟨ht.step hst, hwu, fun ts hmem => ?_⟩
      rcases List.mem_append.mp hmem with hmem | hmem
      · exact hts ts hmem
      · exact hl ts (by simpa [eq_comm] using hmem)

/-- **Every task once, producers first, and nothing afterwards.**  In every reachable
state the log of the current run has each task at most once and in dependency order;
when the wait condition holds the run is complete; and a run in which the host waits
and nobody has anything to do has its wait condition. -/
theorem run_exactly_once (E : FloatOps) {s : RtState cfg} (hs : Reach E s) {G : FrozenGraph}
    (hG : s.graph = some G) :
    RunLog G s ∧ (WaitCond G s → RunComplete E G s) ∧
      (s.host = .wait → Quiet s → WaitCond G s) := by
  have hinv := hs.inv
  refine ⟨?_, fun hw => ?_, fun hwait hq => ?_⟩
  · cases hinv with
    | fresh hg => rw [hg] at hG; cases hG
    | resetting _ _ _ _ _ _ _ hl => exact hl.runLog
    | running G' hG' _ _ hrun =>
        obtain rfl := Option.some.inj (hG'.symm.trans hG)
        exact hrun.runLog
  · obtain ⟨hq, henq, hst, hfin⟩ := (hw.runInv hinv).complete hw.2.2
    exact ⟨henq, hst, hfin, hq.queues, hq.parties,
      fun ls t ht hb => (hw.trace hs ht hb).2.2⟩
  · obtain ⟨hd, hn⟩ := (hinv.running_of hG (by simp [hwait]) (by simp [hwait])).no_stall hwait hq
    exact ⟨hG, hd, hn⟩

end

/-! ### A run of one task -/

/-- One worker, no GPU. -/
def oneWorker : RtConfig where
  cpuThreads := 1
  cpuThreads_pos := le_rfl
  gpuBlocks := 0
  gpuBatch := 1
  gpuBatch_pos := le_rfl
  gpuBatch_le := by decide
  gpuEnabled := false
  gpu_off := fun _ => rfl
  noSteal := false
  perblockQ := false
  perblockChunk := 1

/-- The sum of two words, and the signal that waits for it. -/
def addThenSignal : FrozenGraph where
  g :=
    { tasks :=
        [{ kind := .ADD2, affinity := .CPU, aux := some (.add2 ⟨⟨1, 0⟩, ⟨1, 1⟩, ⟨1, 2⟩, 1⟩)
           consumers := [1] },
         { kind := .SIGNAL, affinity := .CPU, id := 1, depInit := 1 }]
      max := 2, terminal := 1, frozen := true }
  built := .freeze (.edge (p := 0) (c := 1) (.add (.add (.create 2)
    (t := { kind := .ADD2, affinity := .CPU
            aux := some (.add2 ⟨⟨1, 0⟩, ⟨1, 1⟩, ⟨1, 2⟩, 1⟩) }) rfl)
    (t := { kind := .SIGNAL, affinity := .CPU }) rfl) rfl) rfl
  frozen := rfl

/-- Its only worker. -/
def theWorker : Agent oneWorker := .inl ⟨0, oneWorker.cpuThreads_pos⟩

private theorem room : ([] : List ℕ).length < kQueueCapacity := by decide

/-- The worker executes the sum, which makes the signal ready, and then the signal. -/
theorem addThenSignal_waits (E : FloatOps) :
    ∃ s : RtState oneWorker, Reach E s ∧ WaitCond addThenSignal s ∧ s.host = .wait := by
  -- the host resets the counters and publishes the one root
  have h : Reach E (.init oneWorker (fun _ => 0) fun _ => 7) := .init _ _
  have h := h.step (.begin addThenSignal (fun _ => 7) rfl)
  have h := h.step (.reset rfl rfl (by decide))
  have h := h.step (.reset rfl rfl (by decide))
  have h := h.step (.activate rfl rfl (by decide))
  have h := h.step (.foundRoot rfl rfl (by decide) rfl)
  have h := h.step (.pushRoot rfl rfl rfl room)
  have h := h.step (.skipTask rfl rfl (by decide) (by decide))
  have h := h.step (.published rfl rfl (by decide))
  -- the worker finds it, executes it and releases the signal
  have h := h.step (.startPoll (a := theWorker) 0 rfl fun _ => rfl)
  have h := h.step (.pop (a := theWorker) rfl (show _ = [0] ++ [] from rfl) (by simp) le_rfl)
  have h := h.step (.startTask (a := theWorker) rfl rfl)
  have h := h.step (.read (a := theWorker) (show _ = Pc.exec [0] [] ([] ++ _ :: []) from rfl))
  have h := h.step (.read (a := theWorker) (show _ = Pc.exec [0] [] ([] ++ _ :: []) from rfl))
  have h := h.step (.write (a := theWorker) (show _ = Pc.exec [0] [] ([] ++ _ :: []) from rfl))
  have h := h.step (.finishTask (a := theWorker) (show _ = Pc.exec [0] [] ([] ++ _ :: []) from rfl))
  have h := h.step (.execDone (a := theWorker) rfl)
  have h := h.step (.mark (a := theWorker) rfl rfl)
  have h := h.step (.markDone (a := theWorker) rfl rfl)
  have h := h.step (.release (a := theWorker) (c := 1) (k := 1) rfl)
  have h := h.step (.push (a := theWorker) (c := 1) rfl rfl rfl room)
  have h := h.step (.countDone (a := theWorker) rfl)
  -- and then the signal
  have h := h.step (.startPoll (a := theWorker) 0 rfl fun _ => rfl)
  have h := h.step (.miss (a := theWorker) rfl)
  have h := h.step (.pop (a := theWorker) rfl (show _ = [1] ++ [] from rfl) (by simp) le_rfl)
  have h := h.step (.startTask (a := theWorker) rfl rfl)
  have h := h.step (.finishTask (a := theWorker) (show _ = Pc.exec [1] [] ([] ++ _ :: []) from rfl))
  have h := h.step (.execDone (a := theWorker) rfl)
  have h := h.step (.mark (a := theWorker) rfl rfl)
  have h := h.step (.markDone (a := theWorker) rfl rfl)
  have h := h.step (.countDone (a := theWorker) rfl)
  exact ⟨_, h, ⟨rfl, rfl, rfl⟩, rfl⟩

theorem run_exactly_once_addThenSignal :
    ∃ s : RtState oneWorker, s.graph = some addThenSignal ∧ RunLog addThenSignal s ∧
      RunComplete default addThenSignal s := by
  obtain ⟨s, hs, hw, -⟩ := addThenSignal_waits default
  obtain ⟨hlog, hcomplete, -⟩ := run_exactly_once default hs hw.1
  exact ⟨s, hw.1, hlog, hcomplete hw⟩

end FastLlm
