import FastLlm.Lib.ParExec
import FastLlm.Runtime.RunOnce

/-!
# A run computes what the serial executor computes

Seen through the programs in execution and the finished tasks, every step of the
protocol is a step of the parallel machine or none at all.  When conflicting tasks are
connected by a path, a run therefore ends in the memory `runSerial` computes, whatever
the schedule.

## Main definitions

* `Executing` — the programs in execution.
* `Simulates` — how a protocol state appears as a state of the parallel machine.
* `ConflictsOrdered` — conflicting tasks are connected by a path.
* `run_eq_runSerial` — the refinement theorem.
-/

namespace FastLlm

/-- The programs a party has in execution. -/
def Pc.running {b : ℕ} : Pc b → List (ℕ × Exec Unit)
  | .exec _ _ running => running
  | _ => []

theorem Pc.runningIds_eq {b : ℕ} (p : Pc b) : p.runningIds = p.running.map Prod.fst := by
  cases p <;> rfl

section
variable {cfg : RtConfig}

/-- Task `i` is in execution, with `p` left to run. -/
def Executing (pc : Agent cfg → Pc cfg.gpuBlocks) (i : ℕ) (p : Exec Unit) : Prop :=
  ∃ a, (i, p) ∈ (pc a).running

/-- The protocol state seen as a state of the parallel machine. -/
structure Simulates (s : RtState cfg) (t : ParState ℕ Loc Word) : Prop where
  mem : t.mem = s.mem
  fin : t.fin = s.finished
  running : ∀ i p, t.running i = some p ↔ Executing s.pc i p

/-- A step that leaves the programs in execution alone is none of the machine. -/
theorem Simulates.stutter {s s' : RtState cfg} {t : ParState ℕ Loc Word} (h : Simulates s t)
    (hmem : s'.mem = s.mem) (hfin : s'.finished = s.finished)
    (hrun : ∀ a, (s'.pc a).running = (s.pc a).running) : Simulates s' t where
  mem := h.mem.trans hmem.symm
  fin := h.fin.trans hfin.symm
  running i p := by
    rw [h.running]
    simp only [Executing, hrun]

theorem running_update {pc : Agent cfg → Pc cfg.gpuBlocks} {a : Agent cfg}
    {p p' : Pc cfg.gpuBlocks} (hp : pc a = p) (h : p'.running = p.running) (b : Agent cfg) :
    (Function.update pc a p' b).running = (pc b).running := by
  by_cases hb : b = a
  · subst hb; rw [Function.update_self, h, hp]
  · rw [Function.update_of_ne hb]

/-- Idle parties execute nothing. -/
theorem Pc.Idle.running_eq {b : ℕ} {p : Pc b} (h : p.Idle) : p.running = [] := by
  cases p <;> first | rfl | exact h.elim

namespace RunInv
variable {G : FrozenGraph} {s : RtState cfg}

/-- A task is in execution in one place only. -/
theorem running_count_le (h : RunInv G s) (i : ℕ) :
    (total s.pc fun p => p.runningIds.count i) ≤ 1 := by
  have h1 := h.finished_eq i
  have h2 := List.nodup_iff_count_le_one.mp h.started_nodup i
  omega

/-- Replacing the one program of task `i` by `mid`. -/
theorem executing_update (h : RunInv G s) {a : Agent cfg} {ids todo : List ℕ} {i : ℕ}
    {p : Exec Unit} {r₁ r₂ mid : List (ℕ × Exec Unit)}
    (hp : s.pc a = .exec ids todo (r₁ ++ (i, p) :: r₂)) (j : ℕ) (q : Exec Unit) :
    Executing (Function.update s.pc a (.exec ids todo (r₁ ++ (mid ++ r₂)))) j q ↔
      (j, q) ∈ mid ∨ (j ≠ i ∧ Executing s.pc j q) := by
  have hle := h.running_count_le i
  have hcount : ∀ b x, (i, x) ∈ (s.pc b).running → 0 < (s.pc b).runningIds.count i :=
    fun b x hx => by
      rw [Pc.runningIds_eq]
      exact List.count_pos_iff.mpr (List.mem_map_of_mem (f := Prod.fst) hx)
  -- a second program of `i` would make its count two
  have hrest : ∀ x, (i, x) ∉ r₁ ++ r₂ := fun x hx => by
    have h1 := single_le_total s.pc a fun p => p.runningIds.count i
    have h2 : 0 < ((r₁ ++ r₂).map Prod.fst).count i :=
      List.count_pos_iff.mpr (List.mem_map_of_mem (f := Prod.fst) hx)
    rw [hp] at h1
    change ((r₁ ++ (i, p) :: r₂).map Prod.fst).count i ≤ _ at h1
    rw [List.map_append, List.count_append] at h1 h2
    rw [List.map_cons, List.count_cons_self] at h1
    omega
  have hothers : ∀ b, b ≠ a → ∀ x, (i, x) ∉ (s.pc b).running := fun b hb x hx => by
    have h1 := total_update s.pc a .idle fun p => p.runningIds.count i
    have h2 := single_le_total (Function.update s.pc a .idle) b fun p => p.runningIds.count i
    have h3 := hcount b x hx
    have h4 := hcount a p (by rw [hp]; simp [Pc.running])
    rw [Function.update_of_ne hb] at h2
    change _ + _ = _ + 0 at h1
    omega
  constructor
  · rintro ⟨b, hb⟩
    by_cases hba : b = a
    · subst hba
      rw [Function.update_self] at hb
      simp only [Pc.running, List.mem_append] at hb
      have hex : (j, q) ∈ r₁ ++ r₂ → j ≠ i ∧ Executing s.pc j q := fun hm =>
        ⟨fun hji => hrest q (hji ▸ hm), b, by
          rw [hp]
          simp only [Pc.running, List.mem_append, List.mem_cons] at hm ⊢
          tauto⟩
      rcases hb with hb | hb | hb
      · exact .inr (hex (List.mem_append_left _ hb))
      · exact .inl hb
      · exact .inr (hex (List.mem_append_right _ hb))
    · rw [Function.update_of_ne hba] at hb
      exact .inr ⟨fun hji => hothers b hba q (hji ▸ hb), b, hb⟩
  · rintro (hm | ⟨hji, b, hb⟩)
    · exact ⟨a, by simp [Pc.running, hm]⟩
    · by_cases hba : b = a
      · subst hba
        refine ⟨b, ?_⟩
        rw [hp] at hb
        simp only [Pc.running, List.mem_append, List.mem_cons, Prod.mk.injEq] at hb
        rw [Function.update_self]
        simp only [Pc.running, List.mem_append]
        tauto
      · exact ⟨b, by rwa [Function.update_of_ne hba]⟩

/-- Replacing the program of task `i` in the protocol is an update of the machine. -/
theorem simulates_update (h : RunInv G s) {t : ParState ℕ Loc Word} (hsim : Simulates s t)
    {a : Agent cfg} {ids todo : List ℕ} {i : ℕ} {p : Exec Unit} {r₁ r₂ : List (ℕ × Exec Unit)}
    (hp : s.pc a = .exec ids todo (r₁ ++ (i, p) :: r₂)) (o : Option (Exec Unit)) (j : ℕ)
    (q : Exec Unit) :
    Function.update t.running i o j = some q ↔
      Executing (Function.update s.pc a
        (.exec ids todo (r₁ ++ ((o.toList.map fun x => (i, x)) ++ r₂)))) j q := by
  rw [h.executing_update hp]
  by_cases hji : j = i
  · subst hji
    cases o <;> simp [eq_comm]
  · cases o <;> simp [hji, hsim.running]

/-- **Simulation.**  A step of a worker or block is one of the machine, or none. -/
theorem simulates_step {E : FloatOps} {s' : RtState cfg} (h : RunInv G s)
    (hG : s.graph = some G) {t : ParState ℕ Loc Word} (hsim : Simulates s t) {ts : List ℕ}
    (hst : Step E s (.agent ts) s') :
    ∃ t', (t' = t ∨ ParStep (G.prog E) G.Edge G.order t t') ∧ Simulates s' t' := by
  have hgraph : ∀ {G' : FrozenGraph}, s.graph = some G' → G' = G := fun h' =>
    Option.some.inj (h'.symm.trans hG)
  cases hst with
  | startPoll rr hp _ => exact ⟨t, .inl rfl, hsim.stutter rfl rfl (running_update hp rfl)⟩
  | miss hp => exact ⟨t, .inl rfl, hsim.stutter rfl rfl (running_update hp rfl)⟩
  | endPoll hp => exact ⟨t, .inl rfl, hsim.stutter rfl rfl (running_update hp rfl)⟩
  | pop hp _ _ _ => exact ⟨t, .inl rfl, hsim.stutter rfl rfl (running_update hp rfl)⟩
  | execDone hp => exact ⟨t, .inl rfl, hsim.stutter rfl rfl (running_update hp rfl)⟩
  | mark _ hp => exact ⟨t, .inl rfl, hsim.stutter rfl rfl (running_update hp rfl)⟩
  | markDone _ hp => exact ⟨t, .inl rfl, hsim.stutter rfl rfl (running_update hp rfl)⟩
  | release hp =>
      exact ⟨t, .inl rfl, hsim.stutter rfl rfl (running_update hp (by split_ifs <;> rfl))⟩
  | push _ hp _ _ => exact ⟨t, .inl rfl, hsim.stutter rfl rfl (running_update hp rfl)⟩
  | countDone hp => exact ⟨t, .inl rfl, hsim.stutter rfl rfl (running_update hp rfl)⟩
  | @startTask G' a ids todo i running hG' hp =>
      obtain rfl := hgraph hG'
      -- the task is claimed and not yet started
      have htodo := single_le_total s.pc a fun p => p.todo.count i
      rw [hp] at htodo
      change (i :: todo).count i ≤ _ at htodo
      rw [List.count_cons_self] at htodo
      have h1 := h.started_eq i
      have h2 := h.finished_eq i
      have h3 := List.nodup_iff_count_le_one.mp h.claimed_nodup i
      have hclaimed : i ∈ s.claimed := List.count_pos_iff.mp (by omega)
      have hnone : t.running i = none := by
        refine Option.eq_none_iff_forall_ne_some.mpr fun p hrun => ?_
        obtain ⟨b, hb⟩ := (hsim.running i p).mp hrun
        have h4 := single_le_total s.pc b fun p => p.runningIds.count i
        have h5 : 0 < (s.pc b).runningIds.count i := by
          rw [Pc.runningIds_eq]
          exact List.count_pos_iff.mpr (List.mem_map_of_mem (f := Prod.fst) hb)
        omega
      have hfin : i ∉ t.fin := by
        rw [hsim.fin, ← List.count_eq_zero]
        omega
      refine ⟨_, .inr (.start (G'.mem_order.mpr (h.claimed_lt hclaimed)) hnone hfin fun p hpe => ?_),
        hsim.mem, hsim.fin, fun j q => ?_⟩
      · rw [hsim.fin]
        exact h.finished_of_enq (h.mem_enq_of_claimed hclaimed) hpe
      · simp only [RtState.setPc]
        constructor
        · intro hj
          by_cases hji : j = i
          · subst hji
            obtain rfl : G'.prog E j = q := by simpa using hj
            exact ⟨a, by simp [Pc.running]⟩
          · rw [Function.update_of_ne hji, hsim.running] at hj
            obtain ⟨b, hb⟩ := hj
            by_cases hba : b = a
            · subst hba
              rw [hp] at hb
              exact ⟨b, by rw [Function.update_self]; exact List.mem_append_left _ hb⟩
            · exact ⟨b, by rwa [Function.update_of_ne hba]⟩
        · rintro ⟨b, hb⟩
          have hold : Executing s.pc j q →
              Function.update t.running i (some (G'.prog E i)) j = some q := fun hex => by
            have hrun := (hsim.running j q).mpr hex
            have hji : j ≠ i := fun he => by rw [he, hnone] at hrun; cases hrun
            rw [Function.update_of_ne hji, hrun]
          by_cases hba : b = a
          · subst hba
            rw [Function.update_self] at hb
            rcases List.mem_append.mp hb with hb | hb
            · exact hold ⟨b, by rw [hp]; exact hb⟩
            · obtain ⟨rfl, rfl⟩ : j = i ∧ q = G'.prog E i := by simpa using hb
              simp
          · rw [Function.update_of_ne hba] at hb
            exact hold ⟨b, hb⟩
  | @read a ids todo i l k r₁ r₂ hp =>
      have hrun := (hsim.running i (.read l k)).mpr ⟨a, by rw [hp]; simp [Pc.running]⟩
      refine ⟨_, .inr (.read hrun), hsim.mem, hsim.fin, fun j q => ?_⟩
      rw [hsim.mem]
      exact h.simulates_update hsim hp (some (k (s.mem l))) j q
  | @write a ids todo i l v k r₁ r₂ hp =>
      have hrun := (hsim.running i (.write l v k)).mpr ⟨a, by rw [hp]; simp [Pc.running]⟩
      refine ⟨_, .inr (.write hrun), ?_, hsim.fin, fun j q =>
        h.simulates_update hsim hp (some k) j q⟩
      simp only [hsim.mem]
      rfl
  | @finishTask a ids todo i r₁ r₂ hp =>
      have hrun := (hsim.running i (.pure ())).mpr ⟨a, by rw [hp]; simp [Pc.running]⟩
      refine ⟨_, .inr (.finish hrun), hsim.mem, ?_, fun j q =>
        h.simulates_update hsim hp none j q⟩
      simp only [hsim.fin]
      rfl

end RunInv

/-- In every state of a run the parallel machine has a state that it simulates. -/
theorem Reach.simulates {E : FloatOps} {s : RtState cfg} (hs : Reach E s) {G : FrozenGraph}
    (hG : s.graph = some G) (ho : s.host ≠ .outside) :
    ∃ t, ParReach (G.prog E) G.Edge G.order s.mem0 t ∧ Simulates s t := by
  induction hs with
  | init => cases hG
  | @step s s' l hs hst ih =>
      cases l with
      | begin =>
          cases hst with
          | begin G' dep hout =>
              obtain rfl := Option.some.inj hG
              have hq := hs.inv.quiet_outside hout
              refine ⟨_, .init, rfl, rfl, fun i p => ?_⟩
              simp [Executing, (hq.parties _).running_eq]
      | host ts =>
          cases hst with
          | hostWrite m hout => exact absurd hout ho
          | reset _ hr _ =>
              obtain ⟨t, ht, hsim⟩ := ih hG (by simp [hr])
              exact ⟨t, ht, hsim.stutter rfl rfl fun _ => rfl⟩
          | activate _ hr _ =>
              obtain ⟨t, ht, hsim⟩ := ih hG (by simp [hr])
              exact ⟨t, ht, hsim.stutter rfl rfl fun _ => rfl⟩
          | skipTask _ hp _ _ =>
              obtain ⟨t, ht, hsim⟩ := ih hG (by simp [hp])
              exact ⟨t, ht, hsim.stutter rfl rfl fun _ => rfl⟩
          | foundRoot _ hp _ _ =>
              obtain ⟨t, ht, hsim⟩ := ih hG (by simp [hp])
              exact ⟨t, ht, hsim.stutter rfl rfl fun _ => rfl⟩
          | pushRoot _ hp _ _ =>
              obtain ⟨t, ht, hsim⟩ := ih hG (by simp [hp])
              exact ⟨t, ht, hsim.stutter rfl rfl fun _ => rfl⟩
          | published _ hp _ =>
              obtain ⟨t, ht, hsim⟩ := ih hG (by simp [hp])
              exact ⟨t, ht, hsim.stutter rfl rfl fun _ => rfl⟩
          | finishRun => exact absurd rfl ho
      | agent ts =>
          have hinv := hs.inv
          cases hinv with
          | fresh hg _ _ hq _ =>
              obtain ⟨-, pc, rfl, -⟩ := hq.agent_step hst
              rw [hg] at hG
              cases hG
          | resetting _ i hg hr _ _ hq _ _ _ =>
              obtain ⟨-, pc, rfl, hpc⟩ := hq.agent_step hst
              obtain ⟨t, ht, hsim⟩ := ih hG (by simp [hr])
              exact ⟨t, ht, hsim.stutter rfl rfl fun a => by
                rw [(hpc a).running_eq, (hq.parties a).running_eq]⟩
          | running G' hg hh hdone hrun =>
              obtain ⟨-, hg', hh'⟩ := hrun.agent_step hg hst
              obtain rfl := Option.some.inj (hg.symm.trans (hg'.symm.trans hG))
              obtain ⟨t, ht, hsim⟩ := ih hg (hh' ▸ ho)
              obtain ⟨t', hstep, hsim'⟩ := hrun.simulates_step hg hsim hst
              have hm0 : s'.mem0 = s.mem0 := by cases hst <;> rfl
              refine ⟨t', ?_, hsim'⟩
              rw [hm0]
              rcases hstep with rfl | hstep
              · exact ht
              · exact ht.step hstep

/-! ## The refinement theorem -/

/-- Tasks that conflict where the serial executor runs them are connected by a path. -/
def ConflictsOrdered (E : FloatOps) (G : FrozenGraph) (m : Loc → Word) : Prop :=
  ∀ i < G.n, ∀ j < G.n, i ≠ j →
    (footprintAlong (G.prog E) G.order m i).Conflict (footprintAlong (G.prog E) G.order m j) →
    Relation.TransGen G.Edge i j ∨ Relation.TransGen G.Edge j i

/-- **Every schedule computes the serial result.**  The memory when `run` returns is the
one `runSerial` leaves from the memory the run began with; and `runSerial` executes every
task once, each after all its producers, and stops with nothing left to do. -/
theorem run_eq_runSerial (E : FloatOps) {s : RtState cfg} (hs : Reach E s) {G : FrozenGraph}
    (hw : WaitCond G s) (hwait : s.host = .wait) (hc : ConflictsOrdered E G s.mem0) :
    s.mem = (runSerial E G s.mem0).1.mem ∧ (runSerial E G s.mem0).2 = [] ∧
      (runSerial E G s.mem0).1.done.Perm (List.range G.n) ∧
      Topo G.Edge (runSerial E G s.mem0).1.done := by
  rw [runSerial_eq]
  refine ⟨?_, rfl, G.order_perm, G.order_topo⟩
  obtain ⟨t, ht, hsim⟩ := hs.simulates hw.1 (by simp [hwait])
  obtain ⟨hq, -, -, hfin⟩ := (hw.runInv hs.inv).complete hw.2.2
  have ho : Ordered (G.prog E) G.Edge G.order s.mem0 (footprintAlong (G.prog E) G.order s.mem0) :=
    ⟨G.order_topo, actsAs_footprintAlong G.order_topo.nodup _, fun i hi j hj hij =>
      hc i (G.mem_order.mp hi) j (G.mem_order.mp hj) hij⟩
  have hidle : ∀ i, t.running i = none := fun i => by
    refine Option.eq_none_iff_forall_ne_some.mpr fun p hp => ?_
    obtain ⟨a, ha⟩ := (hsim.running i p).mp hp
    simp [(hq.parties a).running_eq] at ha
  rw [← hsim.mem]
  exact ht.mem_eq ho hidle (by rw [hsim.fin]; exact hfin.trans G.order_perm.symm)

end

/-- The two tasks of the example are connected, whatever they touch. -/
theorem addThenSignal_ordered (E : FloatOps) (m : Loc → Word) :
    ConflictsOrdered E addThenSignal m := by
  intro i hi j hj hij _
  have h01 : addThenSignal.Edge 0 1 := ⟨by decide, by decide⟩
  have hn : addThenSignal.n = 2 := rfl
  obtain ⟨rfl, rfl⟩ | ⟨rfl, rfl⟩ : (i = 0 ∧ j = 1) ∨ (i = 1 ∧ j = 0) := by omega
  · exact .inl (.single h01)
  · exact .inr (.single h01)

theorem run_eq_runSerial_addThenSignal :
    ∃ s : RtState oneWorker, s.mem = (runSerial default addThenSignal s.mem0).1.mem ∧
      (runSerial default addThenSignal s.mem0).1.done.Perm (List.range 2) := by
  obtain ⟨s, hs, hw, hwait⟩ := addThenSignal_waits default
  obtain ⟨hmem, -, hperm, -⟩ :=
    run_eq_runSerial default hs hw hwait (addThenSignal_ordered default s.mem0)
  exact ⟨s, hmem, hperm⟩

end FastLlm
