import FastLlm.Lib.Fairness
import FastLlm.Runtime.QueueRoom

/-!
# Every run returns

A step that is not part of a polling round uses up work: of the host's loops, of the tasks
nobody has claimed, or of a batch in progress.  So in every schedule a run makes boundedly
many such steps.  Once no more are made, a party in the middle of a batch would have one to
make, and so would the host unless it waits; and a queue that still held a task would be
looked into again and again.

## Main definitions

* `RtState.work` — what a run has still to do.
* `FairRun` — no party is passed over forever, and no queue is missed forever.
* `run_returns` — the liveness theorem.
-/

namespace FastLlm
open MemProg (depth)

instance : Finite Word := Finite.of_injective UInt32.toFin fun _ _ => UInt32.toFin_inj.mp

section Work
variable {cfg : RtConfig} (E : FloatOps) (G : FrozenGraph)

/-! ## The work of a run -/

/-- Claiming, executing, marking and releasing a task. -/
noncomputable def taskWork (i : ℕ) : ℕ := (G.prog E i).depth + 2 * (G.cons i).length + 7

/-- What a party has to do before it polls again. -/
noncomputable def Pc.work {b : ℕ} : Pc b → ℕ
  | exec ids todo running =>
    (todo.map fun i => (G.prog E i).depth + 2).sum + (running.map fun e => e.2.depth + 1).sum +
      (ids.length + 2 * (ids.flatMap G.cons).length + 3)
  | mark ids todo => todo.length + 2 * (ids.flatMap G.cons).length + 2
  | release _ rel => 2 * rel.length + 1
  | push _ _ rel => 2 * rel.length + 2
  | _ => 0

/-- What the host has to do before it returns. -/
def HostPc.work (n : ℕ) : HostPc → ℕ
  | outside => 0
  | reset i => (n - i) + 2 * n + 3
  | publish i => 2 * (n - i) + 2
  | pushRoot i => 2 * (n - i) + 1
  | wait => 1

/-- The work of the tasks nobody has claimed. -/
noncomputable def unclaimed (claimed : List ℕ) : ℕ :=
  ∑ i ∈ (Finset.range G.n).filter (· ∉ claimed), taskWork E G i

/-- What a run has still to do. -/
noncomputable def RtState.work (s : RtState cfg) : ℕ :=
  s.host.work G.n + unclaimed E G s.claimed + total s.pc (Pc.work E G)

/-- A step of a polling round. -/
inductive PollStep (a : Agent cfg) : Pc cfg.gpuBlocks → Pc cfg.gpuBlocks → Prop
  | start (rr : ℕ) : PollStep a .idle (.poll (a.polls rr))
  | miss (q : Qid cfg.gpuBlocks) (qs : List (Qid cfg.gpuBlocks)) :
      PollStep a (.poll (q :: qs)) (.poll qs)
  | stop : PollStep a (.poll []) .idle

/-- A party without a batch goes on polling. -/
def PollMove (s t : RtState cfg) : Prop :=
  ∃ a p, PollStep a (s.pc a) p ∧ t = s.setPc a p

variable {E G}

theorem PollStep.idle_left {a : Agent cfg} {p p' : Pc cfg.gpuBlocks} (h : PollStep a p p') :
    p.Idle := by
  cases h <;> trivial

theorem PollStep.idle_right {a : Agent cfg} {p p' : Pc cfg.gpuBlocks} (h : PollStep a p p') :
    p'.Idle := by
  cases h <;> trivial

theorem Pc.Idle.work_eq {b : ℕ} {p : Pc b} (h : p.Idle) : p.work E G = 0 := by
  cases p <;> first | rfl | exact h.elim

theorem length_bumpCount_le (rel : List (ℕ × ℕ)) (c : ℕ) :
    (bumpCount rel c).length ≤ rel.length + 1 := by
  induction rel with
  | nil => simp [bumpCount]
  | cons e rel ih =>
    obtain ⟨d, k⟩ := e
    simp only [bumpCount]
    split_ifs <;> simp [ih]

/-- A batch is released in at most as many steps as it has edges. -/
theorem length_releases_le (a : Agent cfg) (cs : List ℕ) : (a.releases cs).length ≤ cs.length := by
  cases a with
  | inl _ => simp [Agent.releases]
  | inr _ =>
    suffices H : ∀ rel, (cs.foldl bumpCount rel).length ≤ rel.length + cs.length by
      simpa [Agent.releases, coalesce] using H []
    induction cs with
    | nil => simp
    | cons c cs ih =>
      intro rel
      have h1 := ih (bumpCount rel c)
      have h2 := length_bumpCount_le rel c
      simp only [List.foldl_cons, List.length_cons]
      omega

/-- A claim takes the claimed tasks out of the unclaimed ones. -/
theorem unclaimed_append {claimed ids : List ℕ} (hnodup : (claimed ++ ids).Nodup)
    (hlt : ∀ i ∈ ids, i < G.n) :
    unclaimed E G (claimed ++ ids) + (ids.map (taskWork E G)).sum = unclaimed E G claimed := by
  obtain ⟨-, hids, hdisj⟩ := List.nodup_append.mp hnodup
  have hsplit : (Finset.range G.n).filter (· ∉ claimed) =
      (Finset.range G.n).filter (· ∉ claimed ++ ids) ∪ ids.toFinset := by
    ext i
    have hi : i ∈ ids → i < G.n ∧ i ∉ claimed := fun hi =>
      ⟨hlt i hi, fun hc => hdisj i hc i hi rfl⟩
    simp only [Finset.mem_filter, Finset.mem_range, Finset.mem_union, List.mem_toFinset,
      List.mem_append, not_or]
    tauto
  have hapart : Disjoint ((Finset.range G.n).filter (· ∉ claimed ++ ids)) ids.toFinset := by
    rw [Finset.disjoint_left]
    intro i hi hmem
    rw [Finset.mem_filter] at hi
    exact hi.2 (List.mem_append_right _ (List.mem_toFinset.mp hmem))
  rw [unclaimed, unclaimed, hsplit, Finset.sum_union hapart,
    List.sum_toFinset (taskWork E G) hids]

/-- A batch is less work than claiming it was. -/
theorem work_exec_lt {b : ℕ} {ids : List ℕ} (hne : ids ≠ []) :
    (Pc.exec ids ids [] : Pc b).work E G < (ids.map (taskWork E G)).sum := by
  have hsum : ∀ l : List ℕ, (l.map (taskWork E G)).sum =
      (l.map fun i => (G.prog E i).depth + 2).sum + 2 * (l.flatMap G.cons).length +
        5 * l.length := by
    intro l
    induction l with
    | nil => rfl
    | cons i l ih =>
      simp only [List.map_cons, List.sum_cons, List.flatMap_cons, List.length_append,
        List.length_cons, ih, taskWork]
      omega
  have hpos := List.length_pos_iff.mpr hne
  rw [hsum]
  simp only [Pc.work, List.map_nil, List.sum_nil]
  omega

end Work

section Steps
variable {cfg : RtConfig} {E : FloatOps} {G : FrozenGraph} {s t : RtState cfg}

@[simp] theorem pc_setPc_self (s : RtState cfg) (a : Agent cfg) (p : Pc cfg.gpuBlocks) :
    (s.setPc a p).pc a = p :=
  Function.update_self ..

@[simp] theorem setPc_setPc (s : RtState cfg) (a : Agent cfg) (p p' : Pc cfg.gpuBlocks) :
    (s.setPc a p).setPc a p' = s.setPc a p' := by
  simp [RtState.setPc]

/-- The work of a party that goes from `p` to a place with less of it. -/
theorem total_work_lt {a : Agent cfg} {p p' : Pc cfg.gpuBlocks} (hp : s.pc a = p)
    (hlt : p'.work E G < p.work E G) :
    total (Function.update s.pc a p') (Pc.work E G) < total s.pc (Pc.work E G) := by
  have h := total_update s.pc a p' (Pc.work E G)
  rw [hp] at h
  omega

/-- One of the programs of a batch makes an access. -/
theorem work_exec_step {b : ℕ} {ids todo : List ℕ} {i : ℕ} {p p' : Exec Unit}
    {l r : List (ℕ × Exec Unit)} (h : p'.depth < p.depth) :
    (Pc.exec ids todo (l ++ (i, p') :: r) : Pc b).work E G <
      (Pc.exec ids todo (l ++ (i, p) :: r) : Pc b).work E G := by
  simp only [Pc.work, List.map_append, List.map_cons, List.sum_append, List.sum_cons]
  omega

/-- A step of a worker or a block is part of a polling round, or it uses up work. -/
theorem agent_work_lt (hs : Reach E s) (hG : s.graph = some G) (hin : s.host ≠ .outside)
    {ts : List ℕ} (hst : Step E s (.agent ts) t) :
    PollMove s t ∨ t.work E G < s.work E G := by
  have hgraph {G' : FrozenGraph} (h : s.graph = some G') : G' = G :=
    Option.some.inj (h.symm.trans hG)
  -- a step of one party that neither the host's loops nor the claims see
  have hmove {a : Agent cfg} {p p' : Pc cfg.gpuBlocks} (hp : s.pc a = p)
      (hhost : t.host = s.host) (hcl : t.claimed = s.claimed)
      (hpc : t.pc = Function.update s.pc a p') (hlt : p'.work E G < p.work E G) :
      t.work E G < s.work E G := by
    have := total_work_lt hp hlt
    rw [RtState.work, RtState.work, hhost, hcl, hpc]
    omega
  cases hst with
  | startPoll rr hp _ => exact .inl ⟨_, _, by rw [hp]; exact .start rr, rfl⟩
  | miss hp => exact .inl ⟨_, _, by rw [hp]; exact .miss _ _, rfl⟩
  | endPoll hp => exact .inl ⟨_, _, by rw [hp]; exact .stop, rfl⟩
  | @pop a q qs ids rest hp hq hne hle =>
    right
    have hinv : Inv s := hs.inv
    have hrun : RunInv G s := by
      cases hinv with
      | fresh hg => rw [hg] at hG; cases hG
      | resetting _ _ _ _ _ _ hquiet _ _ _ =>
        rw [hquiet.queues] at hq
        exact absurd (List.nil_eq_append_iff.mp hq).1 hne
      | running G' hG' _ _ hrun =>
        obtain rfl := hgraph hG'
        exact hrun
    have hrun' := (hrun.agent_step hG (.pop (E := E) hp hq hne hle)).1
    have hcl := unclaimed_append (E := E) hrun'.claimed_nodup fun i hi =>
      hrun'.claimed_lt (List.mem_append_right _ hi)
    have hbatch := work_exec_lt (E := E) (G := G) (b := cfg.gpuBlocks) hne
    have htot := total_update s.pc a (.exec ids ids []) (Pc.work E G)
    rw [hp, (show (Pc.poll (q :: qs) : Pc cfg.gpuBlocks).Idle from trivial).work_eq] at htot
    simp only [RtState.work, RtState.setPc] at hcl ⊢
    omega
  | startTask hG' hp =>
    obtain rfl := hgraph hG'
    refine .inr (hmove hp rfl rfl rfl ?_)
    simp only [Pc.work, List.map_cons, List.map_append, List.map_nil, List.sum_cons,
      List.sum_append, List.sum_nil]
    omega
  | read hp => exact .inr (hmove hp rfl rfl rfl (work_exec_step (MemProg.depth_lt_read _ _ _)))
  | write hp => exact .inr (hmove hp rfl rfl rfl (work_exec_step (MemProg.depth_lt_write _ _ _)))
  | finishTask hp =>
    refine .inr (hmove hp rfl rfl rfl ?_)
    simp only [Pc.work, List.map_append, List.map_cons, List.sum_append, List.sum_cons]
    omega
  | execDone hp =>
    refine .inr (hmove hp rfl rfl rfl ?_)
    simp only [Pc.work, List.map_nil, List.sum_nil]
    omega
  | mark _ hp =>
    refine .inr (hmove hp rfl rfl rfl ?_)
    simp only [Pc.work, List.length_cons]
    omega
  | @markDone G' a _ hG' hp =>
    obtain rfl := hgraph hG'
    refine .inr (hmove hp rfl rfl rfl ?_)
    have := length_releases_le a (ts.flatMap G'.cons)
    simp only [Pc.work, List.length_nil]
    omega
  | @release a ids c k rel hp =>
    refine .inr (hmove hp rfl rfl rfl ?_)
    split_ifs <;> simp only [Pc.work, List.length_cons] <;> omega
  | push _ hp _ _ =>
    refine .inr (hmove hp rfl rfl rfl ?_)
    simp only [Pc.work]
    omega
  | countDone hp =>
    refine .inr (hmove hp rfl rfl rfl ?_)
    simp only [Pc.work, List.length_nil]
    omega

/-- Every step of the host inside a run uses up work. -/
theorem host_work_lt (hs : Reach E s) (hG : s.graph = some G) (hin : s.host ≠ .outside) {ts : List ℕ}
    (hst : Step E s (.host ts) t) : t.work E G < s.work E G := by
  have hgraph {G' : FrozenGraph} (h : s.graph = some G') : G' = G :=
    Option.some.inj (h.symm.trans hG)
  have hmove (hpc : t.pc = s.pc) (hcl : t.claimed = s.claimed)
      (hlt : t.host.work G.n < s.host.work G.n) : t.work E G < s.work E G := by
    rw [RtState.work, RtState.work, hpc, hcl]
    omega
  cases hst with
  | hostWrite _ ho => exact absurd ho hin
  | reset hG' hr hi =>
    obtain rfl := hgraph hG'
    refine hmove rfl rfl ?_
    rw [hr]
    simp only [HostPc.work]
    omega
  | activate hG' hr hi =>
    obtain rfl := hgraph hG'
    refine hmove rfl rfl ?_
    rw [hr]
    simp only [HostPc.work]
    omega
  | skipTask hG' hr hi _ =>
    obtain rfl := hgraph hG'
    refine hmove rfl rfl ?_
    rw [hr]
    simp only [HostPc.work]
    omega
  | foundRoot hG' hr hi _ =>
    obtain rfl := hgraph hG'
    refine hmove rfl rfl ?_
    rw [hr]
    simp only [HostPc.work]
    omega
  | @pushRoot G' i q hG' hr _ _ =>
    obtain rfl := hgraph hG'
    have hi := ((hs.inv.running_of hG (by simp [hr]) (by simp [hr])).root i hr).1
    refine hmove rfl rfl ?_
    rw [hr]
    simp only [HostPc.work]
    omega
  | published hG' hr hi =>
    obtain rfl := hgraph hG'
    refine hmove rfl rfl ?_
    rw [hr]
    simp only [HostPc.work]
    omega
  | finishRun _ hw _ _ =>
    refine hmove rfl rfl ?_
    rw [hw]
    simp only [HostPc.work]
    omega

/-- A step inside a run is part of a polling round, or it uses up work. -/
theorem step_work_lt (hs : Reach E s) (hG : s.graph = some G) (hin : s.host ≠ .outside)
    {l : Label} (hst : Step E s l t) : PollMove s t ∨ t.work E G < s.work E G := by
  cases l with
  | begin =>
    cases hst with
    | begin _ _ ho => exact absurd ho hin
  | host ts => exact .inr (host_work_lt hs hG hin hst)
  | agent ts => exact agent_work_lt hs hG hin hst

/-! ## Nobody is stuck -/

/-- A step of party `a`. -/
def Moves (E : FloatOps) (a : Agent cfg) (s t : RtState cfg) : Prop :=
  (∃ ts, Step E s (.agent ts) t) ∧ t.pc a ≠ s.pc a

/-- A step of the host inside a run. -/
def HostMoves (E : FloatOps) (s t : RtState cfg) : Prop :=
  (∃ ts, Step E s (.host ts) t) ∧ t.host ≠ s.host

theorem exists_moves {u : RtState cfg} {a : Agent cfg} {p : Pc cfg.gpuBlocks} {ts : List ℕ}
    (hst : Step E s (.agent ts) (u.setPc a p)) (hne : p ≠ s.pc a) :
    ∃ t, Moves E a s t := by
  refine ⟨_, ⟨ts, hst⟩, ?_⟩
  rwa [pc_setPc_self]

/-- A party with a batch always has a step to make. -/
theorem exists_moves_of_held (hs : Reach E s) (hG : s.graph = some G) (hfit : FitsQueues cfg G)
    {a : Agent cfg} (hbusy : ¬ (s.pc a).Idle) : ∃ t, Moves E a s t := by
  cases hp : s.pc a with
  | idle => exact absurd trivial (by rwa [hp] at hbusy)
  | poll qs => exact absurd trivial (by rwa [hp] at hbusy)
  | exec ids todo running =>
    cases todo with
    | cons i todo =>
      exact exists_moves (.startTask hG hp) (by rw [hp]; simp)
    | nil =>
      cases running with
      | nil => exact exists_moves (.execDone hp) (by rw [hp]; simp)
      | cons e running =>
        obtain ⟨i, p⟩ := e
        have hne {q : Exec Unit} (hlt : q.depth < p.depth) :
            (.exec ids [] ([] ++ (i, q) :: running) : Pc cfg.gpuBlocks) ≠ s.pc a := by
          rw [hp]
          rintro h
          cases h
          exact lt_irrefl _ hlt
        have hp' : s.pc a = .exec ids [] ([] ++ (i, p) :: running) := hp
        cases p with
        | pure _ => exact exists_moves (.finishTask hp') (by rw [hp]; simp)
        | read l k => exact exists_moves (.read hp') (hne (MemProg.depth_lt_read _ _ _))
        | write l v k => exact exists_moves (.write hp') (hne (MemProg.depth_lt_write _ _ _))
  | mark ids todo =>
    cases todo with
    | nil => exact exists_moves (.markDone hG hp) (by rw [hp]; simp)
    | cons i todo => exact exists_moves (.mark hG hp) (by rw [hp]; simp)
  | release ids rel =>
    cases rel with
    | nil => exact exists_moves (.countDone hp) (by rw [hp]; simp)
    | cons e rel =>
      obtain ⟨c, k⟩ := e
      refine exists_moves (.release hp) ?_
      rw [hp]
      split_ifs <;> simp
  | push ids c rel =>
    have hroom := (push_never_waits hs hG hfit).1 a
    refine exists_moves (.push hG hp rfl (Nat.lt_of_not_le fun hfull => hroom ?_)) (by rw [hp]; simp)
    exact ⟨ids, c, rel, hp, hfull⟩

/-- The host always has a step to make, unless it waits. -/
theorem exists_hostMoves (hs : Reach E s) (hG : s.graph = some G) (hfit : FitsQueues cfg G)
    (hin : s.host ≠ .outside) (hwait : s.host ≠ .wait) : ∃ t, HostMoves E s t := by
  cases hh : s.host with
  | outside => exact absurd hh hin
  | wait => exact absurd hh hwait
  | reset i =>
    by_cases hi : i < G.n
    · exact ⟨_, ⟨_, .reset hG hh hi⟩, by rw [hh]; simp⟩
    · exact ⟨_, ⟨_, .activate hG hh (Nat.le_of_not_lt hi)⟩, by rw [hh]; simp⟩
  | publish i =>
    by_cases hi : i < G.n
    · by_cases hdep : G.depInit i = 0
      · exact ⟨_, ⟨_, .foundRoot hG hh hi hdep⟩, by rw [hh]; simp⟩
      · exact ⟨_, ⟨_, .skipTask hG hh hi hdep⟩, by rw [hh]; simp⟩
    · exact ⟨_, ⟨_, .published hG hh (Nat.le_of_not_lt hi)⟩, by rw [hh]; simp⟩
  | pushRoot i =>
    have hroom := (push_never_waits hs hG hfit).2
    refine ⟨_, ⟨_, .pushRoot hG hh rfl (Nat.lt_of_not_le fun hfull => hroom ?_)⟩, by rw [hh]; simp⟩
    exact ⟨i, hh, hfull⟩

/-- A party that polls can go on with its round, and begin a new one while a run is active. -/
theorem exists_moves_of_idle {a : Agent cfg} (hidle : (s.pc a).Idle) (hact : s.active = true) :
    ∃ t, Moves E a s t := by
  cases hp : s.pc a with
  | idle =>
    refine exists_moves (.startPoll 0 hp fun _ => hact) (by rw [hp]; simp)
  | poll qs =>
    cases qs with
    | nil => exact exists_moves (.endPoll hp) (by rw [hp]; simp)
    | cons q qs => exact exists_moves (.miss hp) (by rw [hp]; simp)
  | _ => rw [hp] at hidle; exact hidle.elim

/-- While the host publishes or waits, the workers are told to poll. -/
theorem Reach.active (hs : Reach E s) : (s.host ≠ .outside ∧ ∀ i, s.host ≠ .reset i) →
    s.active = true := by
  induction hs with
  | init m dep => exact fun h => absurd rfl h.1
  | @step s t l hs hst ih =>
    rintro ⟨hout, hres⟩
    cases hst with
    | activate => rfl
    | hostWrite _ ho => exact absurd ho hout
    | begin => exact absurd rfl (hres 0)
    | reset => exact absurd rfl (hres _)
    | finishRun => exact absurd rfl hout
    | skipTask _ hp | foundRoot _ hp | pushRoot _ hp | published _ hp =>
      exact ih (by rw [hp]; simp)
    | _ => exact ih ⟨hout, hres⟩

end Steps

/-! ## Polling rounds -/

section Rounds
variable {cfg : RtConfig} {a : Agent cfg} {f : ℕ → Pc cfg.gpuBlocks} {N : ℕ}

/-- The steps of a round that are still to come. -/
def Pc.roundLeft {b : ℕ} : Pc b → ℕ
  | poll qs => qs.length + 1
  | _ => 0

/-- A party that goes on polling ends every round. -/
theorem exists_idle (hstep : ∀ m ≥ N, f (m + 1) = f m ∨ PollStep a (f m) (f (m + 1)))
    (hmove : ∀ m ≥ N, ∃ k ≥ m, f (k + 1) ≠ f k) {m : ℕ} (hm : N ≤ m) : ∃ k ≥ m, f k = .idle := by
  by_contra hcon
  push Not at hcon
  -- a step from anywhere but `idle` shortens the round
  have hlt : ∀ k ≥ m, f (k + 1) ≠ f k → (f (k + 1)).roundLeft < (f k).roundLeft := by
    intro k hk hne
    have hst := (hstep k (hm.trans hk)).resolve_left hne
    have hbusy := hcon k hk
    revert hst hbusy
    generalize f (k + 1) = p'
    generalize f k = p
    rintro (⟨rr⟩ | ⟨q, qs⟩ | _) hbusy
    · exact absurd rfl hbusy
    · exact Nat.lt_succ_self _
    · exact Nat.one_pos
  obtain ⟨M, hM, hstill⟩ := exists_still (f := fun k => (f k).roundLeft) fun k hk => by
    by_cases heq : f (k + 1) = f k
    · exact (congrArg Pc.roundLeft heq).le
    · exact (hlt k hk heq).le
  obtain ⟨k, hk, hne⟩ := hmove M (hm.trans hM)
  have h1 := hstill k hk
  have h2 := hstill (k + 1) (by omega)
  exact absurd (hlt k (hM.trans hk) hne) (by omega)

/-- Until the party comes to a queue, the queue stays ahead in the round. -/
theorem PollStep.ahead {p p' : Pc cfg.gpuBlocks} (h : PollStep a p p') {q : Qid cfg.gpuBlocks}
    (hq : ∀ rr, q ∈ a.polls rr) (hp : p = .idle ∨ ∃ qs, p = .poll qs ∧ q ∈ qs)
    (hnot : ∀ qs, p ≠ .poll (q :: qs)) : ∃ qs, p' = .poll qs ∧ q ∈ qs := by
  cases h with
  | start rr => exact ⟨_, rfl, hq rr⟩
  | miss q' qs =>
    obtain hp | ⟨qs', hp, hmem⟩ := hp
    · cases hp
    · cases hp
      refine ⟨qs, rfl, (List.mem_cons.mp hmem).resolve_left ?_⟩
      rintro rfl
      exact hnot qs rfl
  | stop =>
    obtain hp | ⟨qs', hp, hmem⟩ := hp
    · cases hp
    · cases hp
      cases hmem

/-- A party that goes on polling comes to every queue that each of its rounds visits. -/
theorem exists_visit (hstep : ∀ m ≥ N, f (m + 1) = f m ∨ PollStep a (f m) (f (m + 1)))
    (hmove : ∀ m ≥ N, ∃ k ≥ m, f (k + 1) ≠ f k) {q : Qid cfg.gpuBlocks}
    (hq : ∀ rr, q ∈ a.polls rr) {m : ℕ} (hm : N ≤ m) : ∃ k ≥ m, ∃ qs, f k = .poll (q :: qs) := by
  by_contra hcon
  push Not at hcon
  obtain ⟨i, hi, hidle⟩ := exists_idle hstep hmove hm
  have hahead : ∀ k ≥ i, f k = .idle ∨ ∃ qs, f k = .poll qs ∧ q ∈ qs := by
    intro k hk
    induction k, hk using Nat.le_induction with
    | base => exact .inl hidle
    | succ k hk ih =>
      rcases hstep k (by omega) with heq | hst
      · rwa [heq]
      · exact .inr (hst.ahead hq ih (hcon k (by omega)))
  -- so the round that begins next never ends
  obtain ⟨k, hk, hne⟩ := hmove i (by omega)
  have hforever : ∀ j ≥ k + 1, ∃ qs, f j = .poll qs ∧ q ∈ qs := by
    intro j hj
    induction j, hj using Nat.le_induction with
    | base =>
      have hst := (hstep k (by omega)).resolve_left hne
      exact hst.ahead hq (hahead k hk) (hcon k (by omega))
    | succ j hj ih =>
      rcases hstep j (by omega) with heq | hst
      · rwa [heq]
      · exact hst.ahead hq (.inr ih) (hcon j (by omega))
  obtain ⟨j, hj, hjidle⟩ := exists_idle hstep hmove (m := k + 1) (by omega)
  obtain ⟨qs, heq, -⟩ := hforever j hj
  rw [hjidle] at heq
  cases heq

end Rounds

/-! ## Fair runs -/

section Fair
variable {cfg : RtConfig} {E : FloatOps}

/-- A run of the system in which no party is passed over forever, and in which a queue that
nobody touches any more does not look empty forever to a party that keeps looking into it. -/
structure FairRun (E : FloatOps) (σ : ℕ → RtState cfg) : Prop where
  steps : ∀ n, σ (n + 1) = σ n ∨ ∃ l, Step E (σ n) l (σ (n + 1))
  parties : ∀ a, WeakFair (Moves E a) σ
  host : WeakFair (HostMoves E) σ
  queues : ∀ a q n, (∀ m ≥ n, (σ m).q q = (σ n).q q) → (σ n).q q ≠ [] →
    ∃ N, ∀ m ≥ N, ∀ qs, (σ m).pc a ≠ .poll (q :: qs)

/-- Nothing but polling has happened between `s` and `t`. -/
structure OnlyPolled (s t : RtState cfg) : Prop where
  rest : t = { s with pc := t.pc }
  idle : ∀ a, (s.pc a).Idle → (t.pc a).Idle
  busy : ∀ a, ¬ (s.pc a).Idle → t.pc a = s.pc a

theorem OnlyPolled.refl (s : RtState cfg) : OnlyPolled s s := ⟨rfl, fun _ h => h, fun _ _ => rfl⟩

theorem OnlyPolled.move {s t u : RtState cfg} (h : OnlyPolled s t) (hm : PollMove t u) :
    OnlyPolled s u := by
  obtain ⟨a, p, hst, rfl⟩ := hm
  refine ⟨by rw [h.rest]; rfl, fun b hb => ?_, fun b hb => ?_⟩
  · show (Function.update t.pc a p b).Idle
    by_cases hba : b = a
    · rw [hba, Function.update_self]
      exact hst.idle_right
    · rw [Function.update_of_ne hba]
      exact h.idle b hb
  · show Function.update t.pc a p b = s.pc b
    have hba : b ≠ a := by
      rintro rfl
      rw [← h.busy b hb] at hb
      exact hb hst.idle_left
    rw [Function.update_of_ne hba]
    exact h.busy b hb

namespace FairRun
variable {σ : ℕ → RtState cfg}

theorem reach (h : FairRun E σ) (h0 : Reach E (σ 0)) (n : ℕ) : Reach E (σ n) := by
  induction n with
  | zero => exact h0
  | succ n ih =>
    rcases h.steps n with heq | ⟨l, hst⟩
    · rwa [heq]
    · exact ih.step hst

/-- Inside a run the graph stays. -/
theorem graph_eq (h : FairRun E σ) {n : ℕ} (hin : ∀ m ≥ n, (σ m).host ≠ .outside) :
    ∀ m ≥ n, (σ m).graph = (σ n).graph := by
  intro m hm
  induction m, hm using Nat.le_induction with
  | base => rfl
  | succ m hm ih =>
    rcases h.steps m with heq | ⟨l, hst⟩
    · rwa [heq]
    · have hout := hin m hm
      rw [← ih]
      generalize σ (m + 1) = t at hst
      cases hst with
      | begin _ _ ho => exact absurd ho hout
      | _ => rfl

/-- **Work runs out.**  A run that does not return ends in nothing but polling. -/
theorem exists_onlyPolled (h : FairRun E σ) (h0 : Reach E (σ 0)) {G : FrozenGraph} {n : ℕ}
    (hin : ∀ m ≥ n, (σ m).host ≠ .outside) (hG : ∀ m ≥ n, (σ m).graph = some G) :
    ∃ N ≥ n, (∀ m ≥ N, OnlyPolled (σ N) (σ m)) ∧
      ∀ m ≥ N, ∀ a, (σ (m + 1)).pc a = (σ m).pc a ∨ PollStep a ((σ m).pc a) ((σ (m + 1)).pc a) := by
  have hstep : ∀ m ≥ n, σ (m + 1) = σ m ∨ PollMove (σ m) (σ (m + 1)) ∨
      (σ (m + 1)).work E G < (σ m).work E G := by
    intro m hm
    rcases h.steps m with heq | ⟨l, hst⟩
    · exact .inl heq
    · exact .inr (step_work_lt (h.reach h0 m) (hG m hm) (hin m hm) hst)
  have hpoll {s t : RtState cfg} (hm : PollMove s t) : t.work E G = s.work E G := by
    obtain ⟨a, p, hst, rfl⟩ := hm
    have htot := total_update s.pc a p (Pc.work E G)
    rw [hst.idle_left.work_eq, hst.idle_right.work_eq] at htot
    simp only [RtState.work, RtState.setPc]
    omega
  obtain ⟨N, hN, hstill⟩ := exists_still (f := fun m => (σ m).work E G) (n := n) fun m hm => by
    rcases hstep m hm with heq | hm | hlt
    · exact (congrArg (RtState.work E G) heq).le
    · exact (hpoll hm).le
    · exact hlt.le
  have hmoves : ∀ m ≥ N, σ (m + 1) = σ m ∨ PollMove (σ m) (σ (m + 1)) := by
    intro m hm
    rcases hstep m (hN.trans hm) with heq | hp | hlt
    · exact .inl heq
    · exact .inr hp
    · have h1 := hstill m hm
      have h2 := hstill (m + 1) (by omega)
      exact absurd hlt (by omega)
  refine ⟨N, hN, fun m hm => ?_, fun m hm a => ?_⟩
  · induction m, hm using Nat.le_induction with
    | base => exact .refl _
    | succ m hm ih =>
      rcases hmoves m hm with heq | hp
      · rwa [heq]
      · exact ih.move hp
  · rcases hmoves m hm with heq | ⟨b, p, hst, heq⟩
    · exact .inl (by rw [heq])
    · rw [heq]
      show Function.update (σ m).pc b p a = _ ∨ PollStep a _ (Function.update (σ m).pc b p a)
      by_cases hab : a = b
      · subst hab
        rw [Function.update_self]
        exact .inr hst
      · exact .inl (by rw [Function.update_of_ne hab])

end FairRun

/-- **Every run returns.**  In a fair run of the system over any sequence of graphs whose
independent tasks fit into the queues, every call of `run` returns, unless stealing is off, the
GPU is off and a task wants the GPU. -/
theorem run_returns {σ : ℕ → RtState cfg} (h : FairRun E σ) (h0 : Reach E (σ 0))
    (hc : cfg.Constructed) (hgraphs : ∀ n G, (σ n).graph = some G → FitsQueues cfg G ∧
      (cfg.gpuEnabled = true ∨ cfg.noSteal = false ∨
        ∀ i < G.n, ¬ GpuAffine (G.task i).toTaskParams)) (n : ℕ) :
    ∃ m ≥ n, (σ m).host = .outside := by
  by_contra hcon
  push Not at hcon
  obtain ⟨G, hGn⟩ : ∃ G, (σ n).graph = some G := by
    cases (h.reach h0 n).inv with
    | fresh _ ho => exact absurd ho (hcon n le_rfl)
    | resetting G _ hG => exact ⟨G, hG⟩
    | running G hG => exact ⟨G, hG⟩
  have hG : ∀ m ≥ n, (σ m).graph = some G := fun m hm => (h.graph_eq hcon m hm).trans hGn
  obtain ⟨hfit, hserved⟩ := hgraphs n G hGn
  obtain ⟨N, hN, hpolled, hsteps⟩ := h.exists_onlyPolled h0 hcon hG
  have hreach (m : ℕ) := h.reach h0 m
  have hrest (m : ℕ) (hm : N ≤ m) : σ m = { σ N with pc := (σ m).pc } := (hpolled m hm).rest
  -- nobody has a batch
  have hidle : ∀ a, ((σ N).pc a).Idle := by
    intro a
    by_contra hbusy
    obtain ⟨m, hm, -, hne⟩ := h.parties a N fun m hm => by
      refine exists_moves_of_held (hreach m) (hG m (hN.trans hm)) hfit ?_
      rwa [(hpolled m hm).busy a hbusy]
    exact hne (by rw [(hpolled m hm).busy a hbusy, (hpolled (m + 1) (by omega)).busy a hbusy])
  -- the host waits
  have hwait : (σ N).host = .wait := by
    by_contra hne
    have hhost (m : ℕ) (hm : N ≤ m) : (σ m).host = (σ N).host := by rw [hrest m hm]
    obtain ⟨m, hm, -, hmoved⟩ := h.host N fun m hm =>
      exists_hostMoves (hreach m) (hG m (hN.trans hm)) hfit (hcon m (hN.trans hm))
        (by rwa [hhost m hm])
    exact hmoved (by rw [hhost m hm, hhost (m + 1) (by omega)])
  have hrun : RunInv G (σ N) :=
    (hreach N).inv.running_of (hG N hN) (by simp [hwait]) (by simp [hwait])
  by_cases hempty : ∀ q, (σ N).q q = []
  · -- every task is done, and the host may return
    obtain ⟨hdone, hn⟩ := hrun.no_stall hwait ⟨hempty, hidle⟩
    obtain ⟨m, hm, -, hmoved⟩ := h.host N fun m hm => by
      refine ⟨_, ⟨_, .finishRun (hG m (hN.trans hm)) ?_ ?_ ?_⟩, ?_⟩
      all_goals rw [hrest m hm]
      · exact hwait
      · exact hdone
      · exact hn
      · simp [hwait]
    exact hmoved (by rw [hrest m hm, hrest (m + 1) (by omega)])
  · -- a queue that holds a task is polled for ever
    push Not at hempty
    obtain ⟨q, hq⟩ := hempty
    obtain ⟨i, hi⟩ := List.exists_mem_of_ne_nil _ hq
    have hin : i < G.n := hrun.enq_lt i (hrun.of_mem_queue hi).1
    obtain ⟨a, ha⟩ := (served_dest_iff hc G i).mpr
      (hserved.imp_right (Or.imp_right fun hno => hno i hin))
    rw [(hreach N).routed.queue G (hG N hN) q i hi] at ha
    have hqueue (m : ℕ) (hm : N ≤ m) : (σ m).q q = (σ N).q q := by rw [hrest m hm]
    obtain ⟨M, hM⟩ := h.queues a q N hqueue hq
    have hact (m : ℕ) (hm : N ≤ m) : (σ m).active = true := by
      have := (hreach N).active ⟨by simp [hwait], by simp [hwait]⟩
      rw [hrest m hm]
      exact this
    obtain ⟨k, hk, qs, hpoll⟩ := exists_visit (f := fun m => (σ m).pc a) (N := N)
      (fun m hm => hsteps m hm a)
      (fun m hm => by
        obtain ⟨k, hk, -, hne⟩ := h.parties a m fun k hk =>
          exists_moves_of_idle ((hpolled k (hm.trans hk)).idle a (hidle a))
            (hact k (hm.trans hk))
        exact ⟨k, hk, hne⟩)
      ha (m := max N M) (Nat.le_max_left ..)
    exact hM k ((Nat.le_max_right ..).trans hk) qs hpoll

/-- A step inside one run. -/
def InnerStep (E : FloatOps) (s t : RtState cfg) : Prop := t.graph = s.graph ∧ ∃ l, Step E s l t

/-- A finite run of one graph to a state in which nobody moves, which is then kept, is a fair
run. -/
theorem exists_fairRun {s t : RtState cfg}
    (h : Relation.ReflTransGen (InnerStep E) s t)
    (hparties : ∀ a u, ¬ Moves E a t u) (hhost : ∀ u, ¬ HostMoves E t u)
    (hqueues : ∀ q, t.q q = []) : ∃ σ : ℕ → RtState cfg,
      σ 0 = s ∧ (∀ n, (σ n).graph = s.graph) ∧ FairRun E σ := by
  obtain ⟨σ, N, h0, hN, hgraph, hsteps⟩ : ∃ (σ : ℕ → RtState cfg) (N : ℕ), σ 0 = s ∧
      (∀ n ≥ N, σ n = t) ∧ (∀ n, (σ n).graph = s.graph) ∧
      ∀ n, σ (n + 1) = σ n ∨ ∃ l, Step E (σ n) l (σ (n + 1)) := by
    induction h using Relation.ReflTransGen.head_induction_on with
    | refl => exact ⟨fun _ => t, 0, rfl, fun _ _ => rfl, fun _ => rfl, fun _ => .inl rfl⟩
    | @head s u hst _ ih =>
      obtain ⟨σ, N, h0, hN, hgraph, hsteps⟩ := ih
      refine ⟨fun n => if n = 0 then s else σ (n - 1), N + 1, rfl, fun n hn => ?_, fun n => ?_,
        fun n => ?_⟩
      · show (if n = 0 then s else σ (n - 1)) = t
        rw [if_neg (by omega), hN _ (by omega)]
      · dsimp only
        split_ifs
        · rfl
        · rw [hgraph, hst.1]
      · cases n with
        | zero => exact .inr (by simpa [h0] using hst.2)
        | succ n => simpa using hsteps n
  refine ⟨σ, h0, hgraph, hsteps, fun a n hen => ?_, fun n hen => ?_, fun a q n hq hne => ?_⟩
  · obtain ⟨u, hu⟩ := hen (max n N) (Nat.le_max_left ..)
    rw [hN _ (Nat.le_max_right ..)] at hu
    exact absurd hu (hparties a u)
  · obtain ⟨u, hu⟩ := hen (max n N) (Nat.le_max_left ..)
    rw [hN _ (Nat.le_max_right ..)] at hu
    exact absurd hu (hhost u)
  · have := hq (max n N) (Nat.le_max_left ..)
    rw [hN _ (Nat.le_max_right ..), hqueues q] at this
    exact absurd this.symm hne

/-- Between runs an idle worker has nothing to do. -/
theorem not_moves_of_idle {s t : RtState cfg} {w : Fin cfg.cpuThreads}
    (hidle : s.pc (.inl w) = .idle) (hact : s.active = false) : ¬ Moves E (.inl w) s t := by
  rintro ⟨⟨ts, hst⟩, hne⟩
  -- a step of another party leaves the place of this one
  have hother {b : Agent cfg} {p p' : Pc cfg.gpuBlocks} (hpc : s.pc b = p')
      (ht : t.pc = Function.update s.pc b p) (hp' : p' ≠ .idle) : False := by
    have hb : b ≠ .inl w := by
      rintro rfl
      exact hp' (hpc.symm.trans hidle)
    exact hne (by rw [ht, Function.update_of_ne hb.symm])
  cases hst with
  | @startPoll b rr hp hpoll =>
    by_cases hb : b = .inl w
    · subst hb
      exact absurd (hpoll rfl) (by simp [hact])
    · exact hne (Function.update_of_ne (Ne.symm hb) ..)
  | miss hp => exact hother hp rfl (by simp)
  | endPoll hp => exact hother hp rfl (by simp)
  | pop hp => exact hother hp rfl (by simp)
  | startTask _ hp => exact hother hp rfl (by simp)
  | read hp => exact hother hp rfl (by simp)
  | write hp => exact hother hp rfl (by simp)
  | finishTask hp => exact hother hp rfl (by simp)
  | execDone hp => exact hother hp rfl (by simp)
  | mark _ hp => exact hother hp rfl (by simp)
  | markDone _ hp => exact hother hp rfl (by simp)
  | release hp => exact hother hp rfl (by simp)
  | push _ hp => exact hother hp rfl (by simp)
  | countDone hp => exact hother hp rfl (by simp)

/-- Between runs the host is in no run. -/
theorem not_hostMoves_of_outside {s t : RtState cfg} (hout : s.host = .outside) :
    ¬ HostMoves E s t := by
  rintro ⟨⟨ts, hst⟩, hne⟩
  cases hst with
  | hostWrite => exact hne rfl
  | reset _ hh | activate _ hh | skipTask _ hh | foundRoot _ hh | pushRoot _ hh
    | published _ hh | finishRun _ hh => rw [hout] at hh; cases hh

/-! ### The run of one task -/

/-- From any place of a round a party comes to its end. -/
theorem ends_round {a : Agent cfg} (qs : List (Qid cfg.gpuBlocks)) : ∀ s : RtState cfg,
    s.pc a = .poll qs → Relation.ReflTransGen (InnerStep E) s (s.setPc a .idle) := by
  induction qs with
  | nil => exact fun s hp => .single ⟨rfl, _, .endPoll hp⟩
  | cons q qs ih =>
    intro s hp
    have h := ih (s.setPc a (.poll qs)) (pc_setPc_self ..)
    have hmiss : InnerStep E s (s.setPc a (.poll qs)) := ⟨rfl, _, .miss hp⟩
    rw [setPc_setPc] at h
    exact .head hmiss h

/-- The host of the example sees that the run is over, and the worker ends its round. -/
theorem addThenSignal_rests : ∃ s t : RtState oneWorker, Reach default s ∧
    s.graph = some addThenSignal ∧ s.host = .wait ∧ Relation.ReflTransGen (InnerStep default) s t ∧
    t.host = .outside ∧ t.active = false ∧ t.pc theWorker = .idle ∧ ∀ q, t.q q = [] := by
  obtain ⟨s, hs, hw, hwait⟩ := addThenSignal_waits default
  obtain ⟨hq, -⟩ := (hw.runInv hs.inv).complete hw.2.2
  have hfinish : InnerStep default s { s with active := false, host := .outside } :=
    ⟨rfl, _, .finishRun hw.1 hwait hw.2.1 hw.2.2⟩
  cases hp : s.pc theWorker with
  | idle => exact ⟨s, _, hs, hw.1, hwait, .single hfinish, rfl, rfl, hp, hq.queues⟩
  | poll qs =>
    have hround := ends_round (E := default) qs { s with active := false, host := .outside } hp
    exact ⟨s, _, hs, hw.1, hwait, .head hfinish hround, rfl, rfl, pc_setPc_self .., hq.queues⟩
  | _ =>
    have := hq.parties theWorker
    rw [hp] at this
    exact this.elim

theorem run_returns_addThenSignal : ∃ (σ : ℕ → RtState oneWorker) (m : ℕ),
    (σ 0).graph = some addThenSignal ∧ (σ 0).host = .wait ∧ (σ m).host = .outside := by
  obtain ⟨s, t, hs, hG, hwait, hsteps, hout, hact, hidle, hq⟩ := addThenSignal_rests
  have hworker (a : Agent oneWorker) : ∃ w, a = .inl w ∧ t.pc (.inl w) = .idle := by
    cases a with
    | inl w =>
      have hw : w = ⟨0, oneWorker.cpuThreads_pos⟩ := Fin.ext (Nat.lt_one_iff.mp w.isLt)
      exact ⟨w, rfl, by rwa [hw]⟩
    | inr b => exact absurd b.isLt (Nat.not_lt_zero _)
  obtain ⟨σ, h0, hgraph, hfair⟩ := exists_fairRun hsteps
    (fun a u hu => by
      obtain ⟨w, rfl, hw⟩ := hworker a
      exact not_moves_of_idle hw hact hu)
    (fun u => not_hostMoves_of_outside hout) hq
  have hgraphs (n : ℕ) (G : FrozenGraph) (hn : (σ n).graph = some G) :
      FitsQueues oneWorker G ∧ (oneWorker.gpuEnabled = true ∨ oneWorker.noSteal = false ∨
        ∀ i < G.n, ¬ GpuAffine (G.task i).toTaskParams) := by
    obtain rfl : addThenSignal = G := by
      rw [hgraph, hG] at hn
      exact Option.some.inj hn
    exact ⟨fitsQueues_of_n_le (by decide), .inr (.inl rfl)⟩
  have hc : oneWorker.Constructed := ⟨by simp [oneWorker], by simp [oneWorker]⟩
  obtain ⟨m, -, hm⟩ := run_returns hfair (by rwa [h0]) hc hgraphs 0
  exact ⟨σ, m, by rw [h0, hG], by rw [h0, hwait], hm⟩

end Fair
end FastLlm
