import FastLlm.Runtime.Protocol

/-!
# The counting invariant of a run

Every dependency count equals the edges from tasks not yet claimed plus the
decrements that claimed tasks still owe.  Hence a count reaches zero once, and the
party that brings it there enqueues the task once.  The ids of the log are accounted
for by the queues, by the batches in progress and by `n_done`.

## Main definitions

* `Pc.held`, `Pc.todo`, `Pc.runningIds`, `Pc.unreleased`, `Pc.pending` — what a party
  in the middle of a batch still owes.
* `RunInv` — the invariant, and `RunInv.step`-lemmas for each kind of step.
* `Inv` — the invariant over all phases of the host; `Reach.inv`.
-/

namespace FastLlm

/-! ## What a party owes -/

namespace Pc
variable {b : ℕ}

/-- The batch in progress. -/
def held : Pc b → List ℕ
  | exec ids _ _ | mark ids _ | release ids _ | push ids _ _ => ids
  | _ => []

/-- Claimed but not started. -/
def todo : Pc b → List ℕ
  | exec _ todo _ => todo
  | _ => []

/-- Started but not finished. -/
def runningIds : Pc b → List ℕ
  | exec _ _ running => running.map Prod.fst
  | _ => []

/-- Not yet compared with the terminal task. -/
def unmarked : Pc b → List ℕ
  | exec ids _ _ => ids
  | mark _ todo => todo
  | _ => []

/-- The decrements of `c` in a list of releases. -/
def relCount (rel : List (ℕ × ℕ)) (c : ℕ) : ℕ :=
  (rel.map fun e => if e.1 = c then e.2 else 0).sum

/-- The decrements of `c` still to be made. -/
def unreleased (cons : ℕ → List ℕ) (c : ℕ) : Pc b → ℕ
  | exec ids _ _ | mark ids _ => (ids.flatMap cons).count c
  | release _ rel | push _ _ rel => relCount rel c
  | _ => 0

/-- Ready but not yet enqueued. -/
def pending : Pc b → List ℕ
  | push _ c _ => [c]
  | _ => []

def RelWF (n : ℕ) (rel : List (ℕ × ℕ)) : Prop := ∀ e ∈ rel, 1 ≤ e.2 ∧ e.1 < n

def WF (n : ℕ) : Pc b → Prop
  | exec ids todo running => ids ≠ [] ∧ (∀ i ∈ ids, i < n) ∧ (∀ i ∈ todo, i ∈ ids) ∧
      ∀ i ∈ running.map Prod.fst, i ∈ ids
  | mark ids _ => ids ≠ [] ∧ ∀ i ∈ ids, i < n
  | release ids rel => ids ≠ [] ∧ RelWF n rel
  | push ids c rel => ids ≠ [] ∧ c < n ∧ RelWF n rel
  | _ => True

@[simp] theorem relCount_nil (c : ℕ) : relCount [] c = 0 := rfl

@[simp] theorem relCount_cons (d k c : ℕ) (rel : List (ℕ × ℕ)) :
    relCount ((d, k) :: rel) c = (if d = c then k else 0) + relCount rel c := by
  simp [relCount]

end Pc

/-! ## The two ways of releasing a batch -/

theorem relCount_bump (rel : List (ℕ × ℕ)) (d c : ℕ) :
    Pc.relCount (bumpCount rel d) c = Pc.relCount rel c + if d = c then 1 else 0 := by
  induction rel with
  | nil => simp [bumpCount]
  | cons e rel ih =>
      obtain ⟨x, k⟩ := e
      simp only [bumpCount]
      split_ifs with hx hd hd
      · subst hx; subst hd; simp; omega
      · subst hx; simp [hd]
      · rw [Pc.relCount_cons, Pc.relCount_cons, ih, if_pos hd]; omega
      · rw [Pc.relCount_cons, Pc.relCount_cons, ih, if_neg hd, Nat.add_zero, Nat.add_zero]

theorem relWF_bump {n d : ℕ} {rel : List (ℕ × ℕ)} (h : Pc.RelWF n rel) (hd : d < n) :
    Pc.RelWF n (bumpCount rel d) := by
  induction rel with
  | nil => simpa [bumpCount, Pc.RelWF] using hd
  | cons e rel ih =>
      obtain ⟨x, k⟩ := e
      have hx := h (x, k) (List.mem_cons_self ..)
      have hrel : Pc.RelWF n rel := fun e he => h e (List.mem_cons_of_mem _ he)
      simp only [bumpCount]
      split_ifs
      · intro e he
        rcases List.mem_cons.mp he with rfl | he
        · exact ⟨by omega, hx.2⟩
        · exact hrel e he
      · intro e he
        rcases List.mem_cons.mp he with rfl | he
        · exact hx
        · exact ih hrel e he

/-- A block owes each consumer as many decrements as the batch has edges to it. -/
theorem relCount_coalesce (cs : List ℕ) (c : ℕ) : Pc.relCount (coalesce cs) c = cs.count c := by
  suffices H : ∀ rel, Pc.relCount (cs.foldl bumpCount rel) c = Pc.relCount rel c + cs.count c by
    simpa [coalesce] using H []
  induction cs with
  | nil => simp
  | cons d cs ih =>
      intro rel
      rw [List.foldl_cons, ih, relCount_bump, List.count_cons]
      by_cases h : d = c
      · simp only [h, if_true, beq_self_eq_true]
        omega
      · simp [h]

theorem relWF_coalesce {n : ℕ} {cs : List ℕ} (h : ∀ c ∈ cs, c < n) :
    Pc.RelWF n (coalesce cs) := by
  suffices H : ∀ rel, Pc.RelWF n rel → Pc.RelWF n (cs.foldl bumpCount rel) from
    H [] (by simp [Pc.RelWF])
  induction cs with
  | nil => simp
  | cons d cs ih =>
      intro rel hrel
      exact ih (fun c hc => h c (List.mem_cons_of_mem _ hc)) _
        (relWF_bump hrel (h d (List.mem_cons_self ..)))

theorem relCount_map_one (cs : List ℕ) (c : ℕ) :
    Pc.relCount (cs.map fun c => (c, 1)) c = cs.count c := by
  induction cs with
  | nil => rfl
  | cons d cs ih =>
      rw [List.map_cons, Pc.relCount_cons, ih, List.count_cons]
      by_cases h : d = c <;> simp [h, Nat.add_comm]

section
variable {cfg : RtConfig}

/-- Worker and block make the same decrements in total. -/
theorem relCount_releases (a : Agent cfg) (cs : List ℕ) (c : ℕ) :
    Pc.relCount (a.releases cs) c = cs.count c := by
  cases a with
  | inl _ => exact relCount_map_one cs c
  | inr _ => exact relCount_coalesce cs c

theorem relWF_releases (a : Agent cfg) {n : ℕ} {cs : List ℕ} (h : ∀ c ∈ cs, c < n) :
    Pc.RelWF n (a.releases cs) := by
  cases a with
  | inl _ =>
      intro e he
      obtain ⟨c, hc, rfl⟩ := List.mem_map.mp he
      exact ⟨le_rfl, h c hc⟩
  | inr _ => exact relWF_coalesce h

/-! ## Totals over parties and queues -/

/-- Sum over all workers and blocks. -/
def total (pc : Agent cfg → Pc cfg.gpuBlocks) (f : Pc cfg.gpuBlocks → ℕ) : ℕ := ∑ a, f (pc a)

/-- Occurrences of `i` in all queues. -/
def queued (q : Qid cfg.gpuBlocks → List ℕ) (i : ℕ) : ℕ := ∑ k, (q k).count i

private theorem sum_update {ι β : Type} [Fintype ι] [DecidableEq ι] (g : ι → β) (i : ι) (x : β)
    (f : β → ℕ) : ∑ j, f (Function.update g i x j) + f (g i) = ∑ j, f (g j) + f x := by
  have h1 := Finset.sum_update_of_mem (Finset.mem_univ i) (fun j => f (g j)) (f x)
  have h2 := Finset.sum_sdiff (Finset.subset_univ {i}) (f := fun j => f (g j))
  rw [Finset.sum_singleton] at h2
  have h3 : (fun j => f (Function.update g i x j)) = Function.update (fun j => f (g j)) i (f x) :=
    Function.comp_update f g i x
  rw [h3, h1]
  omega

theorem total_update (pc : Agent cfg → Pc cfg.gpuBlocks) (a : Agent cfg) (p : Pc cfg.gpuBlocks)
    (f : Pc cfg.gpuBlocks → ℕ) :
    total (Function.update pc a p) f + f (pc a) = total pc f + f p := sum_update pc a p f

theorem single_le_total (pc : Agent cfg → Pc cfg.gpuBlocks) (a : Agent cfg) (f : Pc cfg.gpuBlocks → ℕ) :
    f (pc a) ≤ total pc f :=
  Finset.single_le_sum (f := fun a => f (pc a)) (fun _ _ => Nat.zero_le _) (Finset.mem_univ a)

theorem queued_update (q : Qid cfg.gpuBlocks → List ℕ) (k : Qid cfg.gpuBlocks) (l : List ℕ)
    (i : ℕ) : queued (Function.update q k l) i + (q k).count i = queued q i + l.count i :=
  sum_update q k l fun l => l.count i

theorem le_queued (q : Qid cfg.gpuBlocks → List ℕ) (k : Qid cfg.gpuBlocks) (i : ℕ) :
    (q k).count i ≤ queued q i :=
  Finset.single_le_sum (f := fun k => (q k).count i) (fun _ _ => Nat.zero_le _) (Finset.mem_univ k)

/-! ## The invariant of a run -/

/-- One for a count of zero. -/
def isZero (d : ℤ) : ℕ := if d = 0 then 1 else 0

/-- Roots the publishing loop of the host has yet to push. -/
def rootsDue (G : FrozenGraph) : HostPc → ℕ → ℕ
  | .publish i, c | .pushRoot i, c => if i ≤ c ∧ G.depInit c = 0 then 1 else 0
  | _, _ => 0

structure RunInv (G : FrozenGraph) (s : RtState cfg) : Prop where
  enq_lt : ∀ i ∈ s.enq, i < G.n
  enq_eq : ∀ i, s.enq.count i = queued s.q i + s.claimed.count i
  started_eq : ∀ i, s.claimed.count i = s.started.count i + total s.pc fun p => p.todo.count i
  finished_eq : ∀ i, s.started.count i =
    s.finished.count i + total s.pc fun p => p.runningIds.count i
  done_eq : s.nDone + (total s.pc fun p => p.held.length) = s.claimed.length
  dep_eq : ∀ c < G.n, s.depCount c =
    openEdges G.cons G.n s.claimed c + total s.pc fun p => p.unreleased G.cons c
  ready_eq : ∀ c < G.n, s.enq.count c + (total s.pc fun p => p.pending.count c) +
    rootsDue G s.host c = isZero (s.depCount c)
  mark_le : s.doneFlag = false →
    s.claimed.count G.terminal ≤ total s.pc fun p => p.unmarked.count G.terminal
  pc_wf : ∀ a, (s.pc a).WF G.n
  root : ∀ i, s.host = .pushRoot i → i < G.n ∧ G.depInit i = 0

namespace RunInv
variable {G : FrozenGraph} {s : RtState cfg}

/-- No task is enqueued twice. -/
theorem count_enq_le (h : RunInv G s) (i : ℕ) : s.enq.count i ≤ 1 := by
  by_cases hi : i < G.n
  · have := h.ready_eq i hi
    unfold isZero at this
    split_ifs at this <;> omega
  · have : i ∉ s.enq := fun hm => hi (h.enq_lt i hm)
    simp [List.count_eq_zero.mpr this]

theorem enq_nodup (h : RunInv G s) : s.enq.Nodup :=
  List.nodup_iff_count_le_one.mpr h.count_enq_le

theorem claimed_nodup (h : RunInv G s) : s.claimed.Nodup :=
  List.nodup_iff_count_le_one.mpr fun i => by
    have := h.enq_eq i
    have := h.count_enq_le i
    omega

theorem started_nodup (h : RunInv G s) : s.started.Nodup :=
  List.nodup_iff_count_le_one.mpr fun i => by
    have := h.started_eq i
    have := List.nodup_iff_count_le_one.mp h.claimed_nodup i
    omega

theorem finished_nodup (h : RunInv G s) : s.finished.Nodup :=
  List.nodup_iff_count_le_one.mpr fun i => by
    have := h.finished_eq i
    have := List.nodup_iff_count_le_one.mp h.started_nodup i
    omega

theorem mem_enq_of_claimed (h : RunInv G s) {i : ℕ} (hi : i ∈ s.claimed) : i ∈ s.enq := by
  have := h.enq_eq i
  have := List.count_pos_iff.mpr hi
  exact List.count_pos_iff.mp (by omega)

theorem mem_claimed_of_started (h : RunInv G s) {i : ℕ} (hi : i ∈ s.started) :
    i ∈ s.claimed := by
  have := h.started_eq i
  have := List.count_pos_iff.mpr hi
  exact List.count_pos_iff.mp (by omega)

theorem claimed_lt (h : RunInv G s) {i : ℕ} (hi : i ∈ s.claimed) : i < G.n :=
  h.enq_lt i (h.mem_enq_of_claimed hi)

/-- What an enqueued task waited for has been claimed and released. -/
theorem released_of_enq (h : RunInv G s) {c p : ℕ} (hc : c ∈ s.enq) (hp : G.Edge p c) :
    p ∈ s.claimed ∧ ∀ a, (s.pc a).unreleased G.cons c = 0 := by
  have hcn := h.enq_lt c hc
  have hzero : s.depCount c = 0 := by
    have := h.ready_eq c hcn
    have := List.count_pos_iff.mpr hc
    by_contra hne
    rw [isZero, if_neg hne] at *
    omega
  have hdep := h.dep_eq c hcn
  rw [hzero] at hdep
  refine ⟨openEdges_eq_zero.mp (by omega) p hp, fun a => ?_⟩
  have := single_le_total s.pc a fun p => p.unreleased G.cons c
  omega

/-- **Producers first.**  The producers of an enqueued task are finished. -/
theorem finished_of_enq (h : RunInv G s) {c p : ℕ} (hc : c ∈ s.enq) (hp : G.Edge p c) :
    p ∈ s.finished := by
  obtain ⟨hclaimed, hrel⟩ := h.released_of_enq hc hp
  -- a batch that still executes `p` would owe `c` a decrement
  have hbusy : ∀ a ids todo running, s.pc a = .exec ids todo running → p ∉ ids := by
    intro a ids todo running ha hpi
    have h0 := hrel a
    rw [ha] at h0
    exact List.count_eq_zero.mp h0 (List.mem_flatMap.mpr ⟨p, hpi, hp.2⟩)
  have hidle : ∀ a, (s.pc a).todo.count p = 0 ∧ (s.pc a).runningIds.count p = 0 := by
    intro a
    have hwf := h.pc_wf a
    cases ha : s.pc a with
    | exec ids todo running =>
        rw [ha] at hwf
        have hno := hbusy a ids todo running ha
        exact ⟨List.count_eq_zero.mpr fun hm => hno (hwf.2.2.1 p hm),
          List.count_eq_zero.mpr fun hm => hno (hwf.2.2.2 p hm)⟩
    | _ => exact ⟨rfl, rfl⟩
  have htodo : (total s.pc fun q => q.todo.count p) = 0 :=
    Finset.sum_eq_zero fun a _ => (hidle a).1
  have hrun : (total s.pc fun q => q.runningIds.count p) = 0 :=
    Finset.sum_eq_zero fun a _ => (hidle a).2
  have h1 := h.started_eq p
  have h2 := h.finished_eq p
  have h3 := List.count_pos_iff.mpr hclaimed
  exact List.count_pos_iff.mp (by omega)

/-! ### Steps -/

/-- A step of one party from `p` to `p'` keeps the invariant when what the party owes
changes as much as the shared counters do. -/
theorem move (h : RunInv G s) {t : RtState cfg} {a : Agent cfg} {p p' : Pc cfg.gpuBlocks}
    (hp : s.pc a = p) (hpc : t.pc = Function.update s.pc a p') (hhost : t.host = s.host)
    (hlt : ∀ i ∈ t.enq, i ∈ s.enq ∨ i < G.n)
    (henq : ∀ i, t.enq.count i + queued s.q i + s.claimed.count i =
      s.enq.count i + queued t.q i + t.claimed.count i)
    (hstart : ∀ i, t.claimed.count i + s.started.count i + p.todo.count i =
      s.claimed.count i + t.started.count i + p'.todo.count i)
    (hfin : ∀ i, t.started.count i + s.finished.count i + p.runningIds.count i =
      s.started.count i + t.finished.count i + p'.runningIds.count i)
    (hdone : t.nDone + s.claimed.length + p'.held.length =
      s.nDone + t.claimed.length + p.held.length)
    (hdep : ∀ c < G.n, t.depCount c + openEdges G.cons G.n s.claimed c + p.unreleased G.cons c =
      s.depCount c + openEdges G.cons G.n t.claimed c + p'.unreleased G.cons c)
    (hready : ∀ c < G.n, t.enq.count c + isZero (s.depCount c) + p'.pending.count c =
      s.enq.count c + isZero (t.depCount c) + p.pending.count c)
    (hmark : t.doneFlag = false → s.doneFlag = false ∧
      t.claimed.count G.terminal + p.unmarked.count G.terminal ≤
        s.claimed.count G.terminal + p'.unmarked.count G.terminal)
    (hwf : p'.WF G.n) : RunInv G t := by
  have htot := fun f => total_update s.pc a p' f
  rw [hp, ← hpc] at htot
  refine ⟨fun i hi => (hlt i hi).elim (h.enq_lt i) id, fun i => ?_, fun i => ?_, fun i => ?_, ?_,
    fun c hc => ?_, fun c hc => ?_, fun hd => ?_, fun b => ?_, hhost ▸ h.root⟩
  · have := h.enq_eq i
    have := henq i
    omega
  · have := h.started_eq i
    have := hstart i
    have := htot fun p => p.todo.count i
    omega
  · have := h.finished_eq i
    have := hfin i
    have := htot fun p => p.runningIds.count i
    omega
  · have := h.done_eq
    have := htot fun p => p.held.length
    omega
  · have := h.dep_eq c hc
    have := hdep c hc
    have := htot fun p => p.unreleased G.cons c
    omega
  · have := h.ready_eq c hc
    have := hready c hc
    have := htot fun p => p.pending.count c
    rw [hhost]
    omega
  · obtain ⟨hs, hle⟩ := hmark hd
    have := h.mark_le hs
    have := htot fun p => p.unmarked.count G.terminal
    omega
  · rw [hpc]
    by_cases hb : b = a
    · subst hb; simpa using hwf
    · simpa [Function.update_of_ne hb] using h.pc_wf b

/-- A step that only moves a party within its batch. -/
theorem silent (h : RunInv G s) {a : Agent cfg} {p p' : Pc cfg.gpuBlocks} (hp : s.pc a = p)
    (m : Loc → Word) (d : Bool) (hheld : p'.held = p.held) (htodo : p'.todo = p.todo)
    (hrun : p'.runningIds = p.runningIds) (hpend : p'.pending = p.pending)
    (hrel : ∀ c, p'.unreleased G.cons c = p.unreleased G.cons c) (hwf : p'.WF G.n)
    (hmark : d = false → s.doneFlag = false ∧
      p.unmarked.count G.terminal ≤ p'.unmarked.count G.terminal) :
    RunInv G { s with mem := m, doneFlag := d, pc := Function.update s.pc a p' } := by
  refine h.move hp rfl rfl (fun i hi => .inl hi) (fun i => rfl) (fun i => ?_) (fun i => ?_) ?_
    (fun c _ => ?_) (fun c _ => ?_)
    (fun hd => ⟨(hmark hd).1, Nat.add_le_add_left (hmark hd).2 _⟩) hwf
  · rw [htodo]
  · rw [hrun]
  · rw [hheld]
  · rw [hrel]
  · rw [hpend]

/-- The ids of a queue are tasks, and none of them has been claimed. -/
theorem of_queue (h : RunInv G s) {q : Qid cfg.gpuBlocks} {ids rest : List ℕ}
    (hq : s.q q = ids ++ rest) : (∀ i ∈ ids, i < G.n) ∧ (s.claimed ++ ids).Nodup := by
  have hcount : ∀ i, ids.count i ≤ queued s.q i := fun i => by
    have := le_queued s.q q i
    rw [hq, List.count_append] at this
    omega
  refine ⟨fun i hi => h.enq_lt i ?_, List.nodup_iff_count_le_one.mpr fun i => ?_⟩
  · have := hcount i
    have := h.enq_eq i
    have := List.count_pos_iff.mpr hi
    exact List.count_pos_iff.mp (by omega)
  · have := hcount i
    have := h.enq_eq i
    have := h.count_enq_le i
    rw [List.count_append]
    omega

theorem pop (h : RunInv G s) {a : Agent cfg} {q : Qid cfg.gpuBlocks}
    {qs : List (Qid cfg.gpuBlocks)} {ids rest : List ℕ} (hp : s.pc a = .poll (q :: qs))
    (hq : s.q q = ids ++ rest) (hne : ids ≠ []) :
    RunInv G ({ s with q := Function.update s.q q rest, claimed := s.claimed ++ ids }.setPc a
      (.exec ids ids [])) := by
  obtain ⟨hlt, hnd⟩ := h.of_queue hq
  refine h.move hp rfl rfl (fun i hi => .inl hi) (fun i => ?_) (fun i => ?_) (fun i => ?_) ?_
    (fun c _ => ?_) (fun c _ => ?_) (fun hd => ⟨hd, ?_⟩) ⟨hne, hlt, fun _ hi => hi, by simp⟩
  · have h2 := queued_update s.q q rest i
    rw [hq, List.count_append] at h2
    simp only [RtState.setPc, List.count_append]
    omega
  · simp [RtState.setPc, Pc.todo]; omega
  · simp [RtState.setPc, Pc.runningIds]
  · simp [RtState.setPc, Pc.held]; omega
  · have h3 := openEdges_append G.cons (c := c) hnd hlt
    simp only [RtState.setPc, Pc.unreleased]
    omega
  · simp [RtState.setPc, Pc.pending]
  · simp [RtState.setPc, Pc.unmarked]

theorem startTask (h : RunInv G s) {a : Agent cfg} {ids todo : List ℕ} {i : ℕ} {p : Exec Unit}
    {running : List (ℕ × Exec Unit)} (hp : s.pc a = .exec ids (i :: todo) running) :
    RunInv G ({ s with started := s.started ++ [i] }.setPc a
      (.exec ids todo (running ++ [(i, p)]))) := by
  have hwf := h.pc_wf a
  rw [hp] at hwf
  obtain ⟨hne, hlt, htodo, hrun⟩ := hwf
  refine h.move hp rfl rfl (fun i hi => .inl hi) (fun i => rfl) (fun j => ?_) (fun j => ?_) rfl
    (fun c _ => rfl) (fun c _ => rfl) (fun hd => ⟨hd, le_rfl⟩)
    ⟨hne, hlt, fun j hj => htodo j (List.mem_cons_of_mem _ hj), fun j hj => ?_⟩
  · simp only [RtState.setPc, Pc.todo, List.count_append, List.count_cons, List.count_nil]
    omega
  · simp only [RtState.setPc, Pc.runningIds, List.map_append, List.map_cons, List.map_nil,
      List.count_append, List.count_cons, List.count_nil]
    omega
  · rw [List.map_append] at hj
    rcases List.mem_append.mp hj with hj | hj
    · exact hrun j hj
    · obtain rfl : j = i := by simpa using hj
      exact htodo j (List.mem_cons_self ..)

theorem finishTask (h : RunInv G s) {a : Agent cfg} {ids todo : List ℕ} {i : ℕ} {p : Exec Unit}
    {r₁ r₂ : List (ℕ × Exec Unit)} (hp : s.pc a = .exec ids todo (r₁ ++ (i, p) :: r₂)) :
    RunInv G ({ s with finished := s.finished ++ [i] }.setPc a (.exec ids todo (r₁ ++ r₂))) := by
  have hwf := h.pc_wf a
  rw [hp] at hwf
  obtain ⟨hne, hlt, htodo, hrun⟩ := hwf
  refine h.move hp rfl rfl (fun i hi => .inl hi) (fun i => rfl) (fun j => rfl) (fun j => ?_) rfl
    (fun c _ => rfl) (fun c _ => rfl) (fun hd => ⟨hd, le_rfl⟩) ⟨hne, hlt, htodo, fun j hj => hrun j ?_⟩
  · simp only [RtState.setPc, Pc.runningIds, List.map_append, List.map_cons,
      List.count_append, List.count_cons, List.count_nil]
    omega
  · rw [List.map_append] at hj ⊢
    rcases List.mem_append.mp hj with hj | hj
    · exact List.mem_append_left _ hj
    · exact List.mem_append_right _ (List.mem_cons_of_mem _ hj)

/-- The decrement that makes the count zero turns its consumer into a pending push. -/
theorem release (h : RunInv G s) {a : Agent cfg} {ids : List ℕ} {d k : ℕ} {rel : List (ℕ × ℕ)}
    (hp : s.pc a = .release ids ((d, k) :: rel)) :
    RunInv G ({ s with depCount := Function.update s.depCount d (s.depCount d - k) }.setPc a
      (if s.depCount d = k then .push ids d rel else .release ids rel)) := by
  have hwf := h.pc_wf a
  have hown := single_le_total s.pc a fun p => p.unreleased G.cons d
  simp only [hp] at hwf hown
  obtain ⟨hne, hrel⟩ := hwf
  obtain ⟨hk, hd⟩ := hrel (d, k) (List.mem_cons_self ..)
  have hrel' : Pc.RelWF G.n rel := fun e he => hrel e (List.mem_cons_of_mem _ he)
  -- the agent itself owes `d` at least `k` decrements
  have hge : 1 ≤ k ∧ (k : ℤ) ≤ s.depCount d := by
    have := h.dep_eq d hd
    change Pc.relCount ((d, k) :: rel) d ≤ _ at hown
    rw [Pc.relCount_cons, if_pos rfl] at hown
    exact ⟨hk, by omega⟩
  have hother : ∀ c, c ≠ d → Function.update s.depCount d (s.depCount d - k) c = s.depCount c :=
    fun c hc => Function.update_of_ne hc _ _
  split_ifs with hz
  · refine h.move hp rfl rfl (fun i hi => .inl hi) (fun i => rfl) (fun j => rfl) (fun j => rfl) rfl
      (fun c _ => ?_) (fun c _ => ?_) (fun hd => ⟨hd, le_rfl⟩) ⟨hne, hd, hrel'⟩
    · simp only [RtState.setPc, Pc.unreleased, Pc.relCount_cons]
      by_cases hc : c = d
      · subst hc; rw [Function.update_self, if_pos rfl]; push_cast; omega
      · rw [hother c hc, if_neg (Ne.symm hc)]; push_cast; omega
    · simp only [RtState.setPc, Pc.pending, List.count_nil]
      by_cases hc : c = d
      · subst hc
        rw [Function.update_self]
        simp [isZero, hz]
        omega
      · rw [hother c hc]; simp [Ne.symm hc]
  · refine h.move hp rfl rfl (fun i hi => .inl hi) (fun i => rfl) (fun j => rfl) (fun j => rfl) rfl
      (fun c _ => ?_) (fun c _ => ?_) (fun hd => ⟨hd, le_rfl⟩) ⟨hne, hrel'⟩
    · simp only [RtState.setPc, Pc.unreleased, Pc.relCount_cons]
      by_cases hc : c = d
      · subst hc; rw [Function.update_self, if_pos rfl]; push_cast; omega
      · rw [hother c hc, if_neg (Ne.symm hc)]; push_cast; omega
    · simp only [RtState.setPc, Pc.pending, List.count_nil]
      by_cases hc : c = d
      · subst hc
        rw [Function.update_self, isZero, if_neg (by omega), isZero, if_neg (by omega)]
      · rw [hother c hc]

theorem push (h : RunInv G s) {a : Agent cfg} {ids : List ℕ} {d : ℕ} {rel : List (ℕ × ℕ)}
    (q : Qid cfg.gpuBlocks) (hp : s.pc a = .push ids d rel) :
    RunInv G ((s.enqueue q d).setPc a (.release ids rel)) := by
  have hwf := h.pc_wf a
  rw [hp] at hwf
  refine h.move hp rfl rfl (fun i hi => ?_) (fun i => ?_) (fun j => rfl) (fun j => rfl) rfl
    (fun c _ => rfl) (fun c _ => ?_) (fun hd => ⟨hd, le_rfl⟩) ⟨hwf.1, hwf.2.2⟩
  · rcases List.mem_append.mp hi with hi | hi
    · exact .inl hi
    · obtain rfl : i = d := by simpa using hi
      exact .inr hwf.2.1
  · have h2 := queued_update s.q q (s.q q ++ [d]) i
    simp only [RtState.setPc, RtState.enqueue, List.count_append] at h2 ⊢
    omega
  · simp only [RtState.setPc, RtState.enqueue, Pc.pending, List.count_append, List.count_nil]
    omega

theorem countDone (h : RunInv G s) {a : Agent cfg} {ids : List ℕ}
    (hp : s.pc a = .release ids []) :
    RunInv G ({ s with nDone := s.nDone + ids.length }.setPc a .idle) := by
  refine h.move hp rfl rfl (fun i hi => .inl hi) (fun i => rfl) (fun j => rfl) (fun j => rfl) ?_
    (fun c _ => rfl) (fun c _ => rfl) (fun hd => ⟨hd, le_rfl⟩) trivial
  simp only [RtState.setPc, Pc.held, List.length_nil]
  omega

end RunInv
end
end FastLlm
