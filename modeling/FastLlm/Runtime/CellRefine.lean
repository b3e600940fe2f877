import FastLlm.Runtime.CellInv

/-!
# The queues in memory refine the protocol

Every access of a call keeps the invariant, if its claim finds the cells ready: the successful
compare-and-swaps are pushes and pops of the protocol, a pop that finds nothing is a miss, and
all other accesses are no steps.

## Main definitions

* `CellInv.access` — one access; `CellInv.look`, `CellInv.pushCas` and `CellInv.claim` are its
  cases.
* `CellReach.inv`, `CellReach.refines` — whole runs.
-/

namespace FastLlm
open ReadyQueue (wrap State)

section
variable {cfg : RtConfig}

/-! ## Accesses -/

/-- Whoever enqueues has not enqueued all. -/
theorem RunInv.length_enq_lt {G : FrozenGraph} {s : RtState cfg} (h : RunInv G s) {d : ℕ}
    (hd : RunInv.Due G s d) : s.enq.length < G.n := by
  have hsub : (d :: s.enq).Subperm (List.range G.n) := by
    refine (List.nodup_cons.mpr ⟨hd.not_enq, h.enq_nodup⟩).subperm fun i hi => ?_
    rcases List.mem_cons.mp hi with rfl | hi
    · exact List.mem_range.mpr hd.lt
    · exact List.mem_range.mpr (h.enq_lt i hi)
  have hlen := hsub.length_le
  rw [List.length_range, List.length_cons] at hlen
  exact hlen

namespace ReadyQueue
variable {ι : Type} {t : State ι} {a : ι}

/-- Cells that a scan finds ready are ready. -/
theorem Inv.allReady (h : Inv kQueueCapacity t) {m : ℕ}
    (hready : t.q.Ready (wrap t.ring.deq.length) m) : t.ring.AllReady t.ring.deq.length m := by
  induction m with
  | zero => exact fun i hi => absurd hi (Nat.not_lt_zero i)
  | succ m ih =>
    have hseq := hready m (Nat.lt_succ_self m)
    rw [wrap_add_ofNat, wrap_add_one] at hseq
    exact h.allReady_succ capacity_kQueueCapacity (fun _ => ih fun i hi => hready i (by omega))
      hseq rfl

/-- The values read before the last cell is recycled. -/
theorem Inv.inHand_eq (h : Inv kQueueCapacity t) {light : Bool} {pos : UInt32} {m i : ℕ}
    {out : List UInt32} (hpc : t.pc a = .recycle light pos m i out) (hlast : ¬ i + 1 < m) :
    out.map UInt32.toNat = t.inHand a := by
  have hat := (h.threads a).at_pc
  rw [hpc] at hat
  obtain ⟨hi, hlen, htake⟩ := hat
  have hlen' : out.length = m := by split_ifs at hlen <;> omega
  rw [State.inHand, hpc, Pc.taking]
  apply List.ext_getElem?
  intro j
  rw [List.getElem?_map, List.getElem?_map, List.getElem?_take, List.getElem?_drop]
  split_ifs with hj
  · have hv := List.getElem?_eq_getElem (l := out) (i := j) (by omega)
    obtain ⟨u, hu⟩ := htake.vals j _ hv
    rw [hv, hu]
    rfl
  · rw [List.getElem?_eq_none (by omega)]
    rfl

theorem Op.eq_push_of_covers {op : Op} {v pos : UInt32}
    (h : op.Covers (.pushSeq v pos) ∨ op.Covers (.pushCas v pos)) : op = .push v := by
  cases op with
  | push w => rcases h with rfl | rfl <;> rfl
  | _ => exact (or_self_iff.mp h).elim

end ReadyQueue

section
variable {E : FloatOps} {c : CellState cfg} {a : Party cfg} {q : Qid cfg.gpuBlocks}
  {op : ReadyQueue.Op}

/-- What a worker or block is about to enqueue is due. -/
theorem CellInv.due_of_agent (h : CellInv E c) {b : Agent cfg} {v : UInt32}
    (hop : c.rt.queueOp (some b) = some (q, .push v)) (hquiet : ((c.queue q).pc (some b)).quiet) :
    ∃ G ids d rel, c.abs.graph = some G ∧ c.rt.pc b = .push ids d rel ∧
      c.abs.pc b = .push ids d rel ∧ q = publishQueue cfg b.isGpu d (G.task d).toTaskParams ∧
      v.toNat = d ∧ RunInv G c.abs ∧ RunInv.Due G c.abs d := by
  obtain ⟨G, ids, d, rel, hG, hp, hq, rfl⟩ := RtState.queueOp_push hop
  have hpc : c.abs.pc b = .push ids d rel := (CellState.pcOf_of_quiet hop hquiet).trans hp
  have hrun : RunInv G c.abs := h.reach.inv.running_of_push hG hpc
  have hdue := hrun.due_of_push hpc
  exact ⟨G, ids, d, rel, hG, hp, hpc, hq, UInt32.toNat_ofNat_of_lt' (hdue.lt.trans G.n_lt), hrun,
    hdue⟩

/-- What the host is about to enqueue is due. -/
theorem CellInv.due_of_host (h : CellInv E c) (hop : c.rt.queueOp none = some (q, op))
    (hquiet : ((c.queue q).pc none).quiet) :
    ∃ G i, c.abs.graph = some G ∧ c.rt.host = .pushRoot i ∧ c.abs.host = .pushRoot i ∧
      q = publishQueue cfg false i (G.task i).toTaskParams ∧ op = .push (UInt32.ofNat i) ∧
      (UInt32.ofNat i).toNat = i ∧ RunInv G c.abs ∧ RunInv.Due G c.abs i := by
  obtain ⟨G, i, hG, hp, hq, rfl⟩ := RtState.queueOp_host hop
  have hhost : c.abs.host = .pushRoot i := (CellState.hostOf_of_quiet hop hquiet).trans hp
  have hrun : RunInv G c.abs := h.reach.inv.running_of hG (by rw [hhost]; simp)
    (by rw [hhost]; simp)
  have hdue := hrun.due_of_pushRoot hhost
  exact ⟨G, i, hG, hp, hhost, hq, rfl, UInt32.toNat_ofNat_of_lt' (hdue.lt.trans G.n_lt), hrun,
    hdue⟩

/-- A party that is about to enqueue finds fewer tasks enqueued than a queue has cells. -/
theorem CellInv.length_enq_lt (h : CellInv E c) {v : UInt32}
    (hop : c.rt.queueOp a = some (q, .push v)) (hquiet : ((c.queue q).pc a).quiet) :
    c.rt.enq.length < kQueueCapacity := by
  cases a with
  | none =>
    obtain ⟨G, i, hG, -, -, -, -, -, hrun, hdue⟩ := h.due_of_host hop hquiet
    exact (hrun.length_enq_lt hdue).trans_le (h.fits G hG)
  | some b =>
    obtain ⟨G, ids, d, rel, hG, -, -, -, -, hrun, hdue⟩ := h.due_of_agent hop hquiet
    exact (hrun.length_enq_lt hdue).trans_le (h.fits G hG)

/-- The cell of the next position to be enqueued is free. -/
theorem CellInv.vacant (h : CellInv E c) {v : UInt32}
    (hop : c.rt.queueOp a = some (q, .push v)) (hquiet : ((c.queue q).pc a).quiet) :
    (c.queue q).ring.Vacant kQueueCapacity (c.queue q).ring.enq.length := by
  obtain ⟨start, hturn⟩ := h.turn
  have hlt := h.length_enq_lt hop hquiet
  have hroom := hturn.room q
  intro hle
  exact hturn.free q _ (by omega)

/-- Claims that find their cells ready are sound, and so is every push. -/
theorem CellInv.sound (h : CellInv E c) (hop : c.rt.queueOp a = some (q, op))
    (hcov : op.Covers ((c.queue q).pc a)) (hready : (c.queue q).ClaimsReady a) :
    ReadyQueue.Sound kQueueCapacity (c.queue q) a := by
  rw [ReadyQueue.State.ClaimsReady] at hready
  rw [ReadyQueue.Sound]
  have htail := (h.queues q).mirrors.tail
  cases hpc : (c.queue q).pc a with
  | pushCas v pos =>
    intro _
    rw [hpc] at hcov
    obtain rfl := ReadyQueue.Op.eq_push_of_covers (.inr hcov)
    exact h.vacant hop (by rw [hpc]; exact ⟨rfl, rfl⟩)
  | popCas pos =>
    rw [hpc] at hready
    intro heq
    have hcells := hready heq
    rw [← heq, htail] at hcells
    exact (h.queues q).allReady hcells
  | bulkCas light maxn pos m =>
    rw [hpc] at hready
    intro heq
    have hcells := hready heq
    rw [← heq, htail] at hcells
    exact (h.queues q).allReady hcells
  | _ => trivial

/-- What the others look like after an access. -/
theorem CellInv.sameView (h : CellInv E c)
    (hsound : ReadyQueue.Sound kQueueCapacity (c.queue q) a) {b : Party cfg} (hb : b ≠ a)
    (k : Qid cfg.gpuBlocks) : SameView (c.queue k) ((c.access a q).queue k) b := by
  rw [CellState.access]
  dsimp only
  by_cases hk : k = q
  · rw [hk, Function.update_self]
    exact (h.queues q).sameView_of_ne hsound hb
  · rw [Function.update_of_ne hk]
    exact ⟨rfl, rfl, rfl⟩

/-- An access that only looks at the queue. -/
theorem CellInv.look (h : CellInv E c) (hop : c.rt.queueOp a = some (q, op))
    (hcov : op.Covers ((c.queue q).pc a))
    (hsound : ReadyQueue.Sound kQueueCapacity (c.queue q) a)
    (hrt : c.rt.afterAccess a q (c.queue q) = c.rt)
    (henq : ((c.queue q).advance a).ring.enq = (c.queue q).ring.enq)
    (hdeq : ((c.queue q).advance a).ring.deq = (c.queue q).ring.deq)
    (hsame : SameView (c.queue q) ((c.queue q).advance a) a)
    (hcopy : ∀ v pos, ((c.queue q).advance a).pc a = .pushSeq v pos →
      pos = (c.queue q).q.head) : CellInv E (c.access a q) := by
  have hinv := (h.queues q).advance_of_sound capacity_kQueueCapacity (by decide) a hsound
  rw [CellState.access, hrt]
  refine h.silent hop hinv (fun b hb => State.advance_pc_ne _ hb) henq hdeq (fun b => ?_)
    (ReadyQueue.Op.covers_advance hcov) fun start hturn => ?_
  · by_cases hb : b = a
    · rw [hb]
      exact hsame
    · exact (h.queues q).sameView_of_ne hsound hb
  · refine hturn.access (h.queues q) hsound rfl ?_ le_rfl fun v pos hpc => ?_
    · rw [henq]
    · rw [henq, hcopy v pos hpc]
      exact (h.queues q).mirrors.head

/-- One worker or block has moved. -/
theorem CellState.abs_of_agent {c' : CellState cfg} {b : Agent cfg} (hhost : c'.hostOf = c.hostOf)
    (hpcs : ∀ b', b' ≠ b → c'.pcOf b' = c.pcOf b') :
    c'.abs = { c'.rt with pc := Function.update c.pcOf b (c'.pcOf b), host := c.hostOf } := by
  have hpc : c'.pcOf = Function.update c.pcOf b (c'.pcOf b) := by
    funext b'
    by_cases hb : b' = b
    · rw [hb, Function.update_self]
    · rw [Function.update_of_ne hb, hpcs b' hb]
  rw [CellState.abs, hhost, ← hpc]

/-- The compare-and-swap of a push. -/
theorem CellInv.pushCas (h : CellInv E c) (hop : c.rt.queueOp a = some (q, op))
    (hcov : op.Covers ((c.queue q).pc a))
    (hsound : ReadyQueue.Sound kQueueCapacity (c.queue q) a) {v pos : UInt32}
    (hpc : (c.queue q).pc a = .pushCas v pos) (heq : (c.queue q).q.head = pos) :
    CellInv E (c.access a q) := by
  have hinv := (h.queues q).advance_of_sound capacity_kQueueCapacity (by decide) a hsound
  have hadv : (c.queue q).advance a =
      ((c.queue q).advanceHead a v pos).goto a (.pushVal v pos) := by
    rw [State.advance, hpc]
    exact if_pos heq
  have hrt : (c.access a q).rt = c.rt.enqueue q v.toNat := by
    rw [CellState.access, RtState.afterAccess, hpc]
    exact if_pos heq
  have hquiet : ((c.queue q).pc a).quiet := by rw [hpc]; exact ⟨rfl, rfl⟩
  have hnew : ((c.access a q).queue q).pc a = .pushVal v pos := by
    rw [CellState.access, hadv]
    dsimp only
    rw [Function.update_self, State.goto_pc_self]
  have henq : ((c.queue q).advance a).ring.enq = (c.queue q).ring.enq ++ [(a, v)] := by
    rw [hadv]
    rfl
  have hdeq : ((c.queue q).advance a).ring.deq = (c.queue q).ring.deq := by
    rw [hadv]
    rfl
  obtain rfl : op = .push v := ReadyQueue.Op.eq_push_of_covers (.inr (hpc ▸ hcov))
  have hops (b : Party cfg) : (c.access a q).rt.queueOp b = c.rt.queueOp b := by
    rw [hrt]
    cases b <;> rfl
  have hroom : (c.abs.q q).length < kQueueCapacity := by
    have hle := hinv.ok.enq_le
    have hold := (h.queues q).ok.deq_le_enq
    rw [henq, hdeq, List.length_append, List.length_singleton] at hle
    change (c.rt.q q).length < _
    rw [h.logged q, State.queued, List.length_map, List.length_drop]
    omega
  refine h.of_queue hop rfl ?_ hinv (fun b hb => State.advance_pc_ne _ hb) (by rw [hrt]; rfl)
    (fun b _ => hops b) (.inr ⟨hops a, ?_⟩) ?_ (fun k hk => ?_) ?_
  · cases a with
    | some b =>
      obtain ⟨G, ids, d, rel, hG, hp, habs, hq, rfl, -, -⟩ := h.due_of_agent hop hquiet
      have hpc' : (c.access (some b) q).pcOf b = .release ids rel := by
        rw [CellState.pcOf_of_pushing ((hops _).trans hop) (by rw [hnew]; rfl) (by rw [hnew]; rfl),
          hrt, RtState.pushed_of_push (s := c.rt.enqueue q v.toNat) hp, RtState.setPc_pc_self]
      rw [CellState.abs_of_agent (b := b)
        (CellState.hostOf_congr (hops _) (by rw [hrt]; rfl) (h.sameView hsound (by simp)))
        fun b' hb => CellState.pcOf_congr (hops _) (by rw [hrt]; rfl)
          (h.sameView hsound fun he => hb (Option.some.inj he)), hpc', hrt]
      exact h.reach.step (.push hG habs hq hroom)
    | none =>
      obtain ⟨G, i, hG, hp, habs, hq, hv, hi, -, -⟩ := h.due_of_host hop hquiet
      obtain rfl := ReadyQueue.Op.push.inj hv
      have hhost' : (c.access none q).hostOf = .publish (i + 1) := by
        rw [CellState.hostOf_of_pushing ((hops _).trans hop) (by rw [hnew]; rfl), hrt,
          RtState.pushed_of_pushRoot (s := c.rt.enqueue q _) hp]
      have hpcs : (c.access none q).pcOf = c.pcOf := funext fun b =>
        CellState.pcOf_congr (hops _) (by rw [hrt]; rfl) (h.sameView hsound (by simp))
      rw [CellState.abs, hpcs, hhost', hrt, hi]
      exact h.reach.step (.pushRoot hG habs hq hroom)
  · rw [hadv, State.goto_pc_self]
    exact rfl
  · rw [hrt]
    change Function.update c.rt.q q (c.rt.q q ++ [v.toNat]) q = _
    rw [Function.update_self, h.logged q, State.queued, State.queued, henq, hdeq,
      List.drop_append_of_le_length (h.queues q).ok.deq_le_enq, List.map_append]
    rfl
  · rw [hrt]
    exact Function.update_of_ne hk _ _
  · obtain ⟨start, hturn⟩ := h.turn
    refine ⟨start, hturn.access (h.queues q) hsound rfl ?_ ?_ fun w p hp => ?_⟩
    · rw [henq, hrt, List.length_append, List.length_singleton, RtState.enqueue,
        List.length_append, List.length_singleton]
      omega
    · rw [hrt, RtState.enqueue, List.length_append]
      omega
    · rw [hadv, State.goto_pc_self] at hp
      cases hp

/-- An access that returns from its operation. -/
theorem CellInv.ret (h : CellInv E c) (hop : c.rt.queueOp a = some (q, op))
    (hsound : ReadyQueue.Sound kQueueCapacity (c.queue q) a)
    (hmoves : c.rt.OnlyMoves (c.access a q).rt a) (hidle : ((c.queue q).advance a).pc a = .idle)
    (henq : ((c.queue q).advance a).ring.enq = (c.queue q).ring.enq)
    (hdeq : ((c.queue q).advance a).ring.deq = (c.queue q).ring.deq)
    (hreach : Reach E (c.access a q).abs) : CellInv E (c.access a q) := by
  have hinv := (h.queues q).advance_of_sound capacity_kQueueCapacity (by decide) a hsound
  refine h.of_queue hop rfl hreach hinv (fun b hb => State.advance_pc_ne _ hb) hmoves.graph
    (fun b hb => hmoves.queueOp_eq hb) (.inl hidle) ?_ (fun k _ => by rw [hmoves.q]) ?_
  · rw [hmoves.q, h.logged q, State.queued, State.queued, henq, hdeq]
  · obtain ⟨start, hturn⟩ := h.turn
    refine ⟨start, hturn.access (h.queues q) hsound rfl ?_ ?_ fun v p hp => ?_⟩
    · rw [henq, hmoves.enq]
    · rw [hmoves.enq]
    · rw [hidle] at hp
      cases hp

/-- Who has returned stands where it stands. -/
theorem CellInv.pcOf_of_returned (h : CellInv E c) {b : Agent cfg}
    (hop : c.rt.queueOp (some b) = some (q, op))
    (hidle : ((c.queue q).advance (some b)).pc (some b) = .idle) :
    (c.access (some b) q).pcOf b = (c.access (some b) q).rt.pc b := by
  have hall (k : Qid cfg.gpuBlocks) : ((c.access (some b) q).queue k).pc (some b) = .idle := by
    rw [CellState.access]
    dsimp only
    by_cases hk : k = q
    · rw [hk, Function.update_self]
      exact hidle
    · rw [Function.update_of_ne hk]
      by_contra hne
      obtain ⟨op', hop', -⟩ := h.calls _ k hne
      rw [hop] at hop'
      exact hk (Prod.mk.inj (Option.some.inj hop')).1.symm
  cases hnew : (c.access (some b) q).rt.queueOp (some b) with
  | none => exact CellState.pcOf_eq hnew
  | some x => exact CellState.pcOf_of_quiet hnew (by rw [hall]; exact ⟨rfl, rfl⟩)

/-- What the protocol sees of a worker's or block's return. -/
theorem CellInv.abs_of_returned (h : CellInv E c) {b : Agent cfg}
    (hop : c.rt.queueOp (some b) = some (q, op))
    (hsound : ReadyQueue.Sound kQueueCapacity (c.queue q) (some b)) {p : Pc cfg.gpuBlocks}
    (hidle : ((c.queue q).advance (some b)).pc (some b) = .idle)
    (hrt : (c.access (some b) q).rt = c.rt.setPc b p) :
    (c.access (some b) q).abs = c.abs.setPc b p := by
  have hmoves : c.rt.OnlyMoves (c.access (some b) q).rt (some b) := by
    rw [hrt]
    exact RtState.onlyMoves_setPc p
  rw [CellState.abs_of_agent (b := b)
    (CellState.hostOf_congr (hmoves.queueOp_eq (by simp)) (hmoves.host (by simp))
      (h.sameView hsound (by simp)))
    fun b' hb => CellState.pcOf_congr (hmoves.queueOp_eq fun he => hb (Option.some.inj he))
      (hmoves.pc b' fun he => hb (Option.some.inj he))
      (h.sameView hsound fun he => hb (Option.some.inj he)),
    h.pcOf_of_returned hop hidle, hrt, RtState.setPc_pc_self]
  rfl

/-- A push returns. -/
theorem CellInv.pushDone (h : CellInv E c) (hop : c.rt.queueOp a = some (q, op))
    (hcov : op.Covers ((c.queue q).pc a))
    (hsound : ReadyQueue.Sound kQueueCapacity (c.queue q) a) {pos : UInt32}
    (hpc : (c.queue q).pc a = .pushDone pos) : CellInv E (c.access a q) := by
  have hadv : (c.queue q).advance a = (({ c.queue q with
      q := (c.queue q).q.storeSeq pos (pos + 1) }).note ((c.queue q).base a) .ready).ret a := by
    rw [State.advance, hpc]
  have hrt : (c.access a q).rt = c.rt.pushed a := by
    rw [CellState.access, RtState.afterAccess, hpc]
  have hidle : ((c.queue q).advance a).pc a = .idle := by
    rw [hadv]
    exact State.goto_pc_self _ _ _
  have hpush : ∃ v, op = .push v := by
    rw [hpc] at hcov
    cases op with
    | push v => exact ⟨v, rfl⟩
    | _ => exact hcov.elim
  obtain ⟨v, rfl⟩ := hpush
  cases a with
  | some b =>
    obtain ⟨G, ids, d, rel, hG, hp, -, -⟩ := RtState.queueOp_push hop
    rw [RtState.pushed_of_push hp] at hrt
    refine h.ret hop hsound (by rw [hrt]; exact RtState.onlyMoves_setPc _) hidle
      (by rw [hadv]; rfl) (by rw [hadv]; rfl) ?_
    have hold : c.pcOf b = .release ids rel := by
      rw [CellState.pcOf_of_pushing hop (by rw [hpc]; rfl) (by rw [hpc]; rfl),
        RtState.pushed_of_push hp, RtState.setPc_pc_self]
    have hsame : c.abs.setPc b (.release ids rel) = c.abs := by
      rw [RtState.setPc, ← hold]
      exact congrArg (fun pc => ({ c.abs with pc := pc } : RtState cfg))
        (Function.update_eq_self b c.pcOf)
    rw [h.abs_of_returned hop hsound hidle hrt, hsame]
    exact h.reach
  | none =>
    obtain ⟨G, i, hG, hp, -, -⟩ := RtState.queueOp_host hop
    rw [RtState.pushed_of_pushRoot hp] at hrt
    have hmoves : c.rt.OnlyMoves (c.access none q).rt none := by
      rw [hrt]
      exact ⟨rfl, rfl, rfl, fun _ _ => rfl, fun hne => absurd rfl hne⟩
    refine h.ret hop hsound hmoves hidle (by rw [hadv]; rfl) (by rw [hadv]; rfl) ?_
    have hold : c.hostOf = .publish (i + 1) := by
      rw [CellState.hostOf_of_pushing hop (by rw [hpc]; rfl), RtState.pushed_of_pushRoot hp]
    have hnew : (c.access none q).hostOf = .publish (i + 1) := by
      rw [CellState.hostOf_eq (RtState.queueOp_none_eq_none (by rw [hrt]; simp)), hrt]
    have hpcs : (c.access none q).pcOf = c.pcOf := funext fun b =>
      CellState.pcOf_congr (hmoves.queueOp_eq (by simp)) (hmoves.pc b (by simp))
        (h.sameView hsound (by simp))
    have hsame : (c.access none q).abs = c.abs := by
      rw [CellState.abs, CellState.abs, hpcs, hnew, hold, hrt]
    rw [hsame]
    exact h.reach

/-- A pop finds nothing. -/
theorem CellInv.miss (h : CellInv E c) (hop : c.rt.queueOp a = some (q, op))
    (hpop : ∀ v, op ≠ .push v) (hsound : ReadyQueue.Sound kQueueCapacity (c.queue q) a)
    (hquiet : ((c.queue q).pc a).quiet) (hadv : (c.queue q).advance a = (c.queue q).ret a)
    (hrt : (c.access a q).rt = c.rt.missed a) : CellInv E (c.access a q) := by
  have hidle : ((c.queue q).advance a).pc a = .idle := by
    rw [hadv]
    exact State.goto_pc_self _ _ _
  cases a with
  | none =>
    obtain ⟨_, i, -, -, -, hpush⟩ := RtState.queueOp_host hop
    exact absurd hpush (hpop _)
  | some b =>
    obtain ⟨-, qs, hp⟩ := RtState.queueOp_pop hop hpop
    rw [RtState.missed, hp] at hrt
    refine h.ret hop hsound (by rw [hrt]; exact RtState.onlyMoves_setPc _) hidle
      (by rw [hadv]; rfl) (by rw [hadv]; rfl) ?_
    rw [h.abs_of_returned hop hsound hidle hrt]
    exact h.reach.step (.miss ((CellState.pcOf_of_quiet hop hquiet).trans hp))

/-- A pop returns with what it has claimed. -/
theorem CellInv.deliver (h : CellInv E c) (hop : c.rt.queueOp a = some (q, op))
    (hpop : ∀ v, op ≠ .push v) (hsound : ReadyQueue.Sound kQueueCapacity (c.queue q) a)
    {light : Bool} {pos : UInt32} {m i : ℕ} {out : List UInt32}
    (hpc : (c.queue q).pc a = .recycle light pos m i out) (hlast : ¬ i + 1 < m) :
    CellInv E (c.access a q) := by
  have hat := ((h.queues q).threads a).at_pc
  rw [hpc] at hat
  obtain ⟨hi, -⟩ := hat
  have hrt : (c.access a q).rt = c.rt.popped (out.map UInt32.toNat) a := by
    rw [CellState.access, RtState.afterAccess, hpc]
    exact if_neg hlast
  have hadv : (c.queue q).advance a = (({ c.queue q with
      q := (c.queue q).q.storeSeq (pos + UInt32.ofNat i)
        (pos + UInt32.ofNat i + (c.queue q).q.mask + 1) }).note
          ((c.queue q).base a + i) .free).deliver a out := by
    rw [State.advance, hpc]
    exact if_neg hlast
  have hidle : ((c.queue q).advance a).pc a = .idle := by
    rw [hadv]
    exact State.goto_pc_self _ _ _
  cases a with
  | none =>
    obtain ⟨_, i, -, -, -, hpush⟩ := RtState.queueOp_host hop
    exact absurd hpush (hpop _)
  | some b =>
    rw [RtState.popped, (h.queues q).inHand_eq hpc hlast] at hrt
    refine h.ret hop hsound (by rw [hrt]; exact RtState.onlyMoves_setPc _) hidle
      (by rw [hadv]; rfl) (by rw [hadv]; rfl) ?_
    have hold := CellState.pcOf_of_taking hop (by rw [hpc, ReadyQueue.Pc.taking]; omega)
    have hsame : c.abs.setPc b
        (.exec ((c.queue q).inHand (some b)) ((c.queue q).inHand (some b)) []) = c.abs := by
      rw [RtState.setPc, ← hold]
      exact congrArg (fun pc => ({ c.abs with pc := pc } : RtState cfg))
        (Function.update_eq_self b c.pcOf)
    rw [h.abs_of_returned hop hsound hidle hrt, hsame]
    exact h.reach

/-- The compare-and-swap of a pop. -/
theorem CellInv.claim (h : CellInv E c) (hop : c.rt.queueOp a = some (q, op))
    (hcov : op.Covers ((c.queue q).pc a)) (hpop : ∀ v, op ≠ .push v)
    (hsound : ReadyQueue.Sound kQueueCapacity (c.queue q) a) (hquiet : ((c.queue q).pc a).quiet)
    {light : Bool} {pos : UInt32} {m : ℕ}
    (hadv : (c.queue q).advance a =
      ((c.queue q).advanceTail a pos m).goto a (.readVal light pos m 0 []))
    (hrt : (c.access a q).rt = c.rt.dequeue q m) (hm : 0 < m)
    (hready : (c.queue q).ring.AllReady (c.queue q).ring.deq.length m)
    (hbatch : ∀ b, a = some b → m ≤ b.batch) : CellInv E (c.access a q) := by
  have hinv := (h.queues q).advance_of_sound capacity_kQueueCapacity (by decide) a hsound
  have hnew : ((c.access a q).queue q).pc a = .readVal light pos m 0 [] := by
    rw [CellState.access, hadv]
    dsimp only
    rw [Function.update_self, State.goto_pc_self]
  have henq : ((c.queue q).advance a).ring.enq = (c.queue q).ring.enq := by rw [hadv]; rfl
  have hdeq : ((c.queue q).advance a).ring.deq =
      (c.queue q).ring.deq ++ List.replicate m a := by rw [hadv]; rfl
  have hops (b : Party cfg) : (c.access a q).rt.queueOp b = c.rt.queueOp b := by
    rw [hrt]
    cases b <;> rfl
  have hlen : m ≤ (c.rt.q q).length := by
    have hlast := hready (m - 1) (by omega)
    have hlt := (h.queues q).ok.lt_enq (by rw [hlast]; decide)
    rw [h.logged q, State.queued, List.length_map, List.length_drop]
    omega
  refine h.of_queue hop rfl ?_ hinv (fun b hb => State.advance_pc_ne _ hb) (by rw [hrt]; rfl)
    (fun b _ => hops b) ?_ ?_ (fun k hk => ?_) ?_
  · cases a with
    | none =>
      obtain ⟨_, i, -, -, -, hpush⟩ := RtState.queueOp_host hop
      exact absurd hpush (hpop _)
    | some b =>
      obtain ⟨-, qs, hp⟩ := RtState.queueOp_pop hop hpop
      have habs : c.abs.pc b = .poll (q :: qs) := (CellState.pcOf_of_quiet hop hquiet).trans hp
      have hhand : ((c.access (some b) q).queue q).inHand (some b) = (c.rt.q q).take m := by
        have hself : (c.access (some b) q).queue q = (c.queue q).advance (some b) :=
          Function.update_self ..
        rw [State.inHand, hnew, hself, henq, hadv, h.logged q, State.queued, ← List.map_take]
        exact congrArg (fun k => (((c.queue q).ring.enq.drop k).take m).map fun e => e.2.toNat)
          (State.advanceTail_base (c.queue q) (some b) pos m)
      rw [CellState.abs_of_agent (b := b)
        (CellState.hostOf_congr (hops _) (by rw [hrt]; rfl) (h.sameView hsound (by simp)))
        fun b' hb => CellState.pcOf_congr (hops _) (by rw [hrt]; rfl)
          (h.sameView hsound fun he => hb (Option.some.inj he)),
        CellState.pcOf_of_taking ((hops _).trans hop) (by rw [hnew]; exact hm), hhand, hrt]
      refine h.reach.step (.pop habs (List.take_append_drop m (c.rt.q q)).symm ?_ ?_)
      · rw [← List.length_pos_iff, List.length_take]
        omega
      · rw [List.length_take]
        exact (min_le_left _ _).trans (hbatch b rfl)
  · rcases ReadyQueue.Op.covers_advance hcov with hidle | hcov'
    · exact .inl hidle
    · exact .inr ⟨hops a, hcov'⟩
  · rw [hrt]
    change Function.update c.rt.q q ((c.rt.q q).drop m) q = _
    rw [Function.update_self, h.logged q, State.queued, State.queued, henq, hdeq,
      List.length_append, List.length_replicate, ← List.map_drop, List.drop_drop]
  · rw [hrt]
    exact Function.update_of_ne hk _ _
  · obtain ⟨start, hturn⟩ := h.turn
    refine ⟨start, hturn.access (h.queues q) hsound rfl ?_ ?_ fun w p hp => ?_⟩
    · rw [henq, hrt]
      rfl
    · rw [hrt]
      rfl
    · rw [hadv, State.goto_pc_self] at hp
      cases hp

/-- Every access keeps the invariant, if its claim finds the cells ready. -/
theorem CellInv.access (h : CellInv E c) (hop : c.rt.queueOp a = some (q, op))
    (hne : (c.queue q).pc a ≠ .idle) (hready : (c.queue q).ClaimsReady a) :
    CellInv E (c.access a q) := by
  obtain ⟨op', hop', hcov⟩ := h.calls a q hne
  obtain rfl : op' = op := (Prod.mk.inj (Option.some.inj (hop'.symm.trans hop))).2
  have hsound := h.sound hop hcov hready
  have hinv := h.queues q
  have hat := (hinv.threads a).at_pc
  have hrt : (c.access a q).rt = c.rt.afterAccess a q (c.queue q) := rfl
  -- an access that neither the history nor the run notices
  have look (hrt : c.rt.afterAccess a q (c.queue q) = c.rt)
      (hring : ((c.queue q).advance a).ring = (c.queue q).ring)
      (hquiet : ((c.queue q).pc a).quiet) (hquiet' : (((c.queue q).advance a).pc a).quiet)
      (hcopy : ∀ v pos, ((c.queue q).advance a).pc a = .pushSeq v pos →
        pos = (c.queue q).q.head) : CellInv E (c.access a q) :=
    h.look hop hcov hsound hrt (by rw [hring]) (by rw [hring]) (.of_quiet hquiet hquiet') hcopy
  rw [RtState.afterAccess] at hrt look
  rw [State.advance] at look
  cases hpc : (c.queue q).pc a with
  | idle => exact absurd hpc hne
  | pushLoad v =>
    rw [hpc] at look
    exact look rfl rfl ⟨rfl, rfl⟩ (by rw [State.readCursor_pc_self]; exact ⟨rfl, rfl⟩)
      (by simp)
  | pushSeq v pos =>
    rw [hpc] at look
    dsimp only at look
    split_ifs at look
    · exact look rfl rfl ⟨rfl, rfl⟩ (by rw [State.goto_pc_self]; exact ⟨rfl, rfl⟩) (by simp)
    · exact look rfl rfl ⟨rfl, rfl⟩ (by rw [State.ret_pc_self]; exact ⟨rfl, rfl⟩) (by simp)
    · exact look rfl rfl ⟨rfl, rfl⟩ (by rw [State.goto_pc_self]; exact ⟨rfl, rfl⟩) (by simp)
  | pushCas v pos =>
    by_cases heq : (c.queue q).q.head = pos
    · exact h.pushCas hop hcov hsound hpc heq
    · rw [hpc] at look
      dsimp only at look
      rw [if_neg heq, if_neg heq] at look
      exact look rfl rfl ⟨rfl, rfl⟩ (by rw [State.readCursor_pc_self]; exact ⟨rfl, rfl⟩)
        (by simp)
  | pushVal v pos =>
    have hadv : (c.queue q).advance a = ({ c.queue q with
        q := (c.queue q).q.storeVal pos v }.note ((c.queue q).base a) .stored).goto a
          (.pushDone pos) := by rw [State.advance, hpc]
    refine h.look hop hcov hsound (by rw [RtState.afterAccess, hpc]) (by rw [hadv]; rfl)
      (by rw [hadv]; rfl) ⟨?_, ?_, ?_⟩ (by simp [hadv])
    · rw [hadv, State.goto_pc_self, hpc]
      rfl
    · rw [hadv, State.goto_pc_self, hpc]
      rfl
    · rw [State.inHand, State.inHand, hadv, State.goto_pc_self, hpc]
      rfl
  | pushDone pos => exact h.pushDone hop hcov hsound hpc
  | popLoad =>
    rw [hpc] at look
    exact look rfl rfl ⟨rfl, rfl⟩ (by rw [State.readCursor_pc_self]; exact ⟨rfl, rfl⟩)
      (by simp)
  | popSeq pos =>
    rw [hpc] at look hrt hcov
    by_cases hneg : ReadyQueue.dif ((c.queue q).q.seqAt pos) (pos + 1) < 0
    · refine h.miss hop (by rintro v rfl; exact hcov) hsound (by rw [hpc]; exact ⟨rfl, rfl⟩) ?_
        (hrt.trans (if_pos hneg))
      rw [State.advance, hpc]
      dsimp only
      rw [if_neg (ne_of_lt hneg), if_pos hneg]
    · dsimp only at look
      rw [if_neg hneg, if_neg hneg] at look
      split_ifs at look
      · exact look rfl rfl ⟨rfl, rfl⟩ (by rw [State.goto_pc_self]; exact ⟨rfl, rfl⟩) (by simp)
      · exact look rfl rfl ⟨rfl, rfl⟩ (by rw [State.goto_pc_self]; exact ⟨rfl, rfl⟩) (by simp)
  | popCas pos =>
    rw [hpc] at look hrt
    by_cases heq : (c.queue q).q.tail = pos
    · have hadv : (c.queue q).advance a =
          ((c.queue q).advanceTail a pos 1).goto a (.readVal false pos 1 0 []) := by
        rw [State.advance, hpc]
        exact if_pos heq
      have hcells := hsound
      rw [ReadyQueue.Sound, hpc] at hcells
      refine h.claim hop hcov (by rintro v rfl; rw [hpc] at hcov; exact hcov) hsound
        (by rw [hpc]; exact ⟨rfl, rfl⟩) hadv (hrt.trans (if_pos heq)) Nat.one_pos (hcells heq)
        fun b _ => ?_
      cases b with
      | inl w => exact le_rfl
      | inr b => exact cfg.gpuBatch_pos
    · dsimp only at look
      rw [if_neg heq, if_neg heq] at look
      exact look rfl rfl ⟨rfl, rfl⟩ (by rw [State.readCursor_pc_self]; exact ⟨rfl, rfl⟩)
        (by simp)
  | bulkLoad light maxn =>
    rw [hpc] at look
    exact look rfl rfl ⟨rfl, rfl⟩ (by rw [State.readCursor_pc_self]; exact ⟨rfl, rfl⟩)
      (by simp)
  | bulkScan light maxn pos m =>
    rw [hpc] at look
    dsimp only at look
    split_ifs at look
    · exact look rfl rfl ⟨rfl, rfl⟩ (by rw [State.goto_pc_self]; exact ⟨rfl, rfl⟩) (by simp)
    · exact look rfl rfl ⟨rfl, rfl⟩ (by rw [State.goto_pc_self]; exact ⟨rfl, rfl⟩) (by simp)
    · exact look rfl rfl ⟨rfl, rfl⟩ (by rw [State.goto_pc_self]; exact ⟨rfl, rfl⟩) (by simp)
  | bulkEmpty light maxn pos =>
    rw [hpc] at look hrt hcov
    by_cases hneg : ReadyQueue.dif ((c.queue q).q.seqAt pos) (pos + 1) < 0
    · refine h.miss hop (by rintro v rfl; exact hcov) hsound (by rw [hpc]; exact ⟨rfl, rfl⟩) ?_
        (hrt.trans (if_pos hneg))
      rw [State.advance, hpc]
      exact if_pos hneg
    · dsimp only at look
      rw [if_neg hneg, if_neg hneg] at look
      exact look rfl rfl ⟨rfl, rfl⟩ (by rw [State.goto_pc_self]; exact ⟨rfl, rfl⟩) (by simp)
  | bulkCas light maxn pos m =>
    rw [hpc] at look hrt hat
    by_cases heq : (c.queue q).q.tail = pos
    · have hadv : (c.queue q).advance a =
          ((c.queue q).advanceTail a pos m).goto a (.readVal light pos m 0 []) := by
        rw [State.advance, hpc]
        exact if_pos heq
      have hcells := hsound
      rw [ReadyQueue.Sound, hpc] at hcells
      have hpop : ∀ v, op' ≠ .push v := by
        rintro v rfl
        rw [hpc] at hcov
        exact hcov
      refine h.claim hop hcov hpop hsound (by rw [hpc]; exact ⟨rfl, rfl⟩) hadv
        (hrt.trans (if_pos heq)) hat.1 (hcells heq) ?_
      rintro b rfl
      obtain ⟨rfl, -⟩ := RtState.queueOp_pop hop hpop
      rw [hpc] at hcov
      cases b with
      | inl w => exact hcov.elim
      | inr b =>
        have hbatch : (UInt32.ofNat cfg.gpuBatch).toNat = cfg.gpuBatch :=
          UInt32.toNat_ofNat_of_lt' (lt_of_le_of_lt cfg.gpuBatch_le (by decide))
        exact hcov.2.trans hbatch.le
    · dsimp only at look
      rw [if_neg heq, if_neg heq] at look
      exact look rfl rfl ⟨rfl, rfl⟩ (by rw [State.goto_pc_self]; exact ⟨rfl, rfl⟩) (by simp)
  | readVal light pos m i out =>
    refine h.look hop hcov hsound (by rw [RtState.afterAccess, hpc]) ?_ ?_ ⟨?_, ?_, ?_⟩ ?_
    · rw [State.advance, hpc]
      rfl
    · rw [State.advance, hpc]
      rfl
    · rw [State.advance, hpc]
      simp only [State.goto_pc_self]
      split_ifs <;> rfl
    · rw [State.advance, hpc]
      simp only [State.goto_pc_self]
      split_ifs <;> rfl
    · rw [State.inHand, State.inHand, State.advance, hpc]
      simp only [State.goto_pc_self]
      split_ifs <;> rfl
    · rw [State.advance, hpc]
      simp only [State.goto_pc_self]
      split_ifs <;> simp
  | recycle light pos m i out =>
    by_cases hlast : i + 1 < m
    · have hadv : (c.queue q).advance a = ({ c.queue q with
          q := (c.queue q).q.storeSeq (pos + UInt32.ofNat i)
            (pos + UInt32.ofNat i + (c.queue q).q.mask + 1) }.note
              ((c.queue q).base a + i) .free).goto a
                (if light then .recycle light pos m (i + 1) out
                  else .readVal light pos m (i + 1) out) := by
        rw [State.advance, hpc]
        exact if_pos hlast
      refine h.look hop hcov hsound (by rw [RtState.afterAccess, hpc]; exact if_pos hlast)
        (by rw [hadv]; rfl) (by rw [hadv]; rfl) ⟨?_, ?_, ?_⟩ ?_
      · rw [hadv, State.goto_pc_self, hpc]
        split_ifs <;> rfl
      · rw [hadv, State.goto_pc_self, hpc]
        split_ifs <;> rfl
      · rw [State.inHand, State.inHand, hadv, State.goto_pc_self, hpc]
        split_ifs <;> rfl
      · rw [hadv, State.goto_pc_self]
        split_ifs <;> simp
    · exact h.deliver hop (by rintro v rfl; rw [hpc] at hcov; exact hcov) hsound hpc hlast

/-! ## Runs -/

theorem CellInv.init (m : Loc → Word) (dep : ℕ → ℤ) (light : Bool) :
    CellInv E (.init cfg light m dep) := by
  have hop (a : Party cfg) : (CellState.init cfg light m dep).rt.queueOp a = none := by
    cases a <;> rfl
  constructor
  · have hpc : (CellState.init cfg light m dep).pcOf = fun _ => .idle :=
      funext fun b => CellState.pcOf_eq (hop b)
    rw [CellState.abs, hpc, CellState.hostOf_eq (hop none)]
    exact .init m dep
  · exact fun q => .init capacity_kQueueCapacity light
  · exact fun a q hne => absurd rfl hne
  · exact fun q => rfl
  · simp [CellState.init, RtState.init]
  · exact ⟨fun _ => 0, fun q => le_rfl, fun q k hk => absurd hk (Nat.not_lt_zero k),
      fun q => le_rfl, by simp [CellState.init, State.init]⟩

/-- The invariant holds in every run whose claims find their cells ready. -/
theorem CellReach.inv {light : Bool} (h : CellReach E light State.ClaimsReady c) :
    CellInv E c := by
  induction h with
  | init m dep => exact .init m dep light
  | @inner c l t _ hst hw hfits ih =>
    cases hl : l with
    | begin =>
      rw [hl] at hst
      exact ih.begin hst hfits
    | host touched => exact ih.inner hst hw (by rw [hl]; simp)
    | agent touched => exact ih.inner hst hw (by rw [hl]; simp)
  | call _ hop hidle ih => exact ih.call hop hidle
  | access _ hop hne hok ih => exact ih.access hop hne hok

/-- The queues in memory refine the protocol. -/
theorem CellReach.refines {light : Bool} (h : CellReach E light State.ClaimsReady c) :
    Reach E c.abs :=
  h.inv.reach

end

end
end FastLlm
