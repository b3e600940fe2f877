import FastLlm.Runtime.Cells
import FastLlm.Runtime.QueueRoom
import FastLlm.Runtime.QueueSafe

/-!
# The invariant of the runs over the queues in memory

A push or a claim happens for the protocol when its compare-and-swap succeeds.  Seen so, every
access is a step of the protocol or none, as long as a claim finds its cells ready; the lists of
the protocol are what the histories of the queues say is enqueued and not claimed.

Between two runs nobody holds a task, so every position of every queue is recycled.  A run
enqueues at most as many tasks as a queue has cells.  So the cell of a push was left free by
an earlier run, or has never been used.

## Main definitions

* `CellState.abs` — the state of the protocol.
* `Turn` — what a run has enqueued, and the positions of earlier runs.
* `CellInv` — the invariant; `CellInv.inner`, `CellInv.begin` and `CellInv.call` keep it.
-/

namespace FastLlm
open ReadyQueue (wrap State)

namespace ReadyQueue

section
variable {ι : Type}

/-- The tasks a thread has claimed and not returned with. -/
def State.inHand (t : State ι) (a : ι) : List ℕ :=
  ((t.ring.enq.drop (t.base a)).take (t.pc a).taking).map fun e => e.2.toNat

/-- The tasks nobody has claimed. -/
def State.queued (t : State ι) : List ℕ :=
  (t.ring.enq.drop t.ring.deq.length).map fun e => e.2.toNat

/-- `pc` is a place in operation `op`. -/
def Op.Covers : Op → Pc → Prop
  | .push v, pc =>
    match pc with
    | .pushLoad w | .pushSeq w _ | .pushCas w _ | .pushVal w _ => w = v
    | .pushDone _ => True
    | _ => False
  | .pop, pc =>
    match pc with
    | .popLoad | .popSeq _ | .popCas _ | .readVal .. | .recycle .. => True
    | _ => False
  | .popBulk n, pc | .popBulkLight n, pc =>
    match pc with
    | .bulkLoad _ k | .bulkEmpty _ k _ => k = n
    | .bulkScan _ k _ m | .bulkCas _ k _ m => k = n ∧ m ≤ n.toNat
    | .readVal .. | .recycle .. => True
    | _ => False

variable [DecidableEq ι]

@[simp] theorem State.readCursor_pc_self (s : State ι) (t : ι) (p : Pc) :
    (s.readCursor t p).pc t = p :=
  s.goto_pc_self t p

@[simp] theorem State.ret_pc_self (s : State ι) (t : ι) : (s.ret t).pc t = .idle :=
  s.goto_pc_self t .idle

theorem Op.covers_call (op : Op) (s : State ι) (t : ι) : op.Covers ((s.call t op).pc t) := by
  cases op <;> simp [State.call, Op.Covers]

/-- An access stays in its operation or returns from it. -/
theorem Op.covers_advance {op : Op} {s : State ι} {t : ι} (h : op.Covers (s.pc t)) :
    (s.advance t).pc t = .idle ∨ op.Covers ((s.advance t).pc t) := by
  rw [State.advance]
  cases op with
  | push v =>
    cases hpc : s.pc t <;> rw [hpc] at h <;> first | exact h.elim | dsimp only
    all_goals (try split_ifs) <;> simp_all [Covers, State.readCursor, State.ret]
  | pop =>
    cases hpc : s.pc t <;> rw [hpc] at h <;> first | exact h.elim | dsimp only
    all_goals (try split_ifs) <;> simp_all [Covers, State.readCursor, State.ret, State.deliver]
  | popBulk n | popBulkLight n =>
    cases hpc : s.pc t <;> rw [hpc] at h <;> first | exact h.elim | dsimp only
    all_goals
      (try split_ifs) <;>
        simp_all [Covers, State.readCursor, State.ret, State.deliver, Nat.add_one_le_iff]

end

end ReadyQueue

section
variable {cfg : RtConfig}

/-! ## Where a party stands for the protocol -/

namespace RtState
variable {s t : RtState cfg} {a b : Agent cfg} {q : Qid cfg.gpuBlocks} {op : ReadyQueue.Op}

@[simp] theorem setPc_pc_self (p : Pc cfg.gpuBlocks) : (s.setPc a p).pc a = p :=
  Function.update_self ..

theorem setPc_pc_ne (p : Pc cfg.gpuBlocks) (h : b ≠ a) : (s.setPc a p).pc b = s.pc b :=
  Function.update_of_ne h ..

theorem pushed_of_push {ids : List ℕ} {d : ℕ} {rel : List (ℕ × ℕ)}
    (h : s.pc a = .push ids d rel) : s.pushed (some a) = s.setPc a (.release ids rel) := by
  rw [pushed, h]

theorem pushed_of_pushRoot {i : ℕ} (h : s.host = .pushRoot i) :
    s.pushed none = { s with host := .publish (i + 1) } := by
  rw [pushed, h]

theorem queueOp_push {v : UInt32} (h : s.queueOp (some a) = some (q, .push v)) :
    ∃ G ids d rel, s.graph = some G ∧ s.pc a = .push ids d rel ∧
      q = publishQueue cfg a.isGpu d (G.task d).toTaskParams ∧ v = UInt32.ofNat d := by
  rw [queueOp] at h
  split at h
  · next G ids d rel hG hp =>
    obtain ⟨rfl, hop⟩ := Prod.mk.inj (Option.some.inj h)
    exact ⟨G, ids, d, rel, hG, hp, rfl, (ReadyQueue.Op.push.inj hop).symm⟩
  · obtain ⟨-, hop⟩ := Prod.mk.inj (Option.some.inj h)
    cases a <;> cases hop
  · cases h

theorem queueOp_pop (h : s.queueOp (some a) = some (q, op)) (hop : ∀ v, op ≠ .push v) :
    op = a.popOp ∧ ∃ qs, s.pc a = .poll (q :: qs) := by
  rw [queueOp] at h
  split at h
  · obtain ⟨-, hpush⟩ := Prod.mk.inj (Option.some.inj h)
    exact absurd hpush.symm (hop _)
  · next hp =>
    obtain ⟨rfl, rfl⟩ := Prod.mk.inj (Option.some.inj h)
    exact ⟨rfl, _, hp⟩
  · cases h

theorem queueOp_host (h : s.queueOp none = some (q, op)) : ∃ G i, s.graph = some G ∧
    s.host = .pushRoot i ∧ q = publishQueue cfg false i (G.task i).toTaskParams ∧
      op = .push (UInt32.ofNat i) := by
  rw [queueOp] at h
  split at h
  · next G i hG hp =>
    obtain ⟨rfl, rfl⟩ := Prod.mk.inj (Option.some.inj h)
    exact ⟨G, i, hG, hp, rfl, rfl⟩
  · cases h

theorem queueOp_congr (hgraph : t.graph = s.graph) (hpc : t.pc a = s.pc a) :
    t.queueOp (some a) = s.queueOp (some a) := by
  rw [queueOp, queueOp, hgraph, hpc]

theorem queueOp_none_congr (hgraph : t.graph = s.graph) (hhost : t.host = s.host) :
    t.queueOp none = s.queueOp none := by
  rw [queueOp, queueOp, hgraph, hhost]

/-- Nobody but `a` has moved. -/
structure OnlyMoves (s t : RtState cfg) (a : Party cfg) : Prop where
  graph : t.graph = s.graph
  q : t.q = s.q
  enq : t.enq = s.enq
  pc : ∀ b, some b ≠ a → t.pc b = s.pc b
  host : none ≠ a → t.host = s.host

theorem OnlyMoves.queueOp_eq {a : Party cfg} (h : s.OnlyMoves t a) {b : Party cfg} (hb : b ≠ a) :
    t.queueOp b = s.queueOp b := by
  cases b with
  | none => exact queueOp_none_congr h.graph (h.host hb)
  | some b => exact queueOp_congr h.graph (h.pc b hb)

theorem onlyMoves_setPc (p : Pc cfg.gpuBlocks) : s.OnlyMoves (s.setPc a p) (some a) :=
  ⟨rfl, rfl, rfl, fun _ hb => setPc_pc_ne p fun he => hb (congrArg some he), fun _ => rfl⟩

/-- Only polls and pushes are queue operations. -/
theorem queueOp_eq_none (hpoll : ∀ k qs, s.pc a ≠ .poll (k :: qs))
    (hpush : ∀ ids d rel, s.pc a ≠ .push ids d rel) : s.queueOp (some a) = none := by
  rw [queueOp]
  split
  · next hp => exact absurd hp (hpush _ _ _)
  · next hp => exact absurd hp (hpoll _ _)
  · rfl

theorem queueOp_none_eq_none (h : ∀ i, s.host ≠ .pushRoot i) : s.queueOp none = none := by
  rw [queueOp]
  split
  · next hp => exact absurd hp (h _)
  · rfl

end RtState

namespace CellState

/-- Where a worker or block stands for the protocol. -/
def pcOf (c : CellState cfg) (a : Agent cfg) : Pc cfg.gpuBlocks :=
  match c.rt.queueOp (some a) with
  | none => c.rt.pc a
  | some (q, _) =>
    let t := c.queue q
    if 0 < (t.pc (some a)).taking then .exec (t.inHand (some a)) (t.inHand (some a)) []
    else if (t.pc (some a)).pushing then (c.rt.pushed (some a)).pc a
    else c.rt.pc a

/-- Where the host stands for the protocol. -/
def hostOf (c : CellState cfg) : HostPc :=
  match c.rt.queueOp none with
  | none => c.rt.host
  | some (q, _) =>
    if ((c.queue q).pc none).pushing then (c.rt.pushed none).host else c.rt.host

/-- The state of the protocol. -/
def abs (c : CellState cfg) : RtState cfg := { c.rt with pc := c.pcOf, host := c.hostOf }

variable {c : CellState cfg} {a : Agent cfg} {q : Qid cfg.gpuBlocks} {op : ReadyQueue.Op}

theorem pcOf_eq (h : c.rt.queueOp (some a) = none) : c.pcOf a = c.rt.pc a := by
  rw [pcOf, h]

theorem hostOf_eq (h : c.rt.queueOp none = none) : c.hostOf = c.rt.host := by
  rw [hostOf, h]

/-- A party that has not enqueued or claimed anything stands where it stands. -/
theorem pcOf_of_quiet (hop : c.rt.queueOp (some a) = some (q, op))
    (hquiet : ((c.queue q).pc (some a)).quiet) : c.pcOf a = c.rt.pc a := by
  rw [pcOf, hop]
  dsimp only
  rw [if_neg (by rw [hquiet.1]; exact lt_irrefl 0), if_neg (by rw [hquiet.2]; decide)]

theorem hostOf_of_quiet (hop : c.rt.queueOp none = some (q, op))
    (hquiet : ((c.queue q).pc none).quiet) : c.hostOf = c.rt.host := by
  rw [hostOf, hop]
  dsimp only
  rw [if_neg (by rw [hquiet.2]; decide)]

theorem pcOf_of_pushing (hop : c.rt.queueOp (some a) = some (q, op))
    (htaking : ((c.queue q).pc (some a)).taking = 0)
    (hpushing : ((c.queue q).pc (some a)).pushing = true) :
    c.pcOf a = (c.rt.pushed (some a)).pc a := by
  rw [pcOf, hop]
  dsimp only
  rw [if_neg (by rw [htaking]; exact lt_irrefl 0), if_pos hpushing]

theorem hostOf_of_pushing (hop : c.rt.queueOp none = some (q, op))
    (hpushing : ((c.queue q).pc none).pushing = true) :
    c.hostOf = (c.rt.pushed none).host := by
  rw [hostOf, hop]
  dsimp only
  rw [if_pos hpushing]

theorem pcOf_of_taking (hop : c.rt.queueOp (some a) = some (q, op))
    (htaking : 0 < ((c.queue q).pc (some a)).taking) :
    c.pcOf a = .exec ((c.queue q).inHand (some a)) ((c.queue q).inHand (some a)) [] := by
  rw [pcOf, hop]
  dsimp only
  rw [if_pos htaking]

end CellState

/-- What the protocol sees of a thread in a queue. -/
structure SameView {ι : Type} (t t' : ReadyQueue.State ι) (b : ι) : Prop where
  taking : (t'.pc b).taking = (t.pc b).taking
  pushing : (t'.pc b).pushing = (t.pc b).pushing
  inHand : t'.inHand b = t.inHand b

namespace CellState
variable {c c' : CellState cfg} {a : Agent cfg} {q : Qid cfg.gpuBlocks}

theorem pcOf_congr (hop : c'.rt.queueOp (some a) = c.rt.queueOp (some a))
    (hpc : c'.rt.pc a = c.rt.pc a) (hsame : ∀ q, SameView (c.queue q) (c'.queue q) (some a)) :
    c'.pcOf a = c.pcOf a := by
  rw [pcOf, pcOf, hop, RtState.pushed, RtState.pushed, hpc]
  split
  · rfl
  · next k _ _ =>
    dsimp only
    rw [(hsame k).taking, (hsame k).pushing, (hsame k).inHand]
    split_ifs
    · rfl
    · split
      · simp [RtState.setPc]
      · exact hpc
    · rfl

theorem hostOf_congr (hop : c'.rt.queueOp none = c.rt.queueOp none)
    (hhost : c'.rt.host = c.rt.host) (hsame : ∀ q, SameView (c.queue q) (c'.queue q) none) :
    c'.hostOf = c.hostOf := by
  rw [hostOf, hostOf, hop, RtState.pushed, RtState.pushed, hhost]
  split
  · rfl
  · next k _ _ =>
    rw [(hsame k).pushing]
    split_ifs
    · split
      · rfl
      · exact hhost
    · rfl

end CellState

/-! ## The invariant -/

/-- The positions below `start` belong to earlier runs and are free; the current run enqueues from
there on. -/
structure Turn (c : CellState cfg) (start : Qid cfg.gpuBlocks → ℕ) : Prop where
  le : ∀ q, start q ≤ (c.queue q).ring.enq.length
  free : ∀ q k, k < start q → (c.queue q).ring.phase k = .free
  room : ∀ q, (c.queue q).ring.enq.length ≤ start q + c.rt.enq.length
  copy : ∀ q a v pos, (c.queue q).pc a = .pushSeq v pos →
    ∃ p, start q ≤ p ∧ p ≤ (c.queue q).ring.enq.length ∧ pos = wrap p

/-- The invariant over any sequence of runs. -/
structure CellInv (E : FloatOps) (c : CellState cfg) : Prop where
  reach : Reach E c.abs
  queues : ∀ q, ReadyQueue.Inv kQueueCapacity (c.queue q)
  calls : ∀ a q, (c.queue q).pc a ≠ .idle →
    ∃ op, c.rt.queueOp a = some (q, op) ∧ op.Covers ((c.queue q).pc a)
  logged : ∀ q, c.rt.q q = (c.queue q).queued
  fits : ∀ G, c.rt.graph = some G → G.n ≤ kQueueCapacity
  turn : ∃ start, Turn c start

theorem capacity_kQueueCapacity : ReadyQueue.Capacity kQueueCapacity := ⟨⟨16, rfl⟩, by decide⟩

namespace ReadyQueue
variable {ι : Type} {t : State ι} {a b : ι}

/-- A thread claims no more than is enqueued. -/
theorem Inv.base_add_taking_le (h : Inv kQueueCapacity t) (hpos : 0 < (t.pc b).taking) :
    t.base b + (t.pc b).taking ≤ t.ring.enq.length := by
  have hat := (h.threads b).at_pc
  have hle := h.ok.deq_le_enq
  have hmine (m : ℕ) (hm : (t.pc b).taking = m)
      (hall : ∀ j < m, t.ring.deq[t.base b + j]? = some b) :
      t.base b + (t.pc b).taking ≤ t.ring.deq.length := by
    have hlast := hall (m - 1) (by omega)
    have hlt := (List.getElem?_eq_some_iff.mp hlast).1
    omega
  refine le_trans ?_ hle
  cases hpc : t.pc b with
  | readVal light pos m i out =>
    rw [hpc] at hat
    rw [← hpc]
    exact hmine m (by rw [hpc]; rfl) hat.2.2.mine
  | recycle light pos m i out =>
    rw [hpc] at hat
    rw [← hpc]
    exact hmine m (by rw [hpc]; rfl) hat.2.2.mine
  | _ =>
    rw [hpc] at hpos
    exact absurd hpos (lt_irrefl 0)

variable [DecidableEq ι]

/-- The other threads look the same after an access. -/
theorem Inv.sameView_of_ne (h : Inv kQueueCapacity t) (hsound : Sound kQueueCapacity t a)
    (hb : b ≠ a) : SameView t (t.advance a) b where
  taking := by rw [t.advance_pc_ne hb]
  pushing := by rw [t.advance_pc_ne hb]
  inHand := by
    rw [State.inHand, State.inHand, t.advance_pc_ne hb, t.advance_base_ne hb]
    have hmove := h.move a hsound
    obtain ⟨l, hl⟩ := hmove.enq_prefix
    rw [← hl]
    rcases Nat.eq_zero_or_pos (t.pc b).taking with hzero | hpos
    · rw [hzero, List.take_zero, List.take_zero]
    · have hle := h.base_add_taking_le hpos
      rw [List.drop_append_of_le_length (by omega), List.take_append_of_le_length]
      rw [List.length_drop]
      omega

end ReadyQueue

namespace Turn
variable {c c' : CellState cfg} {start : Qid cfg.gpuBlocks → ℕ} {a : Party cfg}
  {q : Qid cfg.gpuBlocks}

/-- An access keeps it, if the run logs what is enqueued. -/
theorem access (h : Turn c start) (hinv : ReadyQueue.Inv kQueueCapacity (c.queue q))
    (hsound : ReadyQueue.Sound kQueueCapacity (c.queue q) a)
    (hqueue : c'.queue = Function.update c.queue q ((c.queue q).advance a))
    (hlog : ((c.queue q).advance a).ring.enq.length + c.rt.enq.length ≤
      (c.queue q).ring.enq.length + c'.rt.enq.length)
    (henq : c.rt.enq.length ≤ c'.rt.enq.length)
    (hcopy : ∀ v pos, ((c.queue q).advance a).pc a = .pushSeq v pos →
      pos = wrap ((c.queue q).advance a).ring.enq.length) : Turn c' start := by
  have hmove := hinv.move a hsound
  have hself : c'.queue q = (c.queue q).advance a := by rw [hqueue, Function.update_self]
  have hother (k : Qid cfg.gpuBlocks) (hk : k ≠ q) : c'.queue k = c.queue k := by
    rw [hqueue, Function.update_of_ne hk]
  constructor
  · intro k
    by_cases hk : k = q
    · rw [hk, hself]
      exact (h.le q).trans hmove.enq_le
    · rw [hother k hk]
      exact h.le k
  · intro k i hi
    by_cases hk : k = q
    · rw [hk] at hi ⊢
      rw [hself]
      exact hmove.free hinv.ok (h.free q i hi)
    · rw [hother k hk]
      exact h.free k i hi
  · intro k
    by_cases hk : k = q
    · have hroom := h.room q
      rw [hk, hself]
      omega
    · rw [hother k hk]
      exact (h.room k).trans (Nat.add_le_add_left henq _)
  · intro k b v pos hpc
    by_cases hk : k = q
    · rw [hk, hself] at hpc
      rw [hk, hself]
      by_cases hb : b = a
      · rw [hb] at hpc
        exact ⟨_, (h.le q).trans hmove.enq_le, le_rfl, hcopy v pos hpc⟩
      · rw [(c.queue q).advance_pc_ne hb] at hpc
        obtain ⟨p, hp, hple, hpos⟩ := h.copy q b v pos hpc
        exact ⟨p, hp, hple.trans hmove.enq_le, hpos⟩
    · rw [hother k hk] at hpc ⊢
      exact h.copy k b v pos hpc

end Turn

/-! ## Steps that are no queue operation -/

namespace RtState.Waits
variable {s t : RtState cfg} {G : FrozenGraph} {a : Agent cfg}

theorem host_eq (h : s.Waits t) (hG : s.graph = some G) {i : ℕ} (hp : s.host = .pushRoot i) :
    t.host = .pushRoot i :=
  (h.host (by simp [queueOp, hG, hp])).trans hp

theorem poll_eq (h : s.Waits t) {q : Qid cfg.gpuBlocks} {qs : List (Qid cfg.gpuBlocks)}
    (hp : s.pc a = .poll (q :: qs)) : t.pc a = .poll (q :: qs) :=
  (h.pc a (by simp [queueOp, hp])).trans hp

theorem push_eq (h : s.Waits t) (hG : s.graph = some G) {ids : List ℕ} {d : ℕ}
    {rel : List (ℕ × ℕ)} (hp : s.pc a = .push ids d rel) : t.pc a = .push ids d rel :=
  (h.pc a (by simp [queueOp, hG, hp])).trans hp

end RtState.Waits

/-- They enqueue nothing. -/
theorem Step.log_eq {E : FloatOps} {s t : RtState cfg} {l : Label} (hst : Step E s l t)
    (hw : s.Waits t) (hl : l ≠ .begin) : t.graph = s.graph ∧ t.q = s.q ∧ t.enq = s.enq := by
  cases hst with
  | begin => exact absurd rfl hl
  | pushRoot hG hp => cases hw.host_eq hG hp
  | pop hp =>
    have hsame := hw.poll_eq hp
    rw [RtState.setPc_pc_self] at hsame
    cases hsame
  | push hG hp =>
    have hsame := hw.push_eq hG hp
    rw [RtState.setPc_pc_self] at hsame
    cases hsame
  | _ => exact ⟨rfl, rfl, rfl⟩

/-- They do not depend on where the parties stand that have come to one. -/
theorem Step.lift {E : FloatOps} {s t : RtState cfg} {l : Label} (hst : Step E s l t)
    (hw : s.Waits t) (hl : l ≠ .begin) {f f' : Agent cfg → Pc cfg.gpuBlocks} {h h' : HostPc}
    (hout : ∀ a, s.queueOp (some a) = none → f a = s.pc a ∧ f' a = t.pc a)
    (hin : ∀ a, (s.queueOp (some a)).isSome → f' a = f a)
    (hhout : s.queueOp none = none → h = s.host ∧ h' = t.host)
    (hhin : (s.queueOp none).isSome → h' = h) :
    Step E { s with pc := f, host := h } l { t with pc := f', host := h' } := by
  have hstays (b : Agent cfg) (hb : t.pc b = s.pc b) : f' b = f b := by
    cases hop : s.queueOp (some b) with
    | none => rw [(hout b hop).1, (hout b hop).2, hb]
    | some x => exact hin b (by rw [hop]; rfl)
  have hhost (hb : t.host = s.host) : h' = h := by
    cases hop : s.queueOp none with
    | none => rw [(hhout hop).1, (hhout hop).2, hb]
    | some x => exact hhin (by rw [hop]; rfl)
  -- the party that moves, and the others
  have agent {a : Agent cfg} {p p' : Pc cfg.gpuBlocks} (hp : s.pc a = p)
      (hpoll : ∀ k qs, p ≠ .poll (k :: qs)) (hpush : ∀ ids d rel, p ≠ .push ids d rel)
      (hpc : t.pc = Function.update s.pc a p') (hth : t.host = s.host) :
      f a = p ∧ f' = Function.update f a p' ∧ h' = h := by
    obtain ⟨hfa, hfa'⟩ := hout a
      (RtState.queueOp_eq_none (by rw [hp]; exact hpoll) (by rw [hp]; exact hpush))
    refine ⟨hfa.trans hp, funext fun b => ?_, hhost hth⟩
    by_cases hb : b = a
    · rw [hb, hfa', hpc, Function.update_self, Function.update_self]
    · rw [Function.update_of_ne hb]
      exact hstays b (by rw [hpc, Function.update_of_ne hb])
  have host {p : HostPc} (hp : s.host = p) (hroot : ∀ i, p ≠ .pushRoot i) (hpc : t.pc = s.pc) :
      f' = f ∧ h = p ∧ h' = t.host := by
    obtain ⟨hh, hh'⟩ := hhout (RtState.queueOp_none_eq_none (by rw [hp]; exact hroot))
    exact ⟨funext fun b => hstays b (by rw [hpc]), hh.trans hp, hh'⟩
  cases hst with
  | begin => exact absurd rfl hl
  | hostWrite m ho =>
    obtain ⟨rfl, rfl, rfl⟩ := host ho (by simp) rfl
    rw [ho]
    exact .hostWrite (s := { s with pc := f', host := .outside }) m rfl
  | @reset G i hG hr hi =>
    obtain ⟨rfl, rfl, rfl⟩ := host hr (by simp) rfl
    exact .reset (s := { s with pc := f', host := .reset i }) hG rfl hi
  | @activate G i hG hr hi =>
    obtain ⟨rfl, rfl, rfl⟩ := host hr (by simp) rfl
    exact .activate (s := { s with pc := f', host := .reset i }) hG rfl hi
  | @skipTask G i hG hr hi hne =>
    obtain ⟨rfl, rfl, rfl⟩ := host hr (by simp) rfl
    exact .skipTask (s := { s with pc := f', host := .publish i }) hG rfl hi hne
  | @foundRoot G i hG hr hi hz =>
    obtain ⟨rfl, rfl, rfl⟩ := host hr (by simp) rfl
    exact .foundRoot (s := { s with pc := f', host := .publish i }) hG rfl hi hz
  | @published G i hG hr hi =>
    obtain ⟨rfl, rfl, rfl⟩ := host hr (by simp) rfl
    exact .published (s := { s with pc := f', host := .publish i }) hG rfl hi
  | finishRun hG hr hd hn =>
    obtain ⟨rfl, rfl, rfl⟩ := host hr (by simp) rfl
    exact .finishRun (s := { s with pc := f', host := .wait }) hG rfl hd hn
  | @pushRoot G i q hG hp hq hroom =>
    cases hw.host_eq hG hp
  | @startPoll a rr hp hact =>
    obtain ⟨hfa, rfl, rfl⟩ := agent hp (by simp) (by simp) rfl rfl
    exact .startPoll (s := { s with pc := f, host := h' }) rr hfa hact
  | @miss a q qs hp =>
    have hsame := hw.poll_eq hp
    rw [RtState.setPc_pc_self] at hsame
    exact absurd (Pc.poll.inj hsame) (List.ne_cons_self)
  | @endPoll a hp =>
    obtain ⟨hfa, rfl, rfl⟩ := agent hp (by simp) (by simp) rfl rfl
    exact .endPoll (s := { s with pc := f, host := h' }) hfa
  | @pop a q qs ids rest hp hq hne hlen =>
    have hsame := hw.poll_eq hp
    rw [RtState.setPc_pc_self] at hsame
    cases hsame
  | @startTask G a ids todo i running hG hp =>
    obtain ⟨hfa, rfl, rfl⟩ := agent hp (by simp) (by simp) rfl rfl
    exact .startTask (s := { s with pc := f, host := h' }) hG hfa
  | @read a ids todo i l k r₁ r₂ hp =>
    obtain ⟨hfa, rfl, rfl⟩ := agent hp (by simp) (by simp) rfl rfl
    exact .read (s := { s with pc := f, host := h' }) hfa
  | @write a ids todo i l v k r₁ r₂ hp =>
    obtain ⟨hfa, rfl, rfl⟩ := agent hp (by simp) (by simp) rfl rfl
    exact .write (s := { s with pc := f, host := h' }) hfa
  | @finishTask a ids todo i r₁ r₂ hp =>
    obtain ⟨hfa, rfl, rfl⟩ := agent hp (by simp) (by simp) rfl rfl
    exact .finishTask (s := { s with pc := f, host := h' }) hfa
  | @execDone a ids hp =>
    obtain ⟨hfa, rfl, rfl⟩ := agent hp (by simp) (by simp) rfl rfl
    exact .execDone (s := { s with pc := f, host := h' }) hfa
  | @mark G a ids todo i hG hp =>
    obtain ⟨hfa, rfl, rfl⟩ := agent hp (by simp) (by simp) rfl rfl
    exact .mark (s := { s with pc := f, host := h' }) hG hfa
  | @markDone G a ids hG hp =>
    obtain ⟨hfa, rfl, rfl⟩ := agent hp (by simp) (by simp) rfl rfl
    exact .markDone (s := { s with pc := f, host := h' }) hG hfa
  | @release a ids d k rel hp =>
    obtain ⟨hfa, rfl, rfl⟩ := agent hp (by simp) (by simp) rfl rfl
    exact .release (s := { s with pc := f, host := h' }) hfa
  | @push G a ids d rel q hG hp hq hroom =>
    have hsame := hw.push_eq hG hp
    rw [RtState.setPc_pc_self] at hsame
    cases hsame
  | @countDone a ids hp =>
    obtain ⟨hfa, rfl, rfl⟩ := agent hp (by simp) (by simp) rfl rfl
    exact .countDone (s := { s with pc := f, host := h' }) hfa

/-! ## The invariant is kept -/

section
variable {E : FloatOps} {c : CellState cfg} {a : Party cfg} {q : Qid cfg.gpuBlocks}
  {op : ReadyQueue.Op}

/-- A party between two batches has claimed nothing. -/
theorem CellState.idle_of_pcOf {a : Agent cfg} (h : (c.pcOf a).Idle) : (c.rt.pc a).Idle ∧
    ∀ q op, c.rt.queueOp (some a) = some (q, op) → ((c.queue q).pc (some a)).taking = 0 := by
  rw [pcOf] at h
  cases hop : c.rt.queueOp (some a) with
  | none =>
    rw [hop] at h
    exact ⟨h, by simp⟩
  | some x =>
    obtain ⟨q, op⟩ := x
    rw [hop] at h
    dsimp only at h
    split_ifs at h with htaking hpushing
    · exact h.elim
    · refine ⟨?_, fun q' op' hq' => ?_⟩
      · rw [RtState.pushed] at h
        split at h
        · rw [RtState.setPc_pc_self] at h
          exact h.elim
        · exact h
      · obtain ⟨rfl, -⟩ := Prod.mk.inj (Option.some.inj hq')
        exact Nat.eq_zero_of_not_pos htaking
    · refine ⟨h, fun q' op' hq' => ?_⟩
      obtain ⟨rfl, -⟩ := Prod.mk.inj (Option.some.inj hq')
      exact Nat.eq_zero_of_not_pos htaking

/-- A party that has come to no queue operation is in none. -/
theorem CellInv.idle_of_queueOp (h : CellInv E c) (hop : c.rt.queueOp a = none)
    (q : Qid cfg.gpuBlocks) : (c.queue q).pc a = .idle := by
  by_contra hne
  obtain ⟨op, hop', -⟩ := h.calls a q hne
  rw [hop] at hop'
  cases hop'

theorem CellInv.inner (h : CellInv E c) {l : Label} {t : RtState cfg} (hst : Step E c.rt l t)
    (hw : c.rt.Waits t) (hl : l ≠ .begin) : CellInv E { c with rt := t } := by
  obtain ⟨hgraph, hq, henq⟩ := hst.log_eq hw hl
  have hops (b : Party cfg) (hb : (c.rt.queueOp b).isSome) : t.queueOp b = c.rt.queueOp b := by
    cases b with
    | none => exact RtState.queueOp_none_congr hgraph (hw.host hb)
    | some b => exact RtState.queueOp_congr hgraph (hw.pc b hb)
  have hquiet (b : Party cfg) (hb : c.rt.queueOp b = none) (q : Qid cfg.gpuBlocks) :
      ((c.queue q).pc b).quiet := by
    rw [h.idle_of_queueOp hb q]
    exact ⟨rfl, rfl⟩
  have hsame (q : Qid cfg.gpuBlocks) (b : Party cfg) : SameView (c.queue q) (c.queue q) b :=
    ⟨rfl, rfl, rfl⟩
  constructor
  · refine h.reach.step (hst.lift hw hl (fun b hb => ⟨CellState.pcOf_eq hb, ?_⟩)
      (fun b hb => CellState.pcOf_congr (hops _ hb) (hw.pc b hb) fun q => hsame q _)
      (fun hb => ⟨CellState.hostOf_eq hb, ?_⟩)
      fun hb => CellState.hostOf_congr (hops _ hb) (hw.host hb) fun q => hsame q _)
    · cases hop : t.queueOp (some b) with
      | none => exact CellState.pcOf_eq hop
      | some x => exact CellState.pcOf_of_quiet hop (hquiet _ hb x.1)
    · cases hop : t.queueOp none with
      | none => exact CellState.hostOf_eq hop
      | some x => exact CellState.hostOf_of_quiet hop (hquiet _ hb x.1)
  · exact h.queues
  · intro b q hne
    obtain ⟨op, hop, hcov⟩ := h.calls b q hne
    exact ⟨op, (hops b (by rw [hop]; rfl)).trans hop, hcov⟩
  · intro q
    rw [hq]
    exact h.logged q
  · rw [hgraph]
    exact h.fits
  · obtain ⟨start, hturn⟩ := h.turn
    refine ⟨start, hturn.le, hturn.free, fun q => ?_, hturn.copy⟩
    rw [henq]
    exact hturn.room q

/-- The host is outside of a run: what parties stand before are polls. -/
theorem CellInv.poll_of_outside (h : CellInv E c) (ho : c.rt.host = .outside)
    (hop : c.rt.queueOp a = some (q, op)) : ∃ b qs, a = some b ∧ c.rt.pc b = .poll (q :: qs) ∧
      op = b.popOp ∧ ((c.queue q).pc a).taking = 0 := by
  have hquiet : Quiet c.abs := h.reach.inv.quiet_outside
    ((CellState.hostOf_eq (RtState.queueOp_none_eq_none (by rw [ho]; simp))).trans ho)
  cases a with
  | none =>
    obtain ⟨-, i, -, hp, -⟩ := RtState.queueOp_host hop
    rw [ho] at hp
    cases hp
  | some b =>
    obtain ⟨hidle, htaking⟩ := CellState.idle_of_pcOf (hquiet.parties b)
    have hpop : ∀ v, op ≠ .push v := by
      rintro v rfl
      obtain ⟨-, ids, d, rel, -, hp, -⟩ := RtState.queueOp_push hop
      rw [hp] at hidle
      exact hidle
    obtain ⟨rfl, qs, hp⟩ := RtState.queueOp_pop hop hpop
    exact ⟨b, qs, rfl, hp, rfl, htaking q _ hop⟩

/-- Between two runs every position is free. -/
theorem CellInv.free_of_outside (h : CellInv E c) (ho : c.rt.host = .outside)
    (q : Qid cfg.gpuBlocks) {k : ℕ} (hk : k < (c.queue q).ring.enq.length) :
    (c.queue q).ring.phase k = .free := by
  have hquiet : Quiet c.abs := h.reach.inv.quiet_outside
    ((CellState.hostOf_eq (RtState.queueOp_none_eq_none (by rw [ho]; simp))).trans ho)
  have hempty : (c.queue q).queued = [] := (h.logged q).symm.trans (hquiet.queues q)
  rw [ReadyQueue.State.queued, List.map_eq_nil_iff, List.drop_eq_nil_iff] at hempty
  have hlt : k < (c.queue q).ring.deq.length := by omega
  have hu := List.getElem?_eq_getElem hlt
  rcases ((h.queues q).threads _).claims k hu with hdone | ⟨hle, hlt'⟩
  · exact (h.queues q).delivered.free k hdone
  · exfalso
    set u := (c.queue q).ring.deq[k]
    have hne : (c.queue q).pc u ≠ .idle := by
      intro hidle
      rw [hidle] at hlt'
      exact absurd hlt' (Nat.not_lt.mpr hle)
    obtain ⟨op, hop, -⟩ := h.calls u q hne
    obtain ⟨-, -, -, -, -, hzero⟩ := h.poll_of_outside ho hop
    omega

/-- The next run begins. -/
theorem CellInv.begin (h : CellInv E c) {t : RtState cfg} (hst : Step E c.rt .begin t)
    (hfits : ∀ G, t.graph = some G → G.n ≤ kQueueCapacity) : CellInv E { c with rt := t } := by
  cases hst with
  | begin G dep ho =>
    have hquiet : Quiet c.abs := h.reach.inv.quiet_outside
      ((CellState.hostOf_eq (RtState.queueOp_none_eq_none (by rw [ho]; simp))).trans ho)
    set t : RtState cfg := { c.rt with
      graph := some G, doneFlag := false, nDone := 0, depCount := dep, host := .reset 0
      mem0 := c.rt.mem, enq := [], claimed := [], started := [], finished := [] }
    have hops (b : Agent cfg) : t.queueOp (some b) = c.rt.queueOp (some b) := by
      have hidle := (CellState.idle_of_pcOf (hquiet.parties b)).1
      have hpc : t.pc b = c.rt.pc b := rfl
      rw [RtState.queueOp, RtState.queueOp, hpc]
      cases hp : c.rt.pc b with
      | idle => cases c.rt.graph <;> rfl
      | poll qs => cases qs <;> cases c.rt.graph <;> rfl
      | _ =>
        rw [hp] at hidle
        exact hidle.elim
    have hhost : t.queueOp none = none := RtState.queueOp_none_eq_none (by simp)
    constructor
    · have hpc : CellState.pcOf { c with rt := t } = c.pcOf := funext fun b =>
        CellState.pcOf_congr (hops b) rfl fun q => ⟨rfl, rfl, rfl⟩
      have hstep := h.reach.step (.begin G dep
        ((CellState.hostOf_eq (RtState.queueOp_none_eq_none (by rw [ho]; simp))).trans ho))
      rw [CellState.abs, hpc, CellState.hostOf_eq hhost]
      exact hstep
    · exact h.queues
    · intro b q hne
      obtain ⟨op, hop, hcov⟩ := h.calls b q hne
      obtain ⟨b, -, rfl, -⟩ := h.poll_of_outside ho hop
      exact ⟨op, (hops b).trans hop, hcov⟩
    · exact h.logged
    · exact hfits
    · refine ⟨fun q => (c.queue q).ring.enq.length, fun q => le_rfl,
        fun q k hk => h.free_of_outside ho q hk, fun q => Nat.le_add_right _ _, ?_⟩
      intro q b v pos hpc
      obtain ⟨op, hop, hcov⟩ := h.calls b q (by rw [hpc]; simp)
      obtain ⟨b, -, rfl, -, rfl, -⟩ := h.poll_of_outside ho hop
      rw [hpc] at hcov
      cases b <;> exact hcov.elim

/-- A step of party `a` in queue `q`. -/
theorem CellInv.of_queue (h : CellInv E c) (hop : c.rt.queueOp a = some (q, op))
    {c' : CellState cfg} {t : ReadyQueue.State (Party cfg)}
    (hqueue : c'.queue = Function.update c.queue q t) (hreach : Reach E c'.abs)
    (hinv : ReadyQueue.Inv kQueueCapacity t) (hpc : ∀ b, b ≠ a → t.pc b = (c.queue q).pc b)
    (hgraph : c'.rt.graph = c.rt.graph)
    (hops : ∀ b, b ≠ a → c'.rt.queueOp b = c.rt.queueOp b)
    (hself : t.pc a = .idle ∨ c'.rt.queueOp a = c.rt.queueOp a ∧ op.Covers (t.pc a))
    (hlogged : c'.rt.q q = t.queued) (hkeeps : ∀ k, k ≠ q → c'.rt.q k = c.rt.q k)
    (hturn : ∃ start, Turn c' start) : CellInv E c' := by
  have hq : c'.queue q = t := by rw [hqueue, Function.update_self]
  have hother (k : Qid cfg.gpuBlocks) (hk : k ≠ q) : c'.queue k = c.queue k := by
    rw [hqueue, Function.update_of_ne hk]
  refine ⟨hreach, fun k => ?_, fun b k hne => ?_, fun k => ?_, hgraph ▸ h.fits, hturn⟩
  · by_cases hk : k = q
    · rw [hk, hq]
      exact hinv
    · rw [hother k hk]
      exact h.queues k
  · by_cases hk : k = q
    · rw [hk, hq] at hne ⊢
      by_cases hb : b = a
      · rw [hb] at hne ⊢
        obtain ⟨hops', hcov⟩ := hself.resolve_left hne
        exact ⟨op, hops'.trans hop, hcov⟩
      · rw [hpc b hb] at hne ⊢
        obtain ⟨op', hop', hcov⟩ := h.calls b q hne
        exact ⟨op', (hops b hb).trans hop', hcov⟩
    · rw [hother k hk] at hne ⊢
      obtain ⟨op', hop', hcov⟩ := h.calls b k hne
      have hb : b ≠ a := by
        rintro rfl
        rw [hop] at hop'
        exact hk (Prod.mk.inj (Option.some.inj hop')).1.symm
      exact ⟨op', (hops b hb).trans hop', hcov⟩
  · by_cases hk : k = q
    · rw [hk, hq]
      exact hlogged
    · rw [hother k hk, hkeeps k hk]
      exact h.logged k

/-- A step in a queue that the protocol does not see. -/
theorem CellInv.silent (h : CellInv E c) (hop : c.rt.queueOp a = some (q, op))
    {t : ReadyQueue.State (Party cfg)} (hinv : ReadyQueue.Inv kQueueCapacity t)
    (hpc : ∀ b, b ≠ a → t.pc b = (c.queue q).pc b) (henq : t.ring.enq = (c.queue q).ring.enq)
    (hdeq : t.ring.deq = (c.queue q).ring.deq) (hsame : ∀ b, SameView (c.queue q) t b)
    (hself : t.pc a = .idle ∨ op.Covers (t.pc a))
    (hturn : ∀ start, Turn c start → Turn { c with queue := Function.update c.queue q t } start) :
    CellInv E { c with queue := Function.update c.queue q t } := by
  have hview (b : Party cfg) (k : Qid cfg.gpuBlocks) :
      SameView (c.queue k) (Function.update c.queue q t k) b := by
    by_cases hk : k = q
    · rw [hk, Function.update_self]
      exact hsame b
    · rw [Function.update_of_ne hk]
      exact ⟨rfl, rfl, rfl⟩
  refine h.of_queue hop rfl ?_ hinv hpc rfl (fun _ _ => rfl) (hself.imp_right fun hc => ⟨rfl, hc⟩)
    ?_ (fun _ _ => rfl) ?_
  · have hpcs : CellState.pcOf { c with queue := Function.update c.queue q t } = c.pcOf :=
      funext fun b => CellState.pcOf_congr rfl rfl (hview _)
    have hhost : CellState.hostOf { c with queue := Function.update c.queue q t } = c.hostOf :=
      CellState.hostOf_congr rfl rfl (hview none)
    rw [CellState.abs, hpcs, hhost]
    exact h.reach
  · rw [ReadyQueue.State.queued, henq, hdeq]
    exact h.logged q
  · obtain ⟨start, hstart⟩ := h.turn
    exact ⟨start, hturn start hstart⟩

theorem SameView.of_quiet {ι : Type} {t t' : ReadyQueue.State ι} {b : ι} (h : (t.pc b).quiet)
    (h' : (t'.pc b).quiet) : SameView t t' b where
  taking := h'.1.trans h.1.symm
  pushing := h'.2.trans h.2.symm
  inHand := by
    rw [ReadyQueue.State.inHand, ReadyQueue.State.inHand, h.1, h'.1]
    rfl

/-- A party calls the operation it has come to. -/
theorem CellInv.call (h : CellInv E c) (hop : c.rt.queueOp a = some (q, op))
    (hidle : (c.queue q).pc a = .idle) : CellInv E (c.call a q op) := by
  have hring : ((c.queue q).call a op).ring = (c.queue q).ring := by cases op <;> rfl
  have hbase : ((c.queue q).call a op).base = (c.queue q).base := by cases op <;> rfl
  have hne (b : Party cfg) (hb : b ≠ a) :
      ((c.queue q).call a op).pc b = (c.queue q).pc b := by
    cases op <;> exact Function.update_of_ne hb _ _
  have hquiet : (((c.queue q).call a op).pc a).quiet := by
    cases op <;> simp [ReadyQueue.State.call, ReadyQueue.Pc.quiet, ReadyQueue.Pc.taking,
      ReadyQueue.Pc.pushing]
  refine h.silent hop ((h.queues q).call a op hidle) hne (by rw [hring]) (by rw [hring])
    (fun b => ?_) (.inr (op.covers_call _ a)) fun start hturn => ?_
  · by_cases hb : b = a
    · rw [hb]
      exact .of_quiet (by rw [hidle]; exact ⟨rfl, rfl⟩) hquiet
    · refine ⟨by rw [hne b hb], by rw [hne b hb], ?_⟩
      rw [ReadyQueue.State.inHand, ReadyQueue.State.inHand, hne b hb, hring, hbase]
  · have hrings (k : Qid cfg.gpuBlocks) :
        (Function.update c.queue q ((c.queue q).call a op) k).ring = (c.queue k).ring := by
      by_cases hk : k = q
      · rw [hk, Function.update_self, hring]
      · rw [Function.update_of_ne hk]
    refine ⟨fun k => ?_, fun k => ?_, fun k => ?_, fun k b v pos hpc => ?_⟩
    · dsimp only
      rw [hrings]
      exact hturn.le k
    · dsimp only
      rw [hrings]
      exact hturn.free k
    · dsimp only
      rw [hrings]
      exact hturn.room k
    · dsimp only at hpc ⊢
      rw [hrings]
      by_cases hk : k = q
      · rw [hk, Function.update_self] at hpc
        by_cases hb : b = a
        · rw [hb] at hpc
          cases op <;> simp [ReadyQueue.State.call] at hpc
        · rw [hne b hb] at hpc
          rw [hk]
          exact hturn.copy q b v pos hpc
      · rw [Function.update_of_ne hk] at hpc
        exact hturn.copy k b v pos hpc

end

end
end FastLlm
