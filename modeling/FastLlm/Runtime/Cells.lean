import FastLlm.Runtime.Protocol
import FastLlm.Runtime.Queue

/-!
# The protocol over the queues in memory

The run-time protocol takes a queue operation for one step.  Here the host, the workers and the
blocks call the operations of the queues in memory, and the atomic accesses of these calls
interleave with one another and with all other steps.  The queues outlive the runs, and so does
a call that finds nothing: a worker may stand in the middle of a `pop` while runs come and go.

The lists `q` of the protocol's state have become a log, like `enq` and `claimed`: an
operation enters into it when its compare-and-swap succeeds, and no step looks at it.  A party
goes on when its call returns, with the values it returns; after a push that returns false it
calls `push` again.

## Main definitions

* `Party` — the host, a worker or a block.
* `CellState` — the state of the runtime with its queues.
* `RtState.queueOp` — the queue operation a party has come to.
* `CellReach` — the states of the runs, with what may be asked of the accesses.
-/

namespace FastLlm

/-- Who uses the queues: the host, or a worker or block. -/
abbrev Party (cfg : RtConfig) := Option (Agent cfg)

/-- The runtime with its queues in memory. -/
structure CellState (cfg : RtConfig) where
  rt : RtState cfg
  queue : Qid cfg.gpuBlocks → ReadyQueue.State (Party cfg)

section
variable {cfg : RtConfig}

/-- The state before the first `run`.  `light` is `FASTLLM_QUEUE_FENCE_LIGHT`. -/
def CellState.init (cfg : RtConfig) (light : Bool) (m : Loc → Word) (dep : ℕ → ℤ) :
    CellState cfg where
  rt := .init cfg m dep
  queue _ := .init (UInt32.ofNat kQueueCapacity) light

/-- A worker pops one task, a block up to `gpu_batch`. -/
def Agent.popOp : Agent cfg → ReadyQueue.Op
  | .inl _ => .pop
  | .inr _ => .popBulk (UInt32.ofNat cfg.gpuBatch)

namespace RtState

/-- The queue operation a party has come to, and the queue. -/
def queueOp (s : RtState cfg) : Party cfg → Option (Qid cfg.gpuBlocks × ReadyQueue.Op)
  | none =>
    match s.graph, s.host with
    | some G, .pushRoot i =>
      some (publishQueue cfg false i (G.task i).toTaskParams, .push (UInt32.ofNat i))
    | _, _ => none
  | some a =>
    match s.graph, s.pc a with
    | some G, .push _ c _ =>
      some (publishQueue cfg a.isGpu c (G.task c).toTaskParams, .push (UInt32.ofNat c))
    | _, .poll (q :: _) => some (q, a.popOp)
    | _, _ => none

/-- The log of a compare-and-swap that claims `m` tasks. -/
def dequeue (s : RtState cfg) (q : Qid cfg.gpuBlocks) (m : ℕ) : RtState cfg :=
  { s with
    q := Function.update s.q q ((s.q q).drop m)
    claimed := s.claimed ++ (s.q q).take m }

/-- The push of a party has returned true. -/
def pushed (s : RtState cfg) : Party cfg → RtState cfg
  | none =>
    match s.host with
    | .pushRoot i => { s with host := .publish (i + 1) }
    | _ => s
  | some a =>
    match s.pc a with
    | .push ids _ rel => s.setPc a (.release ids rel)
    | _ => s

/-- The pop of a party has found nothing. -/
def missed (s : RtState cfg) : Party cfg → RtState cfg
  | none => s
  | some a =>
    match s.pc a with
    | .poll (_ :: qs) => s.setPc a (.poll qs)
    | _ => s

/-- The pop of a party has returned `ids`. -/
def popped (s : RtState cfg) (ids : List ℕ) : Party cfg → RtState cfg
  | none => s
  | some a => s.setPc a (.exec ids ids [])

/-- What the next access of party `a`, who stands in an operation of queue `q` in state `t`,
means for the run. -/
def afterAccess (s : RtState cfg) (a : Party cfg) (q : Qid cfg.gpuBlocks)
    (t : ReadyQueue.State (Party cfg)) : RtState cfg :=
  match t.pc a with
  | .pushCas v pos => if t.q.head = pos then s.enqueue q v.toNat else s
  | .pushDone _ => s.pushed a
  | .popSeq pos => if ReadyQueue.dif (t.q.seqAt pos) (pos + 1) < 0 then s.missed a else s
  | .popCas pos => if t.q.tail = pos then s.dequeue q 1 else s
  | .bulkEmpty _ _ pos => if ReadyQueue.dif (t.q.seqAt pos) (pos + 1) < 0 then s.missed a else s
  | .bulkCas _ _ pos m => if t.q.tail = pos then s.dequeue q m else s
  | .recycle _ _ m i out => if i + 1 < m then s else s.popped (out.map UInt32.toNat) a
  | _ => s

/-- The parties that have come to a queue operation stay there. -/
structure Waits (s t : RtState cfg) : Prop where
  host : (s.queueOp none).isSome → t.host = s.host
  pc : ∀ a, (s.queueOp (some a)).isSome → t.pc a = s.pc a

end RtState

namespace CellState

/-- Party `a` calls operation `op` of queue `q`. -/
def call (c : CellState cfg) (a : Party cfg) (q : Qid cfg.gpuBlocks) (op : ReadyQueue.Op) :
    CellState cfg :=
  { c with queue := Function.update c.queue q ((c.queue q).call a op) }

/-- The next access of party `a` in queue `q`. -/
def access (c : CellState cfg) (a : Party cfg) (q : Qid cfg.gpuBlocks) : CellState cfg where
  rt := c.rt.afterAccess a q (c.queue q)
  queue := Function.update c.queue q ((c.queue q).advance a)

end CellState

/-- The states of the runs of graphs of at most as many tasks as a queue has cells, all of whose
accesses are as `ok` asks. -/
inductive CellReach (E : FloatOps) (light : Bool)
    (ok : ReadyQueue.State (Party cfg) → Party cfg → Prop) : CellState cfg → Prop
  | init (m : Loc → Word) (dep : ℕ → ℤ) : CellReach E light ok (.init cfg light m dep)
  /-- A step of the protocol that is no queue operation. -/
  | inner {c : CellState cfg} {l : Label} {t : RtState cfg} : CellReach E light ok c →
      Step E c.rt l t → c.rt.Waits t → (∀ G, t.graph = some G → G.n ≤ kQueueCapacity) →
      CellReach E light ok { c with rt := t }
  | call {c : CellState cfg} {a : Party cfg} {q : Qid cfg.gpuBlocks} {op : ReadyQueue.Op} :
      CellReach E light ok c → c.rt.queueOp a = some (q, op) → (c.queue q).pc a = .idle →
      CellReach E light ok (c.call a q op)
  | access {c : CellState cfg} {a : Party cfg} {q : Qid cfg.gpuBlocks} {op : ReadyQueue.Op} :
      CellReach E light ok c → c.rt.queueOp a = some (q, op) → (c.queue q).pc a ≠ .idle →
      ok (c.queue q) a → CellReach E light ok (c.access a q)

end

namespace ReadyQueue

/-- The `m` cells from `pos` on are ready, as a scan finds them. -/
def Queue.Ready (q : Queue) (pos : UInt32) (m : ℕ) : Prop :=
  ∀ i < m, q.seqAt (pos + UInt32.ofNat i) = pos + UInt32.ofNat i + 1

namespace State
variable {ι : Type}

/-- If the next access of `t` claims cells, then these are still ready: since its scan found them
so, `tail` has not gone round and come back. -/
def ClaimsReady (s : State ι) (t : ι) : Prop :=
  match s.pc t with
  | .popCas pos => s.q.tail = pos → s.q.Ready pos 1
  | .bulkCas _ _ pos m => s.q.tail = pos → s.q.Ready pos m
  | _ => True

/-- The next access of `t` makes its `push` return false. -/
def PushFails (s : State ι) (t : ι) : Prop :=
  ∃ v pos, s.pc t = .pushSeq v pos ∧ dif (s.q.seqAt pos) pos < 0

end State
end ReadyQueue
end FastLlm
