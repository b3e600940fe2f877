import FastLlm.Runtime.Graph
import Mathlib.Data.Fintype.Sum
import Mathlib.Tactic.DeriveFintype

/-!
# The run-time protocol

CPU workers and GPU blocks execute a frozen graph over shared queues and counters,
while the host resets the counters, publishes the roots and waits.  Every queue
operation, counter update and memory access is one step, and the steps of all
parties interleave freely.  A queue operation is atomic here, and a pop may find a
queue empty although it is not, as happens while a push is in progress.

Time stamps, metrics, sleeping and `stop()` are left out: no step waits for them.
Counters are unbounded; `n_done` never exceeds the number of tasks, which is below
`2 ^ 32`.

## Main definitions

* `RtConfig` — the pool sizes and switches a run reads.
* `RtState` — the shared state, the program counters and the log of the run.
* `Step` — one atomic step of the host, a worker or a block.
* `Reach`, `Trace` — the reachable states, and the labelled runs between states.
-/

namespace FastLlm

/-- What the constructor of the runtime fixes.  `gpuBlocks` is the launched grid. -/
structure RtConfig where
  cpuThreads : ℕ
  cpuThreads_pos : 1 ≤ cpuThreads
  gpuBlocks : ℕ
  gpuBatch : ℕ
  gpuBatch_pos : 1 ≤ gpuBatch
  gpuBatch_le : gpuBatch ≤ 16
  gpuEnabled : Bool
  gpu_off : gpuEnabled = false → gpuBlocks = 0
  noSteal : Bool
  perblockQ : Bool
  perblockChunk : ℕ

def kQueueCapacity : ℕ := 65536

/-- The four shared queues and the rings of the blocks. -/
inductive Qid (blocks : ℕ)
  | main (i : Fin 4)
  | ring (b : Fin blocks)
  deriving DecidableEq, Fintype

section Routing
variable (cfg : RtConfig)

/-- The ring of task `id`, by chunks of consecutive ids. -/
def ringOf (h : 0 < cfg.gpuBlocks) (id : ℕ) : Qid cfg.gpuBlocks :=
  let ch := if cfg.perblockChunk ≠ 0 then cfg.perblockChunk else 1
  .ring ⟨id / ch % cfg.gpuBlocks, Nat.mod_lt _ h⟩

/-- The queue `fl_publish` pushes task `id` to. -/
def publishQueue (fromGpu : Bool) (id : ℕ) (t : TaskParams) : Qid cfg.gpuBlocks :=
  let cq := taskQueue t (fromGpu || cfg.gpuEnabled)
  if h : cq = 0 ∧ cfg.perblockQ = true ∧ 0 < cfg.gpuBlocks then ringOf cfg h.2.2 id
  else .main cq

/-- A worker or a block. -/
abbrev Agent := Fin cfg.cpuThreads ⊕ Fin cfg.gpuBlocks

variable {cfg}

def Agent.isGpu : Agent cfg → Bool
  | .inl _ => false
  | .inr _ => true

/-- How many tasks one pop may claim. -/
def Agent.batch : Agent cfg → ℕ
  | .inl _ => 1
  | .inr _ => cfg.gpuBatch

/-- The rings from `start` on, cyclically. -/
def ringsFrom (start count : ℕ) : List (Qid cfg.gpuBlocks) :=
  if h : 0 < cfg.gpuBlocks then
    (List.range count).map fun k => .ring ⟨(start + k) % cfg.gpuBlocks, Nat.mod_lt _ h⟩
  else []

/-- The queues a CPU worker tries, `rr` being its rotating ring cursor. -/
def cpuPolls (rr : ℕ) : List (Qid cfg.gpuBlocks) :=
  [.main 2, .main 1] ++
    if cfg.noSteal then []
    else if cfg.perblockQ then ringsFrom rr cfg.gpuBlocks
    else [.main 0]

/-- The queues block `b` tries, `rr` being its rotating peer cursor. -/
def gpuPolls (b : Fin cfg.gpuBlocks) (rr : ℕ) : List (Qid cfg.gpuBlocks) :=
  [.main 3, if cfg.perblockQ then .ring b else .main 0] ++
    (if cfg.perblockQ && !cfg.noSteal then ringsFrom (rr + 1) (cfg.gpuBlocks - 1) else []) ++
    if cfg.noSteal then [] else [.main 1]

def Agent.polls : Agent cfg → ℕ → List (Qid cfg.gpuBlocks)
  | .inl _, rr => cpuPolls rr
  | .inr b, rr => gpuPolls b rr

/-- Device and host publishers agree on the destination of every task: blocks run only
when the GPU is enabled. -/
theorem publishQueue_agree (a : Agent cfg) (id : ℕ) (t : TaskParams) :
    publishQueue cfg a.isGpu id t = publishQueue cfg false id t := by
  cases a with
  | inl _ => rfl
  | inr b =>
      have hon : cfg.gpuEnabled = true := by
        cases h : cfg.gpuEnabled with
        | true => rfl
        | false => exact absurd b.isLt (by simp [cfg.gpu_off h])
      simp [publishQueue, Agent.isGpu, hon]

end Routing

/-- One more dependency count for `c`, first occurrences in order. -/
def bumpCount : List (ℕ × ℕ) → ℕ → List (ℕ × ℕ)
  | [], c => [(c, 1)]
  | (d, k) :: l, c => if d = c then (d, k + 1) :: l else (d, k) :: bumpCount l c

/-- The unique consumers of a batch with the number of edges to each. -/
def coalesce (cs : List ℕ) : List (ℕ × ℕ) := cs.foldl bumpCount []

/-- The decrements an agent makes after executing tasks with consumers `cs`: a worker
one for each edge, a block one for each consumer. -/
def Agent.releases {cfg : RtConfig} : Agent cfg → List ℕ → List (ℕ × ℕ)
  | .inl _, cs => cs.map fun c => (c, 1)
  | .inr _, cs => coalesce cs

/-- Where a worker or a block stands.  `ids` is the claimed batch. -/
inductive Pc (blocks : ℕ)
  | idle
  | poll (qs : List (Qid blocks))
  | exec (ids todo : List ℕ) (running : List (ℕ × Exec Unit))
  | mark (ids todo : List ℕ)
  | release (ids : List ℕ) (rel : List (ℕ × ℕ))
  | push (ids : List ℕ) (c : ℕ) (rel : List (ℕ × ℕ))

/-- Where the host stands: outside `run`, in the reset loop, in the loop publishing
roots, or waiting. -/
inductive HostPc
  | outside
  | reset (i : ℕ)
  | publish (i : ℕ)
  | pushRoot (i : ℕ)
  | wait

/-- Shared state, program counters, and the log of the current run: ids in the order
in which they were enqueued, claimed, started and finished. -/
structure RtState (cfg : RtConfig) where
  q : Qid cfg.gpuBlocks → List ℕ
  active : Bool
  doneFlag : Bool
  nDone : ℕ
  graph : Option FrozenGraph
  depCount : ℕ → ℤ
  mem : Loc → Word
  host : HostPc
  pc : Agent cfg → Pc cfg.gpuBlocks
  mem0 : Loc → Word
  enq : List ℕ
  claimed : List ℕ
  started : List ℕ
  finished : List ℕ

/-- The state before the first `run`. -/
def RtState.init (cfg : RtConfig) (m : Loc → Word) (dep : ℕ → ℤ) : RtState cfg where
  q := fun _ => []
  active := false
  doneFlag := false
  nDone := 0
  graph := none
  depCount := dep
  mem := m
  host := .outside
  pc := fun _ => .idle
  mem0 := m
  enq := []
  claimed := []
  started := []
  finished := []

/-- Who makes a step, and the task records it may touch. -/
inductive Label
  | begin
  | host (touched : List ℕ)
  | agent (touched : List ℕ)

section Steps
variable {cfg : RtConfig}

/-- Append `id` to queue `q`. -/
def RtState.enqueue (s : RtState cfg) (q : Qid cfg.gpuBlocks) (id : ℕ) : RtState cfg :=
  { s with q := Function.update s.q q (s.q q ++ [id]), enq := s.enq ++ [id] }

def RtState.setPc (s : RtState cfg) (a : Agent cfg) (p : Pc cfg.gpuBlocks) : RtState cfg :=
  { s with pc := Function.update s.pc a p }

/-- One atomic step. -/
inductive Step (E : FloatOps) : RtState cfg → Label → RtState cfg → Prop
  /-- Between runs the host program may change the memory. -/
  | hostWrite {s : RtState cfg} (m : Loc → Word) : s.host = .outside →
      Step E s (.host []) { s with mem := m }
  /-- `run(g)`: publish the table, clear the counters.  The table's `dep_count` fields hold
  whatever an earlier run left. -/
  | begin {s : RtState cfg} (G : FrozenGraph) (dep : ℕ → ℤ) : s.host = .outside →
      Step E s .begin
        { s with
          graph := some G, doneFlag := false, nDone := 0, depCount := dep, host := .reset 0
          mem0 := s.mem, enq := [], claimed := [], started := [], finished := [] }
  | reset {s : RtState cfg} {G : FrozenGraph} {i : ℕ} : s.graph = some G →
      s.host = .reset i → i < G.n →
      Step E s (.host [i])
        { s with depCount := Function.update s.depCount i (G.depInit i), host := .reset (i + 1) }
  | activate {s : RtState cfg} {G : FrozenGraph} {i : ℕ} : s.graph = some G →
      s.host = .reset i → G.n ≤ i →
      Step E s (.host []) { s with active := true, host := .publish 0 }
  | skipTask {s : RtState cfg} {G : FrozenGraph} {i : ℕ} : s.graph = some G →
      s.host = .publish i → i < G.n → G.depInit i ≠ 0 →
      Step E s (.host [i]) { s with host := .publish (i + 1) }
  | foundRoot {s : RtState cfg} {G : FrozenGraph} {i : ℕ} : s.graph = some G →
      s.host = .publish i → i < G.n → G.depInit i = 0 →
      Step E s (.host [i]) { s with host := .pushRoot i }
  | pushRoot {s : RtState cfg} {G : FrozenGraph} {i : ℕ} {q : Qid cfg.gpuBlocks} :
      s.graph = some G → s.host = .pushRoot i →
      q = publishQueue cfg false i (G.task i).toTaskParams → (s.q q).length < kQueueCapacity →
      Step E s (.host [i]) { s.enqueue q i with host := .publish (i + 1) }
  | published {s : RtState cfg} {G : FrozenGraph} {i : ℕ} : s.graph = some G →
      s.host = .publish i → G.n ≤ i → Step E s (.host []) { s with host := .wait }
  | finishRun {s : RtState cfg} {G : FrozenGraph} : s.graph = some G → s.host = .wait →
      s.doneFlag = true → s.nDone = G.n →
      Step E s (.host []) { s with active := false, host := .outside }
  /-- A worker polls while a run is active, a block always. -/
  | startPoll {s : RtState cfg} {a : Agent cfg} (rr : ℕ) : s.pc a = .idle →
      (a.isGpu = false → s.active = true) →
      Step E s (.agent []) (s.setPc a (.poll (a.polls rr)))
  | miss {s : RtState cfg} {a : Agent cfg} {q : Qid cfg.gpuBlocks} {qs : List (Qid cfg.gpuBlocks)} :
      s.pc a = .poll (q :: qs) → Step E s (.agent []) (s.setPc a (.poll qs))
  | endPoll {s : RtState cfg} {a : Agent cfg} : s.pc a = .poll [] →
      Step E s (.agent []) (s.setPc a .idle)
  /-- A pop claims up to a batch from the front of the queue. -/
  | pop {s : RtState cfg} {a : Agent cfg} {q : Qid cfg.gpuBlocks} {qs : List (Qid cfg.gpuBlocks)}
      {ids rest : List ℕ} : s.pc a = .poll (q :: qs) → s.q q = ids ++ rest → ids ≠ [] →
      ids.length ≤ a.batch →
      Step E s (.agent [])
        ({ s with q := Function.update s.q q rest, claimed := s.claimed ++ ids }.setPc a
          (.exec ids ids []))
  /-- The tasks of a batch start in order; a block has no barrier between them. -/
  | startTask {s : RtState cfg} {G : FrozenGraph} {a : Agent cfg} {ids todo : List ℕ} {i : ℕ}
      {running : List (ℕ × Exec Unit)} : s.graph = some G →
      s.pc a = .exec ids (i :: todo) running →
      Step E s (.agent [i])
        ({ s with started := s.started ++ [i] }.setPc a
          (.exec ids todo (running ++ [(i, G.prog E i)])))
  | read {s : RtState cfg} {a : Agent cfg} {ids todo : List ℕ} {i : ℕ} {l : Loc}
      {k : Word → Exec Unit} {r₁ r₂ : List (ℕ × Exec Unit)} :
      s.pc a = .exec ids todo (r₁ ++ (i, .read l k) :: r₂) →
      Step E s (.agent [i]) (s.setPc a (.exec ids todo (r₁ ++ (i, k (s.mem l)) :: r₂)))
  | write {s : RtState cfg} {a : Agent cfg} {ids todo : List ℕ} {i : ℕ} {l : Loc} {v : Word}
      {k : Exec Unit} {r₁ r₂ : List (ℕ × Exec Unit)} :
      s.pc a = .exec ids todo (r₁ ++ (i, .write l v k) :: r₂) →
      Step E s (.agent [i])
        ({ s with mem := Function.update s.mem l v }.setPc a
          (.exec ids todo (r₁ ++ (i, k) :: r₂)))
  | finishTask {s : RtState cfg} {a : Agent cfg} {ids todo : List ℕ} {i : ℕ}
      {r₁ r₂ : List (ℕ × Exec Unit)} : s.pc a = .exec ids todo (r₁ ++ (i, .pure ()) :: r₂) →
      Step E s (.agent [i])
        ({ s with finished := s.finished ++ [i] }.setPc a (.exec ids todo (r₁ ++ r₂)))
  | execDone {s : RtState cfg} {a : Agent cfg} {ids : List ℕ} : s.pc a = .exec ids [] [] →
      Step E s (.agent []) (s.setPc a (.mark ids ids))
  /-- The flag is raised before the consumers of the terminal task are looked at. -/
  | mark {s : RtState cfg} {G : FrozenGraph} {a : Agent cfg} {ids todo : List ℕ} {i : ℕ} :
      s.graph = some G → s.pc a = .mark ids (i :: todo) →
      Step E s (.agent [])
        ({ s with doneFlag := s.doneFlag || decide (i = G.terminal) }.setPc a (.mark ids todo))
  | markDone {s : RtState cfg} {G : FrozenGraph} {a : Agent cfg} {ids : List ℕ} :
      s.graph = some G → s.pc a = .mark ids [] →
      Step E s (.agent ids) (s.setPc a (.release ids (a.releases (ids.flatMap G.cons))))
  /-- `fl_fetch_sub_i32` on one consumer; the agent that brings it to zero publishes it. -/
  | release {s : RtState cfg} {a : Agent cfg} {ids : List ℕ} {c k : ℕ} {rel : List (ℕ × ℕ)} :
      s.pc a = .release ids ((c, k) :: rel) →
      Step E s (.agent (c :: ids))
        ({ s with depCount := Function.update s.depCount c (s.depCount c - k) }.setPc a
          (if s.depCount c = k then .push ids c rel else .release ids rel))
  | push {s : RtState cfg} {G : FrozenGraph} {a : Agent cfg} {ids : List ℕ} {c : ℕ}
      {rel : List (ℕ × ℕ)} {q : Qid cfg.gpuBlocks} : s.graph = some G →
      s.pc a = .push ids c rel → q = publishQueue cfg a.isGpu c (G.task c).toTaskParams →
      (s.q q).length < kQueueCapacity →
      Step E s (.agent [c]) ((s.enqueue q c).setPc a (.release ids rel))
  /-- The last step for a batch. -/
  | countDone {s : RtState cfg} {a : Agent cfg} {ids : List ℕ} : s.pc a = .release ids [] →
      Step E s (.agent []) ({ s with nDone := s.nDone + ids.length }.setPc a .idle)

/-- The states reachable over any sequence of runs. -/
inductive Reach (E : FloatOps) : RtState cfg → Prop
  | init (m : Loc → Word) (dep : ℕ → ℤ) : Reach E (RtState.init cfg m dep)
  | step {s t : RtState cfg} {l : Label} : Reach E s → Step E s l t → Reach E t

/-- The labelled runs from one state to another. -/
inductive Trace (E : FloatOps) (s : RtState cfg) : List Label → RtState cfg → Prop
  | nil : Trace E s [] s
  | snoc {ls : List Label} {l : Label} {t u : RtState cfg} :
      Trace E s ls t → Step E t l u → Trace E s (ls ++ [l]) u

/-- What the waiting host waits for. -/
def WaitCond (G : FrozenGraph) (s : RtState cfg) : Prop :=
  s.graph = some G ∧ s.doneFlag = true ∧ s.nDone = G.n

end Steps
end FastLlm
