import FastLlm.Lib.Ring
import Mathlib.Data.Nat.Bitwise

/-!
# The ready queue

The bounded queue of `queue.h`, at the level of its atomic operations.  `head`, `tail` and the
`seq` of every cell are 32-bit counters that wrap around; the operations of any number of
threads interleave at each load, compare-and-swap and store.

A thread's place inside `push`, `pop`, `pop_bulk` or `pop_bulk_light` is a `Pc`, which carries
the operation's local variables; `advance` is one atomic access of one thread.  `pop_bulk` on a
queue with `fence_light` is `pop_bulk_light`.  The fences order accesses that are already in
order here, so the two differ in when the cells are recycled: one by one as the values are
read, or all of them at the end.

Next to the queue a `State` keeps the history of the run (`ring`, `base`, `popped`), which no
operation looks at, and for each operation how many others completed since it last read a
cursor (`since`).

## Main definitions

* `Queue`, `Queue.init` — the queue in memory.
* `Pc`, `State`, `State.call`, `State.advance` — the threads and their steps.
* `State.Prompt` — no cursor in use is stale by `2³¹ - capacity` operations or more.
* `PromptReach` — the states of the runs all of whose steps are prompt.
-/

namespace FastLlm.ReadyQueue

/-- `kQueueEmpty`. -/
def kQueueEmpty : UInt32 := 0xFFFFFFFF

/-- A cell of the queue. -/
structure QueueCell where
  seq : UInt32
  val : UInt32

/-- The queue in memory.  Cells from the capacity on are never addressed. -/
structure Queue where
  cells : ℕ → QueueCell
  mask : UInt32
  fenceLight : Bool
  head : UInt32
  tail : UInt32

namespace Queue

/-- `Queue::init`; whoever creates the queue sets `fence_light` after it. -/
def init (capacity_pow2 : UInt32) (fence_light : Bool) : Queue where
  cells i := ⟨UInt32.ofNat i, kQueueEmpty⟩
  mask := capacity_pow2 - 1
  fenceLight := fence_light
  head := 0
  tail := 0

/-- `pos & mask`. -/
def cell (q : Queue) (pos : UInt32) : ℕ := (pos &&& q.mask).toNat

/-- `cells[pos & mask].seq`. -/
def seqAt (q : Queue) (pos : UInt32) : UInt32 := (q.cells (q.cell pos)).seq

/-- `cells[pos & mask].val`. -/
def valAt (q : Queue) (pos : UInt32) : UInt32 := (q.cells (q.cell pos)).val

/-- `cells[pos & mask].seq = seq`. -/
def storeSeq (q : Queue) (pos seq : UInt32) : Queue :=
  { q with cells :=
      Function.update q.cells (q.cell pos) { q.cells (q.cell pos) with seq := seq } }

/-- `cells[pos & mask].val = v`. -/
def storeVal (q : Queue) (pos v : UInt32) : Queue :=
  { q with cells :=
      Function.update q.cells (q.cell pos) { q.cells (q.cell pos) with val := v } }

end Queue

/-- `(int32_t)(seq - pos)`. -/
def dif (seq pos : UInt32) : ℤ := (seq - pos).toInt32.toInt

/-- Where a thread stands.  `v` is the value to push, `pos` the local copy of a cursor, `m` the
number of cells found ready or claimed, `i` the next of the claimed cells, `out` the values read
so far, `light` whether the operation is `pop_bulk_light`. -/
inductive Pc
  | idle
  | pushLoad (v : UInt32)
  | pushSeq (v pos : UInt32)
  | pushCas (v pos : UInt32)
  | pushVal (v pos : UInt32)
  | pushDone (pos : UInt32)
  | popLoad
  | popSeq (pos : UInt32)
  | popCas (pos : UInt32)
  | bulkLoad (light : Bool) (maxn : UInt32)
  | bulkScan (light : Bool) (maxn pos : UInt32) (m : ℕ)
  | bulkEmpty (light : Bool) (maxn pos : UInt32)
  | bulkCas (light : Bool) (maxn pos : UInt32) (m : ℕ)
  | readVal (light : Bool) (pos : UInt32) (m i : ℕ) (out : List UInt32)
  | recycle (light : Bool) (pos : UInt32) (m i : ℕ) (out : List UInt32)

/-- A call. -/
inductive Op
  | push (v : UInt32)
  | pop
  | popBulk (maxn : UInt32)
  | popBulkLight (maxn : UInt32)

/-- What one successful call of a consumer obtained: the values of the positions from `base` on. -/
structure Delivery (ι : Type) where
  by_ : ι
  base : ℕ
  vals : List UInt32

/-- The positions a delivery delivers. -/
def Delivery.positions {ι : Type} (d : Delivery ι) : List ℕ := List.range' d.base d.vals.length

/-- A queue and the threads on it. -/
structure State (ι : Type) where
  q : Queue
  pc : ι → Pc
  /-- How many other operations completed since the thread last read a cursor. -/
  since : ι → ℕ
  /-- Who enqueued and who claimed each position, and how far it has come. -/
  ring : Ring ι UInt32
  /-- The first position of the thread's last successful compare-and-swap. -/
  base : ι → ℕ
  /-- What the completed operations obtained. -/
  popped : List (Delivery ι)

variable {ι : Type} [DecidableEq ι]

namespace State

/-- A fresh queue and no operation in progress. -/
def init (capacity_pow2 : UInt32) (fence_light : Bool) : State ι where
  q := .init capacity_pow2 fence_light
  pc _ := .idle
  since _ := 0
  ring := .start
  base _ := 0
  popped := []

/-- The thread goes on to `p`. -/
def goto (s : State ι) (t : ι) (p : Pc) : State ι := { s with pc := Function.update s.pc t p }

/-- The thread has just read a cursor and goes on to `p`. -/
def readCursor (s : State ι) (t : ι) (p : Pc) : State ι :=
  { s.goto t p with since := Function.update s.since t 0 }

/-- The thread's operation returns. -/
def ret (s : State ι) (t : ι) : State ι :=
  { s.goto t .idle with since := fun u => if u = t then s.since u else s.since u + 1 }

/-- The thread's operation returns values to its caller. -/
def deliver (s : State ι) (t : ι) (out : List UInt32) : State ι :=
  { s.ret t with popped := s.popped ++ [⟨t, s.base t, out⟩] }

/-- The history notes that position `k` came to phase `p`. -/
def note (s : State ι) (k : ℕ) (p : Phase) : State ι := { s with ring := s.ring.mark k p }

/-- A successful compare-and-swap on `head`. -/
def advanceHead (s : State ι) (t : ι) (v pos : UInt32) : State ι :=
  { s with
    q := { s.q with head := pos + 1 }
    ring := s.ring.reserve t v
    base := Function.update s.base t s.ring.enq.length }

/-- A successful compare-and-swap on `tail`, for `m` cells. -/
def advanceTail (s : State ι) (t : ι) (pos : UInt32) (m : ℕ) : State ι :=
  { s with
    q := { s.q with tail := pos + UInt32.ofNat m }
    ring := s.ring.claim t m
    base := Function.update s.base t s.ring.deq.length }

/-- A thread that is not in an operation calls one. -/
def call (s : State ι) (t : ι) : Op → State ι
  | .push v => s.goto t (.pushLoad v)
  | .pop => s.goto t .popLoad
  | .popBulk maxn => s.goto t (.bulkLoad s.q.fenceLight maxn)
  | .popBulkLight maxn => s.goto t (.bulkLoad true maxn)

/-- The next atomic access of thread `t`, with the local work that follows it. -/
def advance (s : State ι) (t : ι) : State ι :=
  match s.pc t with
  | .idle => s
  -- push
  | .pushLoad v => s.readCursor t (.pushSeq v s.q.head)
  | .pushSeq v pos =>
    let d := dif (s.q.seqAt pos) pos
    if d = 0 then s.goto t (.pushCas v pos)
    else if d < 0 then s.ret t
    else s.goto t (.pushLoad v)
  | .pushCas v pos =>
    if s.q.head = pos then (s.advanceHead t v pos).goto t (.pushVal v pos)
    else s.readCursor t (.pushSeq v s.q.head)
  | .pushVal v pos =>
    ({ s with q := s.q.storeVal pos v }.note (s.base t) .stored).goto t (.pushDone pos)
  | .pushDone pos => ({ s with q := s.q.storeSeq pos (pos + 1) }.note (s.base t) .ready).ret t
  -- pop
  | .popLoad => s.readCursor t (.popSeq s.q.tail)
  | .popSeq pos =>
    let d := dif (s.q.seqAt pos) (pos + 1)
    if d = 0 then s.goto t (.popCas pos)
    else if d < 0 then s.ret t
    else s.goto t .popLoad
  | .popCas pos =>
    if s.q.tail = pos then (s.advanceTail t pos 1).goto t (.readVal false pos 1 0 [])
    else s.readCursor t (.popSeq s.q.tail)
  -- pop_bulk and pop_bulk_light
  | .bulkLoad light maxn => s.readCursor t (.bulkScan light maxn s.q.tail 0)
  | .bulkScan light maxn pos m =>
    if m < maxn.toNat ∧
        dif (s.q.seqAt (pos + UInt32.ofNat m)) (pos + UInt32.ofNat m + 1) = 0 then
      s.goto t (.bulkScan light maxn pos (m + 1))
    else if m = 0 then s.goto t (.bulkEmpty light maxn pos)
    else s.goto t (.bulkCas light maxn pos m)
  | .bulkEmpty light maxn pos =>
    if dif (s.q.seqAt pos) (pos + 1) < 0 then s.ret t
    else s.goto t (.bulkLoad light maxn)
  | .bulkCas light maxn pos m =>
    if s.q.tail = pos then (s.advanceTail t pos m).goto t (.readVal light pos m 0 [])
    else s.goto t (.bulkLoad light maxn)
  -- the claimed cells, of `pop` as well, where `m` is one
  | .readVal light pos m i out =>
    let out := out ++ [s.q.valAt (pos + UInt32.ofNat i)]
    (s.note (s.base t + i) .taken).goto t
      (if light then
        if i + 1 < m then .readVal light pos m (i + 1) out else .recycle light pos m 0 out
      else .recycle light pos m i out)
  | .recycle light pos m i out =>
    let s := { s with
      q := s.q.storeSeq (pos + UInt32.ofNat i) (pos + UInt32.ofNat i + s.q.mask + 1) }.note
        (s.base t + i) .free
    if i + 1 < m then
      s.goto t (if light then .recycle light pos m (i + 1) out
        else .readVal light pos m (i + 1) out)
    else s.deliver t out

/-- The thread's next access compares-and-swaps a cursor with its local copy. -/
def usesCursor : Pc → Bool
  | .pushCas .. | .popCas .. | .bulkCas .. => true
  | _ => false

/-- If `t` is about to use its copy of a cursor, then fewer than `2³¹ - capacity` other
operations completed since it read it. -/
def Prompt (capacity : ℕ) (s : State ι) (t : ι) : Prop :=
  usesCursor (s.pc t) → s.since t < 2 ^ 31 - capacity

end State

/-- The states of the runs in which every use of a cursor is prompt. -/
inductive PromptReach (capacity : ℕ) (fence_light : Bool) : State ι → Prop
  | init : PromptReach capacity fence_light (.init (UInt32.ofNat capacity) fence_light)
  | call {s : State ι} (t : ι) (op : Op) : PromptReach capacity fence_light s →
      s.pc t = .idle → PromptReach capacity fence_light (s.call t op)
  | advance {s : State ι} (t : ι) : PromptReach capacity fence_light s →
      s.Prompt capacity t → PromptReach capacity fence_light (s.advance t)

/-! ## Wrapping counters -/

/-- A position as the 32-bit counter that stands for it. -/
def wrap (k : ℕ) : UInt32 := UInt32.ofNat k

@[simp] theorem wrap_zero : wrap 0 = 0 := rfl

@[simp] theorem wrap_add_one (k : ℕ) : wrap k + 1 = wrap (k + 1) := (UInt32.ofNat_add k 1).symm

@[simp] theorem wrap_add_ofNat (k i : ℕ) : wrap k + UInt32.ofNat i = wrap (k + i) :=
  (UInt32.ofNat_add k i).symm

theorem wrap_toNat (k : ℕ) : (wrap k).toNat = k % 2 ^ 32 := UInt32.toNat_ofNat'

/-- Counters less than a full turn apart are told apart. -/
theorem wrap_inj_of_lt {j k : ℕ} (hle : j ≤ k) (hlt : k < j + 2 ^ 32)
    (h : wrap j = wrap k) : j = k := by
  have hmod := congrArg UInt32.toNat h
  rw [wrap_toNat, wrap_toNat] at hmod
  omega

@[simp] theorem dif_eq_zero {a b : UInt32} : dif a b = 0 ↔ a = b := by
  have hzero : dif a b = 0 ↔ (a - b).toInt32 = 0 := by
    rw [← Int32.toInt_inj]
    rfl
  rw [hzero]
  constructor
  · intro h
    have hsub : a - b = 0 := congrArg Int32.toUInt32 h
    calc a = a - b + b := (UInt32.sub_add_cancel a b).symm
      _ = b := by rw [hsub, UInt32.zero_add]
  · intro h
    rw [h, UInt32.sub_self]
    rfl

end FastLlm.ReadyQueue
