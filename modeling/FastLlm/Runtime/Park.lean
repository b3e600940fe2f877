import Mathlib.Algebra.Ring.Nat
import Mathlib.Data.Fintype.Basic
import Mathlib.Logic.Function.Basic

/-!
# Parking the workers

A worker that finds no run active spins for a while and then waits on a condition variable.  `run()`
and `stop()` change a flag outside the mutex, bump a generation under it and notify.  The waiting
predicate reads the generation and both flags one after the other, with the mutex held; a thread
that waits may wake for no reason; `notify_all` wakes all that wait.  Every read, write, lock and
unlock is a step, and the steps of all threads interleave.

One thread calls `start()`, `run()` and `stop()`.  The generation has 64 bits: a worker that was
woken and does not get the mutex for `2 ^ 64` notifying calls finds it unchanged.

## Main definitions

* `ParkState`, `ParkStep` — the threads and their steps.
* `ParkInv` — what every step keeps.
* `blocked_ok` — a worker in the condition wait.
-/

namespace FastLlm.Park

/-- The calls that notify. -/
inductive Call
  | run | stop
  deriving DecidableEq

/-- Where the calling thread is. -/
inductive HostPc
  | idle
  | lock (c : Call)
  | bump (c : Call)
  | unlock (c : Call)
  | notify (c : Call)
  | after (c : Call)
  | stopped
  deriving DecidableEq

/-- Where a worker is. -/
inductive WorkerPc
  | top        -- `while (run_flag)`
  | work       -- `if (active)`
  | idle       -- spinning
  | lock       -- wants the mutex
  | snapshot   -- `gen = wake_gen_`
  | predGen    -- `wake_gen_ != gen`
  | predActive -- `|| active`
  | predFlag   -- `|| !run_flag`
  | sleep      -- the predicate was false
  | blocked    -- in the condition wait
  | woken      -- wants the mutex again
  | leave      -- the predicate was true
  | exited
  deriving DecidableEq

/-- A worker.  `entered` is history: the notifications before it blocked for the first time in
the present call of `cv_.wait`. -/
structure Worker where
  pc : WorkerPc := .top
  gen : UInt64 := 0
  entered : Option ℕ := none

inductive Holder (n : ℕ)
  | free
  | host
  | worker (i : Fin n)
  deriving DecidableEq

/-- `notified` is history: the calls of `notify_all` so far. -/
structure ParkState (n : ℕ) where
  active : Bool
  runFlag : Bool
  wakeGen : UInt64
  mu : Holder n
  host : HostPc
  worker : Fin n → Worker
  notified : ℕ

namespace ParkState
variable {n : ℕ} (s : ParkState n)

/-- After `start()`. -/
def init (n : ℕ) : ParkState n := ⟨false, true, 0, .free, .idle, fun _ => {}, 0⟩

/-- The store before the mutex is taken. -/
def store : Call → ParkState n
  | .run => { s with active := true }
  | .stop => { s with runFlag := false }

def setWorker (i : Fin n) (w : Worker) : ParkState n :=
  { s with worker := Function.update s.worker i w }

def setPc (i : Fin n) (pc : WorkerPc) : ParkState n :=
  s.setWorker i { s.worker i with pc := pc }

end ParkState

/-- `notify_all` for one worker. -/
def Worker.wake (w : Worker) : Worker := if w.pc = .blocked then { w with pc := .woken } else w

section
variable {n : ℕ}

inductive ParkStep : ParkState n → ParkState n → Prop
  -- `run()` and `stop()`
  | store (s) (c : Call) : s.host = .idle → ParkStep s { s.store c with host := .lock c }
  | hostLock (s) (c : Call) : s.host = .lock c → s.mu = .free →
      ParkStep s { s with mu := .host, host := .bump c }
  | bump (s) (c : Call) : s.host = .bump c →
      ParkStep s { s with wakeGen := s.wakeGen + 1, host := .unlock c }
  | hostUnlock (s) (c : Call) : s.host = .unlock c →
      ParkStep s { s with mu := .free, host := .notify c }
  | notify (s) (c : Call) : s.host = .notify c →
      ParkStep s { s with worker := fun i => (s.worker i).wake, notified := s.notified + 1,
                          host := .after c }
  | done (s) : s.host = .after .run → ParkStep s { s with active := false, host := .idle }
  | join (s) : s.host = .after .stop → (∀ i, (s.worker i).pc = .exited) →
      ParkStep s { s with host := .stopped }
  | start (s) : s.host = .stopped →
      ParkStep s { s with runFlag := true, worker := fun _ => {}, host := .idle }
  -- a worker
  | flagOn (s) (i) : (s.worker i).pc = .top → s.runFlag = true → ParkStep s (s.setPc i .work)
  | flagOff (s) (i) : (s.worker i).pc = .top → s.runFlag = false → ParkStep s (s.setPc i .exited)
  | work (s) (i) : (s.worker i).pc = .work → s.active = true → ParkStep s (s.setPc i .top)
  | rest (s) (i) : (s.worker i).pc = .work → s.active = false → ParkStep s (s.setPc i .idle)
  | spin (s) (i) : (s.worker i).pc = .idle → s.active = true ∨ s.runFlag = false →
      ParkStep s (s.setPc i .top)
  | timeout (s) (i) : (s.worker i).pc = .idle → ParkStep s (s.setPc i .lock)
  | lock (s) (i) : (s.worker i).pc = .lock → s.mu = .free →
      ParkStep s { s.setPc i .snapshot with mu := .worker i }
  | snapshot (s) (i) : (s.worker i).pc = .snapshot →
      ParkStep s (s.setWorker i ⟨.predGen, s.wakeGen, none⟩)
  | genNe (s) (i) : (s.worker i).pc = .predGen → s.wakeGen ≠ (s.worker i).gen →
      ParkStep s (s.setPc i .leave)
  | genEq (s) (i) : (s.worker i).pc = .predGen → s.wakeGen = (s.worker i).gen →
      ParkStep s (s.setPc i .predActive)
  | activeOn (s) (i) : (s.worker i).pc = .predActive → s.active = true →
      ParkStep s (s.setPc i .leave)
  | activeOff (s) (i) : (s.worker i).pc = .predActive → s.active = false →
      ParkStep s (s.setPc i .predFlag)
  | flagClear (s) (i) : (s.worker i).pc = .predFlag → s.runFlag = false →
      ParkStep s (s.setPc i .leave)
  | flagSet (s) (i) : (s.worker i).pc = .predFlag → s.runFlag = true →
      ParkStep s (s.setPc i .sleep)
  | block (s) (i) : (s.worker i).pc = .sleep →
      ParkStep s { s.setWorker i { s.worker i with
        pc := .blocked, entered := some ((s.worker i).entered.getD s.notified) } with mu := .free }
  | spurious (s) (i) : (s.worker i).pc = .blocked → ParkStep s (s.setPc i .woken)
  | relock (s) (i) : (s.worker i).pc = .woken → s.mu = .free →
      ParkStep s { s.setPc i .predGen with mu := .worker i }
  | unlock (s) (i) : (s.worker i).pc = .leave →
      ParkStep s { s.setPc i .top with mu := .free }

/-- The states the threads can reach. -/
inductive ParkReach : ParkState n → Prop
  | init : ParkReach (.init n)
  | step {s s' : ParkState n} : ParkReach s → ParkStep s s' → ParkReach s'

end

/-! ## The invariant -/

def WorkerPc.holds : WorkerPc → Bool
  | snapshot | predGen | predActive | predFlag | sleep | leave => true
  | _ => false

namespace HostPc

def holds : HostPc → Bool
  | bump _ | unlock _ => true
  | _ => false

/-- A bump whose notification is still to come. -/
def pending : HostPc → ℕ
  | unlock _ | notify _ => 1
  | _ => 0

/-- The call that is going on. -/
def call : HostPc → Option Call
  | lock c | bump c | unlock c | notify c | after c => some c
  | idle | stopped => none

/-- Before the bump. -/
def Quiet (h : HostPc) : Prop := h = idle ∨ ∃ c, h = lock c

/-- On the way to `notify_all`. -/
def Ahead (h : HostPc) : Prop := ∃ c, h = lock c ∨ h = bump c ∨ h = unlock c ∨ h = notify c

end HostPc

/-- What a worker has read, against the state. -/
structure WorkerOK (host : HostPc) (wakeGen : UInt64) (notified : ℕ) (w : Worker) : Prop where
  gen_eq : w.pc = .predActive ∨ w.pc = .predFlag ∨ w.pc = .sleep → wakeGen = w.gen
  read_active : w.pc = .predFlag → host.Quiet ∨ host = .notify .stop ∨ host = .after .stop
  read_flag : w.pc = .sleep → host.Quiet
  entered : ∀ e, w.entered = some e → w.gen = .ofNat e ∧ e ≤ notified
  blocked : w.pc = .blocked → (host = .idle ∨ host.Ahead) ∧
    ∃ e, w.entered = some e ∧ (e = notified ∨ e + 2 ^ 64 ≤ notified)

structure ParkInv {n : ℕ} (s : ParkState n) : Prop where
  gen_eq : s.wakeGen = .ofNat (s.notified + s.host.pending)
  active_iff : s.active = true ↔ s.host.call = some .run
  flag_iff : s.runFlag = false ↔ s.host.call = some .stop ∨ s.host = .stopped
  mu_host : s.mu = .host ↔ s.host.holds = true
  mu_worker : ∀ i, s.mu = .worker i ↔ (s.worker i).pc.holds = true
  exited : s.host = .stopped → ∀ i, (s.worker i).pc = .exited
  worker : ∀ i, WorkerOK s.host s.wakeGen s.notified (s.worker i)

/-- A worker that is not in the predicate and not asleep has read nothing yet. -/
theorem WorkerOK.setPc {host : HostPc} {wakeGen : UInt64} {notified : ℕ} {w : Worker}
    (h : WorkerOK host wakeGen notified w) {pc : WorkerPc}
    (hpc : pc ≠ .predActive ∧ pc ≠ .predFlag ∧ pc ≠ .sleep ∧ pc ≠ .blocked) :
    WorkerOK host wakeGen notified { w with pc := pc } where
  gen_eq hp := by simp [hpc] at hp
  read_active hp := absurd hp hpc.2.1
  read_flag hp := absurd hp hpc.2.2.1
  entered := h.entered
  blocked hp := absurd hp hpc.2.2.2

namespace ParkInv
variable {n : ℕ} {s : ParkState n}

theorem init (n : ℕ) : ParkInv (.init n) where
  gen_eq := rfl
  active_iff := by simp [ParkState.init, HostPc.call]
  flag_iff := by simp [ParkState.init, HostPc.call]
  mu_host := by simp [ParkState.init, HostPc.holds]
  mu_worker i := by simp [ParkState.init, WorkerPc.holds]
  exited hh := by simp [ParkState.init] at hh
  worker i := ⟨by simp [ParkState.init], by simp [ParkState.init], by simp [ParkState.init],
    by simp [ParkState.init], by simp [ParkState.init]⟩

/-- One worker moves, and takes or returns the mutex. -/
theorem move (h : ParkInv s) {i : Fin n} {w : Worker} {mu : Holder n}
    (hrun : (s.worker i).pc ≠ .exited) (hw : WorkerOK s.host s.wakeGen s.notified w)
    (hi : mu = .worker i ↔ w.pc.holds = true) (hhost : mu = .host ↔ s.mu = .host)
    (hj : ∀ j, j ≠ i → (mu = .worker j ↔ s.mu = .worker j)) :
    ParkInv { s.setWorker i w with mu := mu } where
  gen_eq := h.gen_eq
  active_iff := h.active_iff
  flag_iff := h.flag_iff
  mu_host := hhost.trans h.mu_host
  mu_worker j := by
    by_cases hji : j = i
    · subst hji
      simpa [ParkState.setWorker] using hi
    · simpa [ParkState.setWorker, hji] using (hj j hji).trans (h.mu_worker j)
  exited hh := absurd (h.exited hh i) hrun
  worker j := by
    by_cases hji : j = i
    · subst hji
      simpa [ParkState.setWorker] using hw
    · simpa [ParkState.setWorker, hji] using h.worker j

/-- A worker moves with the mutex where it is. -/
theorem movePc (h : ParkInv s) {i : Fin n} {w : Worker} (hrun : (s.worker i).pc ≠ .exited)
    (hw : WorkerOK s.host s.wakeGen s.notified w) (hi : w.pc.holds = (s.worker i).pc.holds) :
    ParkInv (s.setWorker i w) := by
  have hmu : s.mu = .worker i ↔ w.pc.holds = true := by
    rw [hi]
    exact h.mu_worker i
  exact h.move hrun hw hmu Iff.rfl fun _ _ => Iff.rfl

/-- A worker that takes the mutex. -/
theorem take (h : ParkInv s) {i : Fin n} {w : Worker} (hrun : (s.worker i).pc ≠ .exited)
    (hw : WorkerOK s.host s.wakeGen s.notified w) (hi : w.pc.holds = true) (hfree : s.mu = .free) :
    ParkInv { s.setWorker i w with mu := .worker i } :=
  h.move hrun hw (by simp [hi]) (by simp [hfree]) fun j hj => by simp [hfree, hj.symm]

/-- A worker that returns the mutex. -/
theorem drop (h : ParkInv s) {i : Fin n} {w : Worker}
    (hw : WorkerOK s.host s.wakeGen s.notified w) (hi : w.pc.holds = false)
    (hheld : (s.worker i).pc.holds = true) :
    ParkInv { s.setWorker i w with mu := .free } := by
  have hmu := (h.mu_worker i).mpr hheld
  have hrun : (s.worker i).pc ≠ .exited := by
    intro hpc
    rw [hpc] at hheld
    cases hheld
  exact h.move hrun hw (by simp [hi]) (by simp [hmu]) fun j hj => by simp [hmu, hj.symm]

/-- A worker that holds the mutex keeps the calling thread from bumping. -/
theorem host_free (h : ParkInv s) {i : Fin n} (hi : (s.worker i).pc.holds = true) :
    s.host.holds = false := by
  have hmu := (h.mu_worker i).mpr hi
  have hhost := h.mu_host
  rw [hmu] at hhost
  simpa using hhost

end ParkInv

/-! ## The calling thread -/

/-- Another thread moves while a worker is outside the mutex. -/
theorem WorkerOK.away {host host' : HostPc} {wakeGen wakeGen' : UInt64} {notified : ℕ} {w : Worker}
    (h : WorkerOK host wakeGen notified w) (hpc : w.pc.holds = false)
    (hb : w.pc = .blocked → host' = .idle ∨ host'.Ahead) : WorkerOK host' wakeGen' notified w where
  gen_eq hp := by rcases hp with hp | hp | hp <;> rw [hp] at hpc <;> cases hpc
  read_active hp := by rw [hp] at hpc; cases hpc
  read_flag hp := by rw [hp] at hpc; cases hpc
  entered := h.entered
  blocked hp := ⟨hb hp, (h.blocked hp).2⟩

/-- `notify_all`. -/
theorem WorkerOK.wake {c : Call} {wakeGen : UInt64} {notified : ℕ} {w : Worker}
    (h : WorkerOK (.notify c) wakeGen notified w) :
    WorkerOK (.after c) wakeGen (notified + 1) w.wake := by
  have hentered : ∀ e, w.entered = some e → w.gen = .ofNat e ∧ e ≤ notified + 1 := fun e he =>
    ⟨(h.entered e he).1, Nat.le_succ_of_le (h.entered e he).2⟩
  rw [Worker.wake]
  split_ifs with hb
  · exact ⟨by simp, by simp, by simp, hentered, by simp⟩
  · refine ⟨h.gen_eq, fun hp => ?_, fun hp => ?_, hentered, fun hp => absurd hp hb⟩
    · rcases h.read_active hp with hq | hq | hq
      · simp [HostPc.Quiet] at hq
      · exact .inr (.inr (by rw [HostPc.notify.inj hq]))
      · simp at hq
    · have hq := h.read_flag hp
      simp [HostPc.Quiet] at hq

theorem Worker.holds_wake (w : Worker) : w.wake.pc.holds = w.pc.holds := by
  rw [Worker.wake]
  split_ifs with hb
  · rw [hb]
    rfl
  · rfl

namespace ParkInv
variable {n : ℕ} {s : ParkState n}

/-- The mutex is not with a worker: every worker is outside. -/
theorem away (h : ParkInv s) (hmu : s.mu = .free ∨ s.mu = .host) (i : Fin n) :
    (s.worker i).pc.holds = false := by
  have hi := h.mu_worker i
  rcases hmu with hmu | hmu <;> rw [hmu] at hi <;> simpa using hi

theorem store (h : ParkInv s) {c : Call} (hh : s.host = .idle) :
    ParkInv { s.store c with host := .lock c } := by
  have hgen := h.gen_eq
  have hact := h.active_iff
  have hflag := h.flag_iff
  have hmu := h.mu_host
  rw [hh] at hgen hact hflag hmu
  have hfields : (s.store c).wakeGen = s.wakeGen ∧ (s.store c).notified = s.notified ∧
      (s.store c).mu = s.mu ∧ (s.store c).worker = s.worker := by
    cases c <;> exact ⟨rfl, rfl, rfl, rfl⟩
  refine ⟨?_, ?_, ?_, ?_, ?_, by simp, fun i => ?_⟩
  · simp only [hfields]
    exact hgen
  · cases c <;> simp_all [ParkState.store, HostPc.call]
  · cases c <;> simp_all [ParkState.store, HostPc.call]
  · rw [hfields.2.2.1]
    exact hmu
  · rw [hfields.2.2.1, hfields.2.2.2]
    exact h.mu_worker
  · have hw := h.worker i
    simp only [hfields]
    exact ⟨hw.gen_eq, fun _ => .inl (.inr ⟨c, rfl⟩), fun _ => .inr ⟨c, rfl⟩, hw.entered,
      fun hp => ⟨.inr ⟨c, .inl rfl⟩, (hw.blocked hp).2⟩⟩

theorem hostLock (h : ParkInv s) {c : Call} (hh : s.host = .lock c) (hfree : s.mu = .free) :
    ParkInv { s with mu := .host, host := .bump c } := by
  have hgen := h.gen_eq
  have hact := h.active_iff
  have hflag := h.flag_iff
  rw [hh] at hgen hact hflag
  refine ⟨hgen, hact, ?_, by simp [HostPc.holds], fun i => ?_, by simp, fun i => ?_⟩
  · simpa [HostPc.call] using hflag
  · simp [h.away (.inl hfree) i]
  · exact (h.worker i).away (h.away (.inl hfree) i) fun _ => .inr ⟨c, .inr (.inl rfl)⟩

theorem bump (h : ParkInv s) {c : Call} (hh : s.host = .bump c) :
    ParkInv { s with wakeGen := s.wakeGen + 1, host := .unlock c } := by
  have hgen := h.gen_eq
  have hact := h.active_iff
  have hflag := h.flag_iff
  have hmu := h.mu_host
  rw [hh] at hgen hact hflag hmu
  refine ⟨?_, hact, ?_, hmu, h.mu_worker, by simp, fun i => ?_⟩
  · simp only [hgen, HostPc.pending, Nat.add_zero]
    exact (UInt64.ofNat_add s.notified 1).symm
  · simpa [HostPc.call] using hflag
  · exact (h.worker i).away (h.away (.inr (hmu.mpr rfl)) i)
      fun _ => .inr ⟨c, .inr (.inr (.inl rfl))⟩

theorem hostUnlock (h : ParkInv s) {c : Call} (hh : s.host = .unlock c) :
    ParkInv { s with mu := .free, host := .notify c } := by
  have hgen := h.gen_eq
  have hact := h.active_iff
  have hflag := h.flag_iff
  have hmu := h.mu_host
  rw [hh] at hgen hact hflag hmu
  have haway := h.away (.inr (hmu.mpr rfl))
  refine ⟨hgen, hact, ?_, by simp [HostPc.holds], fun i => ?_, by simp, fun i => ?_⟩
  · simpa [HostPc.call] using hflag
  · simp [haway i]
  · exact (h.worker i).away (haway i) fun _ => .inr ⟨c, .inr (.inr (.inr rfl))⟩

theorem notify (h : ParkInv s) {c : Call} (hh : s.host = .notify c) :
    ParkInv { s with worker := fun i => (s.worker i).wake, notified := s.notified + 1,
                     host := .after c } := by
  have hgen := h.gen_eq
  have hact := h.active_iff
  have hflag := h.flag_iff
  have hmu := h.mu_host
  rw [hh] at hgen hact hflag hmu
  refine ⟨hgen, hact, ?_, hmu, fun i => ?_, by simp, fun i => ?_⟩
  · simpa [HostPc.call] using hflag
  · rw [Worker.holds_wake]
    exact h.mu_worker i
  · have hw := h.worker i
    rw [hh] at hw
    exact hw.wake

theorem done (h : ParkInv s) (hh : s.host = .after .run) :
    ParkInv { s with active := false, host := .idle } := by
  have hgen := h.gen_eq
  have hflag := h.flag_iff
  have hmu := h.mu_host
  rw [hh] at hgen hflag hmu
  refine ⟨hgen, by simp [HostPc.call], ?_, hmu, h.mu_worker, by simp, fun i => ?_⟩
  · simpa [HostPc.call] using hflag
  · have hw := h.worker i
    exact ⟨hw.gen_eq, fun _ => .inl (.inl rfl), fun _ => .inl rfl, hw.entered,
      fun hp => ⟨.inl rfl, (hw.blocked hp).2⟩⟩

theorem join (h : ParkInv s) (hh : s.host = .after .stop)
    (hexit : ∀ i, (s.worker i).pc = .exited) : ParkInv { s with host := .stopped } := by
  have hgen := h.gen_eq
  have hact := h.active_iff
  have hflag := h.flag_iff
  have hmu := h.mu_host
  rw [hh] at hgen hact hflag hmu
  refine ⟨hgen, ?_, ?_, hmu, h.mu_worker, fun _ => hexit, fun i => ?_⟩
  · simpa [HostPc.call] using hact
  · simpa [HostPc.call] using hflag
  · have hw := h.worker i
    exact hw.away (by rw [hexit i]; rfl) fun hp => by simp [hexit i] at hp

theorem start (h : ParkInv s) (hh : s.host = .stopped) :
    ParkInv { s with runFlag := true, worker := fun _ => {}, host := .idle } := by
  have hgen := h.gen_eq
  have hact := h.active_iff
  have hmu := h.mu_host
  rw [hh] at hgen hact hmu
  refine ⟨hgen, hact, by simp [HostPc.call], hmu, fun i => ?_, by simp, fun i => ?_⟩
  · have hi := h.mu_worker i
    rw [h.exited hh i] at hi
    exact hi
  · exact ⟨by simp, by simp, by simp, by simp, by simp⟩

end ParkInv

/-! ## The workers -/

namespace ParkInv
variable {n : ℕ} {s : ParkState n} {i : Fin n}

/-- A step of a worker that reads nothing of the predicate. -/
theorem setPc (h : ParkInv s) {pc : WorkerPc} (hrun : (s.worker i).pc ≠ .exited)
    (hpc : pc ≠ .predActive ∧ pc ≠ .predFlag ∧ pc ≠ .sleep ∧ pc ≠ .blocked)
    (hi : pc.holds = (s.worker i).pc.holds) : ParkInv (s.setPc i pc) :=
  h.movePc hrun ((h.worker i).setPc hpc) hi

theorem snapshot (h : ParkInv s) (hpc : (s.worker i).pc = .snapshot) :
    ParkInv (s.setWorker i ⟨.predGen, s.wakeGen, none⟩) := by
  apply h.movePc (by simp [hpc])
  · exact ⟨by simp, by simp, by simp, by simp, by simp⟩
  · rw [hpc]
    rfl

/-- `wake_gen_ != gen` is false. -/
theorem genEq (h : ParkInv s) (hpc : (s.worker i).pc = .predGen)
    (hgen : s.wakeGen = (s.worker i).gen) : ParkInv (s.setPc i .predActive) := by
  apply h.movePc (by simp [hpc])
  · exact ⟨fun _ => hgen, by simp, by simp, (h.worker i).entered, by simp⟩
  · rw [hpc]
    rfl

/-- `active` is 0: no run is between its store and its end. -/
theorem activeOff (h : ParkInv s) (hpc : (s.worker i).pc = .predActive) (hoff : s.active = false) :
    ParkInv (s.setPc i .predFlag) := by
  have hfree := h.host_free (i := i) (by rw [hpc]; rfl)
  have hact := h.active_iff
  rw [hoff] at hact
  have hw := h.worker i
  apply h.movePc (by simp [hpc])
  · refine ⟨fun _ => hw.gen_eq (.inl hpc), fun _ => ?_, by simp, hw.entered, by simp⟩
    cases hh : s.host with
    | idle => exact .inl (.inl rfl)
    | lock c => exact .inl (.inr ⟨c, rfl⟩)
    | bump c => simp [hh, HostPc.holds] at hfree
    | unlock c => simp [hh, HostPc.holds] at hfree
    | notify c =>
      cases c with
      | run => simp [hh, HostPc.call] at hact
      | stop => exact .inr (.inl rfl)
    | after c =>
      cases c with
      | run => simp [hh, HostPc.call] at hact
      | stop => exact .inr (.inr rfl)
    | stopped =>
      have hexit := h.exited hh i
      rw [hpc] at hexit
      cases hexit
  · rw [hpc]
    rfl

/-- `run_flag` is 1: no stop either, so no bump lies behind the snapshot. -/
theorem flagSet (h : ParkInv s) (hpc : (s.worker i).pc = .predFlag) (hset : s.runFlag = true) :
    ParkInv (s.setPc i .sleep) := by
  have hflag := h.flag_iff
  rw [hset] at hflag
  have hw := h.worker i
  apply h.movePc (by simp [hpc])
  · refine ⟨fun _ => hw.gen_eq (.inr (.inl hpc)), by simp, fun _ => ?_, hw.entered, by simp⟩
    rcases hw.read_active hpc with hq | hq | hq
    · exact hq
    · simp [hq, HostPc.call] at hflag
    · simp [hq, HostPc.call] at hflag
  · rw [hpc]
    rfl

/-- The worker goes to sleep, for the first time in this call or again. -/
theorem block (h : ParkInv s) (hpc : (s.worker i).pc = .sleep) :
    ParkInv { s.setWorker i { s.worker i with
      pc := .blocked, entered := some ((s.worker i).entered.getD s.notified) } with
      mu := .free } := by
  have hw := h.worker i
  have hquiet := hw.read_flag hpc
  have hgen : (s.worker i).gen = .ofNat s.notified := by
    have hpending : s.host.pending = 0 := by
      rcases hquiet with hq | ⟨c, hq⟩ <;> rw [hq] <;> rfl
    rw [← hw.gen_eq (.inr (.inr hpc)), h.gen_eq, hpending, Nat.add_zero]
  apply h.drop _ rfl (by rw [hpc]; rfl)
  cases he : (s.worker i).entered with
  | none =>
    refine ⟨by simp, by simp, by simp, fun e he' => ?_, fun _ => ⟨?_, s.notified, rfl, .inl rfl⟩⟩
    · obtain rfl : s.notified = e := by simpa using he'
      exact ⟨hgen, le_rfl⟩
    · exact hquiet.imp_right fun ⟨c, hq⟩ => ⟨c, .inl hq⟩
  | some e0 =>
    obtain ⟨hgen0, hle⟩ := hw.entered e0 he
    refine ⟨by simp, by simp, by simp, fun e he' => ?_, fun _ => ⟨?_, e0, rfl, ?_⟩⟩
    · obtain rfl : e0 = e := by simpa using he'
      exact ⟨hgen0, hle⟩
    · exact hquiet.imp_right fun ⟨c, hq⟩ => ⟨c, .inl hq⟩
    · -- the generation is the one of the first time
      have hmod : e0 % 2 ^ 64 = s.notified % 2 ^ 64 := by
        have heq := congrArg UInt64.toNat (hgen0.symm.trans hgen)
        simpa using heq
      omega

theorem step (h : ParkInv s) {s' : ParkState n} (hs : ParkStep s s') : ParkInv s' := by
  cases hs with
  | store c hh => exact h.store hh
  | hostLock c hh hfree => exact h.hostLock hh hfree
  | bump c hh => exact h.bump hh
  | hostUnlock c hh => exact h.hostUnlock hh
  | notify c hh => exact h.notify hh
  | done hh => exact h.done hh
  | join hh hexit => exact h.join hh hexit
  | start hh => exact h.start hh
  | flagOn i hpc _ => exact h.setPc (by simp [hpc]) (by simp) (by rw [hpc]; rfl)
  | flagOff i hpc _ => exact h.setPc (by simp [hpc]) (by simp) (by rw [hpc]; rfl)
  | work i hpc _ => exact h.setPc (by simp [hpc]) (by simp) (by rw [hpc]; rfl)
  | rest i hpc _ => exact h.setPc (by simp [hpc]) (by simp) (by rw [hpc]; rfl)
  | spin i hpc _ => exact h.setPc (by simp [hpc]) (by simp) (by rw [hpc]; rfl)
  | timeout i hpc => exact h.setPc (by simp [hpc]) (by simp) (by rw [hpc]; rfl)
  | lock i hpc hfree => exact h.take (by simp [hpc]) ((h.worker i).setPc (by simp)) rfl hfree
  | snapshot i hpc => exact h.snapshot hpc
  | genNe i hpc _ => exact h.setPc (by simp [hpc]) (by simp) (by rw [hpc]; rfl)
  | genEq i hpc hgen => exact h.genEq hpc hgen
  | activeOn i hpc _ => exact h.setPc (by simp [hpc]) (by simp) (by rw [hpc]; rfl)
  | activeOff i hpc hoff => exact h.activeOff hpc hoff
  | flagClear i hpc _ => exact h.setPc (by simp [hpc]) (by simp) (by rw [hpc]; rfl)
  | flagSet i hpc hset => exact h.flagSet hpc hset
  | block i hpc => exact h.block hpc
  | spurious i hpc => exact h.setPc (by simp [hpc]) (by simp) (by rw [hpc]; rfl)
  | relock i hpc hfree => exact h.take (by simp [hpc]) ((h.worker i).setPc (by simp)) rfl hfree
  | unlock i hpc => exact h.drop ((h.worker i).setPc (by simp)) rfl (by rw [hpc]; rfl)

end ParkInv

/-! ## Reachable states -/

theorem ParkReach.inv {n : ℕ} {s : ParkState n} (h : ParkReach s) : ParkInv s := by
  induction h with
  | init => exact .init n
  | step _ hs ih => exact ih.step hs

/-- A worker in the condition wait has blocked there after the last `notify_all`, unless `2 ^ 64`
calls have notified since; and while `active` is 1 or `run_flag` is 0 the notification that wakes
it is still to come. -/
theorem blocked_ok {n : ℕ} {s : ParkState n} (h : ParkReach s) (i : Fin n)
    (hb : (s.worker i).pc = .blocked) :
    (∃ e, (s.worker i).entered = some e ∧ (e = s.notified ∨ e + 2 ^ 64 ≤ s.notified)) ∧
      (s.active = true ∨ s.runFlag = false → s.host.Ahead) := by
  have hinv := h.inv
  obtain ⟨hhost, hentered⟩ := (hinv.worker i).blocked hb
  refine ⟨hentered, fun hflags => ?_⟩
  rcases hhost with hidle | hahead
  · have hact := hinv.active_iff
    have hflag := hinv.flag_iff
    rw [hidle] at hact hflag
    rcases hflags with ha | hf
    · simp [ha, HostPc.call] at hact
    · simp [hf, HostPc.call] at hflag
  · exact hahead

/-! ## A starved worker -/

/-- One worker, parked before the first run. -/
def parked : ParkState 1 := ⟨false, true, 0, .free, .idle, fun _ => ⟨.blocked, 0, some 0⟩, 0⟩

theorem reach_parked : ParkReach parked := by
  have h1 := (ParkReach.init (n := 1)).step (.flagOn _ 0 rfl rfl)
  have h2 := ((h1.step (.rest _ 0 rfl rfl)).step (.timeout _ 0 rfl)).step (.lock _ 0 rfl rfl)
  have h3 := (h2.step (.snapshot _ 0 rfl)).step (.genEq _ 0 rfl rfl)
  have h4 := (h3.step (.activeOff _ 0 rfl rfl)).step (.flagSet _ 0 rfl rfl)
  convert h4.step (.block _ 0 rfl) using 1
  rw [parked, ParkState.mk.injEq]
  refine ⟨rfl, rfl, rfl, rfl, rfl, ?_, rfl⟩
  ext i
  rw [Subsingleton.elim i 0]
  rfl

theorem blocked_ok_parked :
    (∃ e, (parked.worker 0).entered = some e ∧
      (e = parked.notified ∨ e + 2 ^ 64 ≤ parked.notified)) ∧
    (parked.active = true ∨ parked.runFlag = false → parked.host.Ahead) :=
  blocked_ok reach_parked 0 rfl

/-- Woken, but without the mutex, after `k` runs. -/
def starved (k : ℕ) : ParkState 1 :=
  ⟨false, true, .ofNat k, .free, .idle, fun _ => ⟨.woken, 0, some 0⟩, k⟩

theorem reach_starved (k : ℕ) : ParkReach (starved k) := by
  induction k with
  | zero =>
    convert reach_parked.step (.spurious _ 0 rfl) using 1
    rw [starved, ParkState.setPc, ParkState.setWorker, ParkState.mk.injEq]
    refine ⟨rfl, rfl, rfl, rfl, rfl, ?_, rfl⟩
    ext i
    rw [Subsingleton.elim i 0]
    rfl
  | succ k ih =>
    have h1 := (ih.step (.store _ .run rfl)).step (.hostLock _ .run rfl rfl)
    have h2 := (h1.step (.bump _ .run rfl)).step (.hostUnlock _ .run rfl)
    convert (h2.step (.notify _ .run rfl)).step (.done _ rfl) using 1
    rw [starved, ParkState.mk.injEq]
    exact ⟨rfl, rfl, UInt64.ofNat_add k 1, rfl, rfl, rfl, rfl⟩

/-- Woken before `2 ^ 64` runs and first to get the mutex after them, the worker finds the
generation it went to sleep with, and sleeps on. -/
theorem blocked_after_wrap : ∃ s : ParkState 1, ParkReach s ∧ (s.worker 0).pc = .blocked ∧
    (s.worker 0).entered = some 0 ∧ s.notified = 2 ^ 64 := by
  have h1 := (reach_starved (2 ^ 64)).step (.relock _ 0 rfl rfl)
  have h2 := (h1.step (.genEq _ 0 rfl rfl)).step (.activeOff _ 0 rfl rfl)
  exact ⟨_, (h2.step (.flagSet _ 0 rfl rfl)).step (.block _ 0 rfl), rfl, rfl, rfl⟩

end FastLlm.Park
