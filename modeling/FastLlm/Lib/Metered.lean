import FastLlm.Lib.ByteParser
import Mathlib.Data.Int.Order.Basic

/-!
# Metered parsers

Byte parsers over a fixed input that keep their position, count their steps and note the spans
they read, and that still have all of this when they stop.  A step is a round of a loop or a call
that the program marks.  `Meters` compares such a parser with a plain one: the results are the
same, the position and the spans stay inside the input, and the steps are paid for by the bytes
consumed.  What is left over pays for the steps of the next parser, so that a program which
consumes something in every round takes no more steps than the input has bytes, whatever the
bounds of its loops.

## Main definitions

* `MeteredParser` — the parsers, with `take`, `skip`, `tick`, `reserve` and `loop`.
* `Advance` — what a run does to the meter.
* `Meters room N p q k s` — `p` is `q` with a meter on inputs of which fewer than `N` bytes are
  left: it has `k` bytes left over when it succeeds and lacks at most `s` when it stops.
-/

namespace FastLlm

/-- Why a parser stops: it gives up, there is no memory, or the model has no fuel left. -/
inductive Stop
  | abort (msg : String)
  | noMemory
  | noFuel
  deriving DecidableEq

/-- The spans are start and length. -/
structure Meter where
  pos : ℕ := 0
  steps : ℕ := 0
  reads : List (ℕ × ℕ) := []
  deriving DecidableEq

abbrev MeteredParser (α : Type) := ReaderT (List UInt8) (ExceptT Stop (StateM Meter)) α

namespace MeteredParser
variable {α β σ : Type}

/-- A run keeps the meter also when it stops. -/
def exec (p : MeteredParser α) (bs : List UInt8) (m : Meter) : Except Stop α × Meter := p bs m

def stop (e : Stop) : MeteredParser α := fun _ m => (.error e, m)

def fail (msg : String) : MeteredParser α := stop (.abort msg)

/-- One step. -/
def tick : MeteredParser Unit := fun _ m => (.ok (), { m with steps := m.steps + 1 })

/-- The next `n` bytes. -/
def take (msg : String) (n : ℕ) : MeteredParser (List UInt8) := fun bs m =>
  if bs.length - m.pos < n then (.error (.abort msg), m)
  else (.ok ((bs.drop m.pos).take n), { m with pos := m.pos + n, reads := (m.pos, n) :: m.reads })

/-- Pass over `n` bytes without reading them. -/
def skip (msg : String) (n : ℕ) : MeteredParser Unit := fun bs m =>
  if bs.length - m.pos < n then (.error (.abort msg), m)
  else (.ok (), { m with pos := m.pos + n })

/-- The next `w` bytes as a little-endian number. -/
def nat (msg : String) (w : ℕ) : MeteredParser ℕ := do
  let bs ← take msg w
  pure (leNat bs)

/-- Memory for `n` elements, which `room` has or has not. -/
def reserve (room : ℕ → ℕ → Bool) (n : ℕ) : MeteredParser Unit := fun _ m =>
  if room m.pos n then (.ok (), m) else (.error .noMemory, m)

/-- A loop of `n` rounds, each a step. -/
def loop : ℕ → (σ → MeteredParser σ) → σ → MeteredParser σ
  | 0, _, s => pure s
  | n + 1, body, s => do
      tick
      let s' ← body s
      loop n body s'

theorem exec_pure (a : α) (bs : List UInt8) (m : Meter) :
    exec (pure a : MeteredParser α) bs m = (.ok a, m) := rfl

theorem exec_bind (p : MeteredParser α) (f : α → MeteredParser β) (bs : List UInt8) (m : Meter) :
    exec (p >>= f) bs m =
      match exec p bs m with
      | (.ok a, m') => exec (f a) bs m'
      | (.error e, m') => (.error e, m') := by
  change ExceptT.bindCont (fun a => f a bs) (p bs m).1 (p bs m).2 = _
  rw [exec]
  rcases p bs m with ⟨e | a, m'⟩
  · rfl
  · rfl

end MeteredParser

open MeteredParser

/-! ## What a run does to the meter -/

/-- From `m` to `m'` there are at most `d` steps more than bytes, and everything is inside the
input. -/
structure Advance (bs : List UInt8) (m m' : Meter) (d : ℤ) : Prop where
  pos_le : m.pos ≤ m'.pos
  inside : m'.pos ≤ bs.length
  steps_le : m.steps ≤ m'.steps
  paid : (m'.steps : ℤ) ≤ m.steps + (m'.pos - m.pos) + d
  reads : ∀ r ∈ m'.reads, r ∈ m.reads ∨ r.1 + r.2 ≤ bs.length

theorem Advance.refl {bs : List UInt8} {m : Meter} (h : m.pos ≤ bs.length) {d : ℤ} (hd : 0 ≤ d) :
    Advance bs m m d :=
  ⟨le_rfl, h, le_rfl, by omega, fun _ => Or.inl⟩

theorem Advance.trans {bs : List UInt8} {m m' m'' : Meter} {d d' : ℤ} (h : Advance bs m m' d)
    (h' : Advance bs m' m'' d') : Advance bs m m'' (d + d') where
  pos_le := h.pos_le.trans h'.pos_le
  inside := h'.inside
  steps_le := h.steps_le.trans h'.steps_le
  paid := by
    have := h.paid
    have := h'.paid
    omega
  reads r hr := by
    rcases h'.reads r hr with hr' | hr'
    · exact h.reads r hr'
    · exact Or.inr hr'

theorem Advance.mono {bs : List UInt8} {m m' : Meter} {d d' : ℤ} (h : Advance bs m m' d)
    (hd : d ≤ d') : Advance bs m m' d' :=
  { h with paid := h.paid.trans (by omega) }

/-! ## Plain and metered parsers -/

/-- A plain parser on what is left of the input gives up in the same way, or there is no memory. -/
def StopsAs {α : Type} (room : ℕ → ℕ → Bool) (q : ByteParser α) (bs : List UInt8) : Stop → Prop
  | .abort msg => q.run bs = .error msg
  | .noMemory => ∃ pos n, room pos n = false
  | .noFuel => False

/-- `p` is `q` with a meter. -/
structure Meters {α : Type} (room : ℕ → ℕ → Bool) (N : ℕ) (p : MeteredParser α) (q : ByteParser α)
    (k s : ℤ) : Prop where
  ok : ∀ {bs m a m'}, m.pos ≤ bs.length → bs.length - m.pos < N → p.exec bs m = (.ok a, m') →
    Advance bs m m' (-k) ∧ q.run (bs.drop m.pos) = .ok (a, bs.drop m'.pos)
  stop : ∀ {bs m e m'}, m.pos ≤ bs.length → bs.length - m.pos < N → p.exec bs m = (.error e, m') →
    Advance bs m m' s ∧ StopsAs room q (bs.drop m.pos) e

namespace Meters
variable {α β σ : Type} {room : ℕ → ℕ → Bool} {N M : ℕ} {p : MeteredParser α} {q : ByteParser α}
  {k k' s s' : ℤ}

theorem mono (h : Meters room N p q k s) (hk : k' ≤ k) (hs : s ≤ s') : Meters room N p q k' s' where
  ok hm hN hrun := ⟨(h.ok hm hN hrun).1.mono (by omega), (h.ok hm hN hrun).2⟩
  stop hm hN hrun := ⟨(h.stop hm hN hrun).1.mono hs, (h.stop hm hN hrun).2⟩

theorem pure (a : α) : Meters room N (pure a) (pure a) 0 s where
  ok {bs m a' m'} hm _ hrun := by
    rw [exec_pure, Prod.mk.injEq, Except.ok.injEq] at hrun
    obtain ⟨rfl, rfl⟩ := hrun
    exact ⟨Advance.refl hm (by decide), rfl⟩
  stop _ _ hrun := by simp [exec_pure] at hrun

theorem fail (msg : String) (hs : 0 ≤ s) :
    Meters room N (fail msg : MeteredParser α) (ByteParser.fail msg) k s where
  ok _ _ hrun := by simp [exec, MeteredParser.fail, MeteredParser.stop] at hrun
  stop {bs m e m'} hm _ hrun := by
    rw [exec, MeteredParser.fail, MeteredParser.stop, Prod.mk.injEq, Except.error.injEq] at hrun
    obtain ⟨rfl, rfl⟩ := hrun
    exact ⟨Advance.refl hm hs, rfl⟩

/-- One parser after the other: what the first leaves over pays for the second. -/
theorem bind {f : α → MeteredParser β} {g : α → ByteParser β} (hp : Meters room N p q k s)
    (hf : ∀ a, Meters room M (f a) (g a) k' (s + k)) (hN : (N : ℤ) ≤ M + k) :
    Meters room N (p >>= f) (q >>= g) (k + k') s := by
  have hlt {bs : List UInt8} {m m' : Meter} (hadv : Advance bs m m' (-k))
      (hb : bs.length - m.pos < N) : bs.length - m'.pos < M := by
    have := hadv.paid
    have := hadv.steps_le
    have := hadv.inside
    have := hadv.pos_le
    omega
  constructor
  · intro bs m b m' hm hb hrun
    rw [exec_bind] at hrun
    cases hpm : exec p bs m with
    | mk r m1 =>
      cases r with
      | error e => simp [hpm] at hrun
      | ok a =>
        obtain ⟨hadv, hq⟩ := hp.ok hm hb hpm
        rw [hpm] at hrun
        obtain ⟨hadv', hg⟩ := (hf a).ok hadv.inside (hlt hadv hb) hrun
        exact ⟨(hadv.trans hadv').mono (by omega),
          ByteParser.run_bind_ok.mpr ⟨a, _, hq, hg⟩⟩
  · intro bs m e m' hm hb hrun
    rw [exec_bind] at hrun
    cases hpm : exec p bs m with
    | mk r m1 =>
      cases r with
      | error e' =>
        rw [hpm, Prod.mk.injEq, Except.error.injEq] at hrun
        obtain ⟨rfl, rfl⟩ := hrun
        obtain ⟨hadv, hq⟩ := hp.stop hm hb hpm
        refine ⟨hadv, ?_⟩
        cases e' with
        | abort msg => exact ByteParser.run_bind_error hq
        | noMemory => exact hq
        | noFuel => exact hq
      | ok a =>
        obtain ⟨hadv, hq⟩ := hp.ok hm hb hpm
        rw [hpm] at hrun
        obtain ⟨hadv', hg⟩ := (hf a).stop hadv.inside (hlt hadv hb) hrun
        refine ⟨(hadv.trans hadv').mono (by omega), ?_⟩
        cases e with
        | abort msg => exact ByteParser.run_bind_ok_error hq hg
        | noMemory => exact hg
        | noFuel => exact hg

/-- The second parser on an input of any length. -/
theorem andThen {f : α → MeteredParser β} {g : α → ByteParser β} (hp : Meters room N p q k s)
    (hk : 0 ≤ k) (hf : ∀ a, Meters room N (f a) (g a) k' (s + k)) :
    Meters room N (p >>= f) (q >>= g) (k + k') s :=
  hp.bind hf (by omega)

/-- The condition of an `if`. -/
theorem ite {c : Prop} [Decidable c] {p' : MeteredParser α} {q' : ByteParser α}
    (h : c → Meters room N p q k s) (h' : ¬ c → Meters room N p' q' k s) :
    Meters room N (if c then p else p') (if c then q else q') k s := by
  split
  · exact h ‹_›
  · exact h' ‹_›

/-- A step. -/
theorem tick (h : Meters room N p q k s) :
    Meters room N (do MeteredParser.tick; p) q (k - 1) (s + 1) where
  ok {bs m a m'} hm hN hrun := by
    obtain ⟨hadv, hq⟩ := h.ok (m := { m with steps := m.steps + 1 }) hm hN hrun
    refine ⟨⟨hadv.pos_le, hadv.inside, ?_, ?_, hadv.reads⟩, hq⟩
    · exact (Nat.le_succ _).trans hadv.steps_le
    · have := hadv.paid
      push_cast at this
      omega
  stop {bs m e m'} hm hN hrun := by
    obtain ⟨hadv, hq⟩ := h.stop (m := { m with steps := m.steps + 1 }) hm hN hrun
    refine ⟨⟨hadv.pos_le, hadv.inside, ?_, ?_, hadv.reads⟩, hq⟩
    · exact (Nat.le_succ _).trans hadv.steps_le
    · have := hadv.paid
      push_cast at this
      omega

/-- Memory that is not there ends the run. -/
theorem reserve {n : ℕ} (h : Meters room N p q k s) (hs : 0 ≤ s) :
    Meters room N (do MeteredParser.reserve room n; p) q k s where
  ok {bs m a m'} hm hN hrun := by
    rw [exec_bind, exec, MeteredParser.reserve] at hrun
    by_cases hroom : room m.pos n
    · rw [if_pos hroom] at hrun
      exact h.ok hm hN hrun
    · rw [if_neg hroom] at hrun
      simp at hrun
  stop {bs m e m'} hm hN hrun := by
    rw [exec_bind, exec, MeteredParser.reserve] at hrun
    by_cases hroom : room m.pos n
    · rw [if_pos hroom] at hrun
      exact h.stop hm hN hrun
    · rw [if_neg hroom, Prod.mk.injEq, Except.error.injEq] at hrun
      obtain ⟨rfl, rfl⟩ := hrun
      exact ⟨Advance.refl hm hs, m.pos, n, by simpa using hroom⟩

theorem take (msg : String) (n : ℕ) (hs : 0 ≤ s) :
    Meters room N (MeteredParser.take msg n) (ByteParser.take msg n) n s where
  ok {bs m a m'} hm _ hrun := by
    rw [exec, MeteredParser.take] at hrun
    split at hrun
    · simp at hrun
    · rename_i hlen
      rw [Prod.mk.injEq, Except.ok.injEq] at hrun
      obtain ⟨rfl, rfl⟩ := hrun
      refine ⟨⟨by simp, by simp; omega, le_rfl, by simp, fun r hr => ?_⟩, ?_⟩
      · rcases List.mem_cons.mp hr with rfl | hr'
        · exact Or.inr (by simp; omega)
        · exact Or.inl hr'
      · rw [ByteParser.run_take_of_le (by rw [List.length_drop]; omega), List.drop_drop]
  stop {bs m e m'} hm _ hrun := by
    rw [exec, MeteredParser.take] at hrun
    split at hrun
    · rename_i hlen
      rw [Prod.mk.injEq, Except.error.injEq] at hrun
      obtain ⟨rfl, rfl⟩ := hrun
      exact ⟨Advance.refl hm hs, ByteParser.run_take_of_lt (by rwa [List.length_drop])⟩
    · simp at hrun

theorem skip (msg : String) (n : ℕ) (hs : 0 ≤ s) :
    Meters room N (MeteredParser.skip msg n)
      (do let _ ← ByteParser.take msg n; Pure.pure ()) n s where
  ok {bs m a m'} hm _ hrun := by
    rw [exec, MeteredParser.skip] at hrun
    split at hrun
    · simp at hrun
    · rename_i hlen
      rw [Prod.mk.injEq] at hrun
      obtain ⟨-, rfl⟩ := hrun
      refine ⟨⟨by simp, by simp; omega, le_rfl, by simp, fun r hr => Or.inl hr⟩, ?_⟩
      rw [ByteParser.run_bind_ok]
      refine ⟨_, _, ByteParser.run_take_of_le (by rw [List.length_drop]; omega), ?_⟩
      rw [List.drop_drop]
      rfl
  stop {bs m e m'} hm _ hrun := by
    rw [exec, MeteredParser.skip] at hrun
    split at hrun
    · rename_i hlen
      rw [Prod.mk.injEq, Except.error.injEq] at hrun
      obtain ⟨rfl, rfl⟩ := hrun
      exact ⟨Advance.refl hm hs, ByteParser.run_bind_error
        (ByteParser.run_take_of_lt (by rwa [List.length_drop]))⟩
    · simp at hrun

theorem nat (msg : String) (w : ℕ) (hs : 0 ≤ s) :
    Meters room N (MeteredParser.nat msg w) (ByteParser.nat msg w) w s := by
  have h : Meters room N (MeteredParser.take msg w) (ByteParser.take msg w) w s := take msg w hs
  exact (h.andThen (by omega) fun bs => pure (leNat bs)).mono (by omega) le_rfl

/-- A loop whose rounds leave something over for the next. -/
theorem loop {body : σ → MeteredParser σ} {body' : σ → ByteParser σ} (n : ℕ) (st : σ)
    (h : ∀ st, Meters room N (body st) (body' st) 1 s) :
    Meters room N (MeteredParser.loop n body st) (ByteParser.loop n body' st) 0 (s + 1) := by
  induction n generalizing st with
  | zero => exact pure st
  | succ n ih =>
    have hround := (h st).andThen (by decide) fun st' => (ih st').mono le_rfl (le_refl (s + 1))
    exact hround.tick

end Meters

end FastLlm
