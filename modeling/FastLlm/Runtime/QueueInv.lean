import FastLlm.Runtime.Queue
import Mathlib.Data.Nat.ModEq
import Mathlib.Tactic.NormNum

/-!
# The invariant of the ready queue

The queue in memory mirrors the history of its run: the cursors are the wrapped numbers of
enqueued and of claimed positions, and the `seq` of a cell tells how far the last position
enqueued there has come.  A thread in the middle of an operation holds a stale cursor, or owns
the positions it reserved or claimed.  The positions other threads own do not move under it, so
each thread's part of the invariant survives the others' steps (`Local.of_move`).

The local copies of cursors are the only place where wrapping matters.  A cursor runs ahead of a
copy by the pushes that finished since, of which there are fewer than `2³¹ - capacity`, and by
the unfinished ones, of which there are at most `capacity`.

## Main definitions

* `Mirrors` — the queue in memory against the history.
* `AtPc`, `Local` — what a thread knows where it stands, and the positions it owns.
* `Delivered` — the delivered positions and values are right.
* `Inv` — all of it.
-/

namespace FastLlm.ReadyQueue

variable {ι : Type} {cap : ℕ}

/-- The `seq` of the cell of a position that has come to some phase. -/
def seqOf (cap k : ℕ) : Phase → ℕ
  | .fresh | .reserved | .stored => k
  | .ready | .claimed | .taken => k + 1
  | .free => k + cap

/-- The queue in memory tells the history of its run. -/
structure Mirrors (cap : ℕ) (q : Queue) (r : Ring ι UInt32) : Prop where
  mask : q.mask = wrap (cap - 1)
  head : q.head = wrap r.enq.length
  tail : q.tail = wrap r.deq.length
  seq : ∀ k < r.enq.length, r.enq.length ≤ k + cap →
    (q.cells (k % cap)).seq = wrap (seqOf cap k (r.phase k))
  seq_fresh : ∀ k < cap, r.enq.length ≤ k → (q.cells k).seq = wrap k
  val : ∀ k t v, r.enq[k]? = some (t, v) → (r.phase k).holds → (q.cells (k % cap)).val = v

/-- A capacity the queue takes. -/
structure Capacity (cap : ℕ) : Prop where
  pow2 : cap.isPowerOfTwo
  lt : cap < 2 ^ 31

theorem Capacity.pos (h : Capacity cap) : 0 < cap := by
  obtain ⟨b, rfl⟩ := h.pow2
  exact Nat.two_pow_pos b

theorem Capacity.le (h : Capacity cap) : cap ≤ 2 ^ 30 := by
  obtain ⟨b, rfl⟩ := h.pow2
  have hb : b < 31 := (Nat.pow_lt_pow_iff_right (by decide)).1 h.lt
  exact Nat.pow_le_pow_right (by decide) (by omega)

/-- Of the last `cap` positions, one lives in each cell. -/
theorem eq_of_mod_eq {n j k : ℕ} (hj : j < n) (hj' : n ≤ j + cap) (hk : k < n)
    (hk' : n ≤ k + cap) (h : j % cap = k % cap) : j = k := by
  apply Nat.ModEq.eq_of_abs_lt (m := cap) h
  rw [abs_lt]
  omega

namespace Queue

variable (q : Queue) (pos x : UInt32) (i : ℕ)

@[simp] theorem storeSeq_mask : (q.storeSeq pos x).mask = q.mask := rfl
@[simp] theorem storeSeq_head : (q.storeSeq pos x).head = q.head := rfl
@[simp] theorem storeSeq_tail : (q.storeSeq pos x).tail = q.tail := rfl
@[simp] theorem storeVal_mask : (q.storeVal pos x).mask = q.mask := rfl
@[simp] theorem storeVal_head : (q.storeVal pos x).head = q.head := rfl
@[simp] theorem storeVal_tail : (q.storeVal pos x).tail = q.tail := rfl

theorem storeSeq_seq :
    ((q.storeSeq pos x).cells i).seq = if i = q.cell pos then x else (q.cells i).seq := by
  simp only [storeSeq, Function.update_apply]
  split <;> rfl

@[simp] theorem storeSeq_val : ((q.storeSeq pos x).cells i).val = (q.cells i).val := by
  simp only [storeSeq, Function.update_apply]
  split
  · next h => rw [h]
  · rfl

theorem storeVal_val :
    ((q.storeVal pos x).cells i).val = if i = q.cell pos then x else (q.cells i).val := by
  simp only [storeVal, Function.update_apply]
  split <;> rfl

@[simp] theorem storeVal_seq : ((q.storeVal pos x).cells i).seq = (q.cells i).seq := by
  simp only [storeVal, Function.update_apply]
  split
  · next h => rw [h]
  · rfl

/-- The cell of a position. -/
theorem cell_wrap {q : Queue} (hcap : Capacity cap) (hmask : q.mask = wrap (cap - 1)) (k : ℕ) :
    q.cell (wrap k) = k % cap := by
  obtain ⟨b, rfl⟩ := hcap.pow2
  have hb : b < 31 := (Nat.pow_lt_pow_iff_right (by decide)).1 hcap.lt
  have hle : 2 ^ b ≤ 2 ^ 32 := Nat.pow_le_pow_right (by decide) (by omega)
  have hwrap : (wrap (2 ^ b - 1)).toNat = 2 ^ b - 1 := by
    rw [wrap_toNat]
    exact Nat.mod_eq_of_lt (by have := Nat.two_pow_pos b; omega)
  rw [Queue.cell, hmask, UInt32.toNat_and, hwrap, wrap_toNat, Nat.and_two_pow_sub_one_eq_mod]
  exact Nat.mod_mod_of_dvd k (Nat.pow_dvd_pow 2 (by omega))

theorem init_mask (hcap : Capacity cap) (light : Bool) :
    (init (UInt32.ofNat cap) light).mask = wrap (cap - 1) := by
  have hpos := hcap.pos
  have hone : wrap cap = wrap (cap - 1) + 1 := by rw [wrap_add_one]; congr; omega
  show wrap cap - 1 = wrap (cap - 1)
  rw [hone, UInt32.add_sub_cancel]

end Queue

namespace Mirrors

variable {q : Queue} {r : Ring ι UInt32}

theorem cell (hcap : Capacity cap) (h : Mirrors cap q r) (k : ℕ) : q.cell (wrap k) = k % cap :=
  Queue.cell_wrap hcap h.mask k

theorem seqAt (hcap : Capacity cap) (h : Mirrors cap q r) (k : ℕ) :
    q.seqAt (wrap k) = (q.cells (k % cap)).seq := by
  rw [Queue.seqAt, h.cell hcap]

theorem init (hcap : Capacity cap) (light : Bool) :
    Mirrors cap (.init (UInt32.ofNat cap) light) (Ring.start : Ring ι UInt32) where
  mask := Queue.init_mask hcap light
  head := rfl
  tail := rfl
  seq k hk := by simp at hk
  seq_fresh k _ _ := rfl
  val k t v hk := by simp at hk

/-- A push finds `seq = pos` only at a cell that is free. -/
theorem vacant_of_seq (hcap : Capacity cap) (htwo : cap ≠ 1) (h : Mirrors cap q r)
    (hok : r.Ok cap) (hseq : q.seqAt (wrap r.enq.length) = wrap r.enq.length) :
    r.Vacant cap r.enq.length := by
  intro hle
  have hpos := hcap.pos
  have hlarge := hcap.le
  have hcell : (r.enq.length - cap) % cap = r.enq.length % cap := (Nat.mod_eq_sub_mod hle).symm
  have hlast := h.seq (r.enq.length - cap) (by omega) (by omega)
  rw [hcell, ← h.seqAt hcap, hseq] at hlast
  have hne : r.phase (r.enq.length - cap) ≠ .fresh := fun hf =>
    absurd ((hok.fresh_iff _).1 hf) (by omega)
  cases hp : r.phase (r.enq.length - cap) with
  | fresh => exact absurd hp hne
  | free => rfl
  | reserved | stored | ready | claimed | taken =>
    rw [hp] at hlast
    have heq := wrap_inj_of_lt (by simp only [seqOf]; omega) (by simp only [seqOf]; omega)
      hlast.symm
    simp only [seqOf] at heq
    omega

/-- A consumer finds `seq = pos + 1` only at a cell that is ready. -/
theorem ready_of_seq (hcap : Capacity cap) (h : Mirrors cap q r) (hok : r.Ok cap) {k : ℕ}
    (hk : r.deq.length ≤ k) (hk' : k ≤ r.enq.length) (hseq : q.seqAt (wrap k) = wrap (k + 1)) :
    r.phase k = .ready := by
  have hpos := hcap.pos
  have hlarge := hcap.le
  have hroom := hok.enq_le
  rw [h.seqAt hcap] at hseq
  rcases Nat.lt_or_eq_of_le hk' with hlt | rfl
  · -- an enqueued position, not claimed
    have hcur := h.seq k hlt (by omega)
    rw [hseq] at hcur
    have hpassed : ¬ (r.phase k).passed := fun hp => absurd ((hok.passed_iff k).1 hp) (by omega)
    have hne : r.phase k ≠ .fresh := fun hf => absurd ((hok.fresh_iff _).1 hf) (by omega)
    cases hp : r.phase k with
    | ready => rfl
    | fresh => exact absurd hp hne
    | claimed | taken | free => rw [hp] at hpassed; exact absurd rfl hpassed
    | reserved | stored =>
      rw [hp] at hcur
      have heq := wrap_inj_of_lt (by simp only [seqOf]; omega) (by simp only [seqOf]; omega)
        hcur.symm
      simp only [seqOf] at heq
      omega
  · -- the next position to be enqueued: its cell tells of a lap before, or of nothing yet
    exfalso
    rcases Nat.lt_or_ge r.enq.length cap with hlt | hge
    · have hfresh := h.seq_fresh _ hlt le_rfl
      rw [Nat.mod_eq_of_lt hlt, hfresh] at hseq
      have heq := wrap_inj_of_lt (by omega) (by omega) hseq
      omega
    · have hcell : (r.enq.length - cap) % cap = r.enq.length % cap :=
        (Nat.mod_eq_sub_mod hge).symm
      have hlast := h.seq (r.enq.length - cap) (by omega) (by omega)
      rw [hcell, hseq] at hlast
      cases hp : r.phase (r.enq.length - cap) with
      | _ =>
        rw [hp] at hlast
        have heq := wrap_inj_of_lt (by simp only [seqOf]; omega) (by simp only [seqOf]; omega)
          hlast.symm
        simp only [seqOf] at heq
        omega

/-- The compare-and-swap of a push. -/
theorem reserve (h : Mirrors cap q r) (hok : r.Ok cap) (t : ι) (v : UInt32)
    (hv : r.Vacant cap r.enq.length) :
    Mirrors cap { q with head := wrap (r.enq.length + 1) } (r.reserve t v) where
  mask := h.mask
  head := by simp
  tail := h.tail
  seq k hk hk' := by
    simp only [Ring.reserve_enq, List.length_append, List.length_singleton] at hk hk'
    rw [Ring.reserve_phase]
    split
    · next heq =>
      subst heq
      show (q.cells _).seq = wrap r.enq.length
      rcases Nat.lt_or_ge r.enq.length cap with hlt | hge
      · rw [Nat.mod_eq_of_lt hlt]
        exact h.seq_fresh _ hlt le_rfl
      · have hlast := h.seq (r.enq.length - cap) (by omega) (by omega)
        rw [hv hge, ← Nat.mod_eq_sub_mod hge] at hlast
        rw [hlast]
        show wrap (r.enq.length - cap + cap) = _
        rw [Nat.sub_add_cancel hge]
    · next hne => exact h.seq k (by omega) (by omega)
  seq_fresh k hk hk' := by
    simp only [Ring.reserve_enq, List.length_append, List.length_singleton] at hk'
    exact h.seq_fresh k hk (by omega)
  val k u w hk hp := by
    rw [Ring.reserve_phase] at hp
    split at hp
    · simp [Phase.holds] at hp
    · have hlt : k < r.enq.length := hok.lt_enq (by rintro hf; simp [hf, Phase.holds] at hp)
      rw [Ring.reserve_enq, List.getElem?_append_left hlt] at hk
      exact h.val k u w hk hp

/-- A step of the history that no `seq` shows. -/
theorem of_phases (h : Mirrors cap q r) {r' : Ring ι UInt32} {tl : UInt32} (henq : r'.enq = r.enq)
    (htail : tl = wrap r'.deq.length)
    (hseq : ∀ k, seqOf cap k (r'.phase k) = seqOf cap k (r.phase k))
    (hholds : ∀ k, (r'.phase k).holds → (r.phase k).holds) :
    Mirrors cap { q with tail := tl } r' where
  mask := h.mask
  head := by rw [henq]; exact h.head
  tail := htail
  seq k hk hk' := by
    rw [henq] at hk hk'
    rw [hseq]
    exact h.seq k hk hk'
  seq_fresh k hk hk' := h.seq_fresh k hk (henq ▸ hk')
  val k u w hk hp := h.val k u w (henq ▸ hk) (hholds k hp)

/-- The compare-and-swap of a consumer. -/
theorem claim (h : Mirrors cap q r) (t : ι) {m : ℕ} (hm : r.AllReady r.deq.length m) :
    Mirrors cap { q with tail := wrap (r.deq.length + m) } (r.claim t m) := by
  have hready : ∀ k, (r.deq.length ≤ k ∧ k < r.deq.length + m) → r.phase k = .ready := by
    intro k hk
    have := hm (k - r.deq.length) (by omega)
    rwa [Nat.add_sub_cancel' hk.1] at this
  refine h.of_phases rfl (by simp) (fun k => ?_) fun k => ?_
  · rw [Ring.claim_phase]
    split
    · next hk => rw [hready k hk]; rfl
    · rfl
  · rw [Ring.claim_phase]
    split
    · next hk => rw [hready k hk]; exact fun _ => rfl
    · exact id

/-- The load of a value. -/
theorem take (h : Mirrors cap q r) {k : ℕ} (hk : r.phase k = .claimed) :
    Mirrors cap q (r.mark k .taken) := by
  have hdeq : q.tail = wrap (r.mark k .taken).deq.length := h.tail
  refine h.of_phases rfl hdeq (fun j => ?_) fun j => ?_
  · rw [Ring.mark_phase]
    split
    · next hj => rw [hj, hk]; rfl
    · rfl
  · rw [Ring.mark_phase]
    split
    · intro hp; cases hp
    · exact id

/-- The store of a value. -/
theorem storeVal (hcap : Capacity cap) (h : Mirrors cap q r) (hok : r.Ok cap) {k : ℕ} {t : ι}
    {v : UInt32} (he : r.enq[k]? = some (t, v)) (hk : r.phase k = .reserved) :
    Mirrors cap (q.storeVal (wrap k) v) (r.mark k .stored) where
  mask := h.mask
  head := h.head
  tail := h.tail
  seq j hj hj' := by
    rw [Queue.storeVal_seq, h.seq j hj hj', Ring.mark_phase]
    split
    · next heq => rw [heq, hk]; rfl
    · rfl
  seq_fresh j hj hj' := by
    rw [Queue.storeVal_seq]
    exact h.seq_fresh j hj hj'
  val j u w hj hp := by
    rw [Queue.storeVal_val, h.cell hcap]
    rw [Ring.mark_enq] at hj
    have hjlt : j < r.enq.length := (List.getElem?_eq_some_iff.1 hj).1
    by_cases hjk : j = k
    · subst hjk
      rw [hj] at he
      rw [if_pos rfl]
      exact (congrArg Prod.snd (Option.some.inj he)).symm
    · rw [Ring.mark_phase, if_neg hjk] at hp
      have hcell : j % cap ≠ k % cap := fun hmod => hjk <|
        eq_of_mod_eq hjlt (hok.enq_le_add (by rintro hf; simp [hf, Phase.holds] at hp))
          (hok.lt_enq (by simp [hk])) (hok.enq_le_add (by simp [hk])) hmod
      rw [if_neg hcell]
      exact h.val j u w hj hp

/-- The store of a `seq`, by a producer when it publishes and by a consumer when it recycles. -/
theorem storeSeq (hcap : Capacity cap) (h : Mirrors cap q r) (hok : r.Ok cap) {k : ℕ} {p : Phase}
    (hk : r.phase k ≠ .fresh) (hk' : r.phase k ≠ .free) (hp : p.holds → (r.phase k).holds) :
    Mirrors cap (q.storeSeq (wrap k) (wrap (seqOf cap k p))) (r.mark k p) where
  mask := h.mask
  head := h.head
  tail := h.tail
  seq j hj hj' := by
    rw [Ring.mark_enq] at hj hj'
    rw [Queue.storeSeq_seq, h.cell hcap, Ring.mark_phase]
    by_cases hjk : j = k
    · rw [hjk, if_pos rfl, if_pos rfl]
    · have hcell : j % cap ≠ k % cap := fun hmod => hjk <|
        eq_of_mod_eq hj hj' (hok.lt_enq hk) (hok.enq_le_add hk') hmod
      rw [if_neg hcell, if_neg hjk]
      exact h.seq j hj hj'
  seq_fresh j hj hj' := by
    rw [Ring.mark_enq] at hj'
    have hlt := hok.lt_enq hk
    have hmod := Nat.mod_le k cap
    rw [Queue.storeSeq_seq, h.cell hcap, if_neg (by omega)]
    exact h.seq_fresh j hj hj'
  val j u w hj hp' := by
    rw [Queue.storeSeq_val]
    apply h.val j u w hj
    rw [Ring.mark_phase] at hp'
    split at hp'
    · next hjk => rw [hjk]; exact hp hp'
    · exact hp'

end Mirrors

/-! ## What a thread knows -/

/-- `pos` is a copy of `head` from when it stood at position `p`. -/
structure CopyOfHead (r : Ring ι UInt32) (since : ℕ) (pos : UInt32) (p : ℕ) : Prop where
  pos_eq : pos = wrap p
  le : p ≤ r.enq.length
  recent : r.published ≤ p + since

/-- `pos` is a copy of `tail` from when it stood at position `p`. -/
structure CopyOfTail (cap : ℕ) (r : Ring ι UInt32) (since : ℕ) (pos : UInt32) (p : ℕ) : Prop where
  pos_eq : pos = wrap p
  le : p ≤ r.deq.length
  recent : r.published ≤ p + cap + since

/-- `t` claimed the `m` positions from `base` on, which have come to the phases `ph`, and has
read the values `out`; `done` are the positions delivered so far. -/
structure Taking (r : Ring ι UInt32) (done : List ℕ) (t : ι) (base : ℕ) (pos : UInt32) (m : ℕ)
    (out : List UInt32) (ph : ℕ → Phase) : Prop where
  pos_eq : pos = wrap base
  mine : ∀ j < m, r.deq[base + j]? = some t
  phase : ∀ j < m, r.phase (base + j) = ph j
  kept : ∀ j < m, base + j ∉ done
  vals : ∀ j v, out[j]? = some v → ∃ u, r.enq[base + j]? = some (u, v)

/-- The phase of the `j`-th claimed position when the `i`-th is about to be read. -/
def readPhase (light : Bool) (i j : ℕ) : Phase :=
  if j < i then (if light then .taken else .free) else .claimed

/-- The phase of the `j`-th claimed position when the `i`-th is about to be recycled. -/
def recyclePhase (light : Bool) (i j : ℕ) : Phase :=
  if j < i then .free else if light || j = i then .taken else .claimed

/-- What a thread knows where it stands. -/
def AtPc (cap : ℕ) (r : Ring ι UInt32) (done : List ℕ) (t : ι) (base since : ℕ) : Pc → Prop
  | .pushSeq _ pos => ∃ p, CopyOfHead r since pos p
  | .pushCas _ pos => ∃ p, CopyOfHead r since pos p ∧ (r.enq.length = p → r.Vacant cap p)
  | .pushVal v pos => pos = wrap base ∧ r.enq[base]? = some (t, v) ∧ r.phase base = .reserved
  | .pushDone pos =>
    pos = wrap base ∧ (∃ v, r.enq[base]? = some (t, v)) ∧ r.phase base = .stored
  | .popSeq pos => ∃ p, CopyOfTail cap r since pos p
  | .popCas pos => ∃ p, CopyOfTail cap r since pos p ∧ (r.deq.length = p → r.AllReady p 1)
  | .bulkScan _ _ pos m =>
    ∃ p, CopyOfTail cap r since pos p ∧ (r.deq.length = p → r.AllReady p m)
  | .bulkCas _ _ pos m =>
    0 < m ∧ ∃ p, CopyOfTail cap r since pos p ∧ (r.deq.length = p → r.AllReady p m)
  | .readVal light pos m i out =>
    i < m ∧ out.length = i ∧ Taking r done t base pos m out (readPhase light i)
  | .recycle light pos m i out => i < m ∧ out.length = (if light then m else i + 1) ∧
      Taking r done t base pos m out (recyclePhase light i)
  | _ => True

/-- How many positions the thread has claimed and not delivered. -/
def Pc.taking : Pc → ℕ
  | .readVal _ _ m _ _ | .recycle _ _ m _ _ => m
  | _ => 0

/-- The thread has a position to publish. -/
def Pc.pushing : Pc → Bool
  | .pushVal .. | .pushDone .. => true
  | _ => false

namespace State

/-- The positions delivered so far. -/
def delivered (s : State ι) : List ℕ := s.popped.flatMap Delivery.positions

/-- The thread is at work on position `k`, which it claimed. -/
def Takes (s : State ι) (t : ι) (k : ℕ) : Prop :=
  s.base t ≤ k ∧ k < s.base t + (s.pc t).taking

end State

/-- What a thread knows, and what has become of the positions it enqueued and claimed. -/
structure Local (cap : ℕ) (s : State ι) (t : ι) : Prop where
  at_pc : AtPc cap s.ring s.delivered t (s.base t) (s.since t) (s.pc t)
  pushes : ∀ k v, s.ring.enq[k]? = some (t, v) → (s.ring.phase k).inPush →
    (s.pc t).pushing ∧ s.base t = k
  claims : ∀ k, s.ring.deq[k]? = some t → k ∈ s.delivered ∨ s.Takes t k

/-- The delivered positions are done with, delivered once, to who claimed them and with the
values that were pushed. -/
structure Delivered (r : Ring ι UInt32) (popped : List (Delivery ι)) : Prop where
  free : ∀ k ∈ popped.flatMap Delivery.positions, r.phase k = .free
  nodup : (popped.flatMap Delivery.positions).Nodup
  right : ∀ d ∈ popped, ∀ i v, d.vals[i]? = some v →
    r.deq[d.base + i]? = some d.by_ ∧ ∃ u, r.enq[d.base + i]? = some (u, v)

/-- The invariant of the queue. -/
structure Inv (cap : ℕ) (s : State ι) : Prop where
  ok : s.ring.Ok cap
  mirrors : Mirrors cap s.q s.ring
  delivered : Delivered s.ring s.popped
  threads : ∀ t, Local cap s t

section frame

variable {r r' : Ring ι UInt32} {done done' : List ℕ} {t u : ι} {base since since' : ℕ}

theorem CopyOfHead.mono {pos : UInt32} {p : ℕ} (h : CopyOfHead r since pos p)
    (henq : r.enq.length ≤ r'.enq.length)
    (hsince : r'.published + since ≤ r.published + since') : CopyOfHead r' since' pos p where
  pos_eq := h.pos_eq
  le := h.le.trans henq
  recent := by
    have := h.recent
    omega

theorem CopyOfTail.mono {pos : UInt32} {p : ℕ} (h : CopyOfTail cap r since pos p)
    (hdeq : r.deq.length ≤ r'.deq.length)
    (hsince : r'.published + since ≤ r.published + since') :
    CopyOfTail cap r' since' pos p where
  pos_eq := h.pos_eq
  le := h.le.trans hdeq
  recent := by
    have := h.recent
    omega

/-- Cells that are ready at the tail stay so while the tail stands still. -/
theorem ready_at_tail (hok : r.Ok cap) (hm : Ring.Move cap t r r') {p m : ℕ}
    (hp : p ≤ r.deq.length) (h : r.deq.length = p → r.AllReady p m) :
    r'.deq.length = p → r'.AllReady p m := by
  intro heq i hi
  have hle := hm.deq_le
  exact hm.ready hok (h (by omega) i hi) (by omega)

theorem Taking.of_move (hok : r.Ok cap) (hm : Ring.Move cap t r r') (hu : u ≠ t)
    (hdone : ∀ k ∈ done', k ∈ done ∨ r'.deq[k]? = some t) {pos : UInt32} {m : ℕ}
    {out : List UInt32} {ph : ℕ → Phase} (h : Taking r done u base pos m out ph) :
    Taking r' done' u base pos m out ph where
  pos_eq := h.pos_eq
  mine j hj := hm.getElem?_deq (h.mine j hj)
  phase j hj := by rw [hm.passed_ne hok hu (h.mine j hj), h.phase j hj]
  kept j hj hin := by
    rcases hdone _ hin with hold | hnew
    · exact h.kept j hj hold
    · rw [hm.getElem?_deq (h.mine j hj)] at hnew
      exact hu (Option.some.inj hnew)
  vals j v hj := by
    obtain ⟨w, hw⟩ := h.vals j v hj
    exact ⟨w, hm.getElem?_enq hw⟩

/-- What a thread knows survives the moves of the others. -/
theorem AtPc.of_move (hok : r.Ok cap) (hm : Ring.Move cap t r r') (hu : u ≠ t)
    (hsince : r'.published + since ≤ r.published + since')
    (hdone : ∀ k ∈ done', k ∈ done ∨ r'.deq[k]? = some t) {pc : Pc}
    (h : AtPc cap r done u base since pc) : AtPc cap r' done' u base since' pc := by
  cases pc with
  | idle | pushLoad | popLoad | bulkLoad | bulkEmpty => trivial
  | pushSeq v pos =>
    obtain ⟨p, hp⟩ := h
    exact ⟨p, hp.mono hm.enq_le hsince⟩
  | pushCas v pos =>
    obtain ⟨p, hp, hvac⟩ := h
    refine ⟨p, hp.mono hm.enq_le hsince, ?_⟩
    intro heq hcap
    have hle := hm.enq_le
    have hple := hp.le
    exact hm.free hok (hvac (by omega) hcap)
  | pushVal v pos =>
    obtain ⟨hpos, he, hph⟩ := h
    exact ⟨hpos, hm.getElem?_enq he,
      by rw [hm.inPush_ne hok hu he (by rw [hph]; rfl), hph]⟩
  | pushDone pos =>
    obtain ⟨hpos, ⟨v, he⟩, hph⟩ := h
    exact ⟨hpos, ⟨v, hm.getElem?_enq he⟩,
      by rw [hm.inPush_ne hok hu he (by rw [hph]; rfl), hph]⟩
  | popSeq pos =>
    obtain ⟨p, hp⟩ := h
    exact ⟨p, hp.mono hm.deq_le hsince⟩
  | popCas pos =>
    obtain ⟨p, hp, hready⟩ := h
    exact ⟨p, hp.mono hm.deq_le hsince, ready_at_tail hok hm hp.le hready⟩
  | bulkScan light maxn pos m =>
    obtain ⟨p, hp, hready⟩ := h
    exact ⟨p, hp.mono hm.deq_le hsince, ready_at_tail hok hm hp.le hready⟩
  | bulkCas light maxn pos m =>
    obtain ⟨hpos, p, hp, hready⟩ := h
    exact ⟨hpos, p, hp.mono hm.deq_le hsince, ready_at_tail hok hm hp.le hready⟩
  | readVal light pos m i out =>
    obtain ⟨hi, hlen, htake⟩ := h
    exact ⟨hi, hlen, htake.of_move hok hm hu hdone⟩
  | recycle light pos m i out =>
    obtain ⟨hi, hlen, htake⟩ := h
    exact ⟨hi, hlen, htake.of_move hok hm hu hdone⟩

end frame

/-- The step of one thread, as the others see it. -/
structure Frame (cap : ℕ) (t : ι) (s s' : State ι) : Prop where
  move : s.ring.Move cap t s'.ring
  pc : ∀ u, u ≠ t → s'.pc u = s.pc u
  base : ∀ u, u ≠ t → s'.base u = s.base u
  since : ∀ u, u ≠ t → s'.ring.published + s.since u ≤ s.ring.published + s'.since u
  keeps : ∀ k ∈ s.delivered, k ∈ s'.delivered
  adds : ∀ k ∈ s'.delivered, k ∈ s.delivered ∨ s'.ring.deq[k]? = some t

theorem Local.of_frame {s s' : State ι} {t u : ι} (hok : s.ring.Ok cap) (hf : Frame cap t s s')
    (hu : u ≠ t) (h : Local cap s u) : Local cap s' u where
  at_pc := by
    rw [hf.pc u hu, hf.base u hu]
    exact h.at_pc.of_move hok hf.move hu (hf.since u hu) hf.adds
  pushes k v hk hin := by
    rw [hf.pc u hu, hf.base u hu]
    have hold := hf.move.enq_of_ne hu hk
    exact h.pushes k v hold (hf.move.inPush_of_ne hu hold hin)
  claims k hk := by
    rcases h.claims k (hf.move.deq_of_ne hu hk) with hdone | htakes
    · exact Or.inl (hf.keeps k hdone)
    · right
      rw [State.Takes, hf.pc u hu, hf.base u hu]
      exact htakes

/-- A step keeps the invariant when it keeps it for the queue, for what is delivered and for the
thread that takes it. -/
theorem Inv.of_frame {s s' : State ι} {t : ι} (h : Inv cap s) (hf : Frame cap t s s')
    (hmirrors : Mirrors cap s'.q s'.ring) (hdelivered : Delivered s'.ring s'.popped)
    (hlocal : Local cap s' t) : Inv cap s' where
  ok := hf.move.ok h.ok
  mirrors := hmirrors
  delivered := hdelivered
  threads u := by
    by_cases hu : u = t
    · rw [hu]
      exact hlocal
    · exact (h.threads u).of_frame h.ok hf hu

theorem Delivered.of_move {r r' : Ring ι UInt32} {popped : List (Delivery ι)} {t : ι}
    (h : Delivered r popped) (hok : r.Ok cap) (hm : r.Move cap t r') : Delivered r' popped where
  free k hk := hm.free hok (h.free k hk)
  nodup := h.nodup
  right d hd i v hv := by
    obtain ⟨hby, u, hu⟩ := h.right d hd i v hv
    exact ⟨hm.getElem?_deq hby, u, hm.getElem?_enq hu⟩

end FastLlm.ReadyQueue
