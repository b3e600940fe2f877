import Mathlib.Data.Finset.Card
import Mathlib.Data.Finset.Range
import Mathlib.Data.List.Basic
import Mathlib.Logic.Function.Basic

/-!
# The life of a position in a bounded ring

Producers and consumers share a ring of `cap` cells.  Seen from far enough away the ring is
a queue of positions `0, 1, 2, …`, position `k` living in cell `k % cap`.  A position is
reserved by a producer, its value is stored, it is published; a consumer claims it, takes the
value and recycles the cell.  A `Ring` is the history of that: who enqueued what, who claimed
what, and how far each position has come.

`Move t` is what agent `t` may do to the history in one step.  Nothing here has counters that
wrap around, or cells: an implementation is right when each of its steps is a `Move`.

## Main definitions

* `Phase` — how far a position has come.
* `Ring` — the history of a ring.
* `Ring.Move` — the steps of the ring's life.
* `Ring.Ok` — the invariant, kept by every move (`Move.ok`).
* `Ring.published` — how many pushes have finished; `Ok.length_le_published` says that at most
  `cap` have not.
-/

namespace FastLlm

variable {ι α : Type}

/-- How far a position of the ring has come. -/
inductive Phase
  /-- Not enqueued yet. -/
  | fresh
  /-- A producer owns it and has not stored the value. -/
  | reserved
  /-- The value is in the cell and is not published. -/
  | stored
  /-- Ready for a consumer. -/
  | ready
  /-- A consumer owns it and has not taken the value. -/
  | claimed
  /-- The value has been taken. -/
  | taken
  /-- The cell is free for the position one lap later. -/
  | free
  deriving DecidableEq, Repr

/-- A producer is at work on the position. -/
def Phase.inPush : Phase → Bool
  | .reserved | .stored => true
  | _ => false

/-- A consumer has claimed the position, now or in the past. -/
def Phase.passed : Phase → Bool
  | .claimed | .taken | .free => true
  | _ => false

/-- The value is in the cell and nobody has taken it. -/
def Phase.holds : Phase → Bool
  | .stored | .ready | .claimed => true
  | _ => false

/-- The history of a ring.  Entry `k` of `enq` is who enqueued position `k`, with the value;
entry `k` of `deq` is who claimed it. -/
structure Ring (ι α : Type) where
  enq : List (ι × α)
  deq : List ι
  phase : ℕ → Phase

namespace Ring

/-- Nothing has happened yet. -/
def start : Ring ι α := ⟨[], [], fun _ => .fresh⟩

/-- The next position goes to `t`, who will store `v` there. -/
def reserve (r : Ring ι α) (t : ι) (v : α) : Ring ι α :=
  { r with enq := r.enq ++ [(t, v)], phase := Function.update r.phase r.enq.length .reserved }

/-- Position `k` moves on to phase `p`. -/
def mark (r : Ring ι α) (k : ℕ) (p : Phase) : Ring ι α :=
  { r with phase := Function.update r.phase k p }

/-- The next `m` unclaimed positions go to `t`. -/
def claim (r : Ring ι α) (t : ι) (m : ℕ) : Ring ι α :=
  { r with
    deq := r.deq ++ List.replicate m t
    phase := fun k =>
      if r.deq.length ≤ k ∧ k < r.deq.length + m then .claimed else r.phase k }

section fields

variable (r : Ring ι α) (t : ι) (v : α) (k m : ℕ) (p : Phase)

@[simp] theorem start_enq : (start : Ring ι α).enq = [] := rfl
@[simp] theorem start_deq : (start : Ring ι α).deq = [] := rfl
@[simp] theorem start_phase : (start : Ring ι α).phase k = .fresh := rfl
@[simp] theorem reserve_enq : (r.reserve t v).enq = r.enq ++ [(t, v)] := rfl
@[simp] theorem reserve_deq : (r.reserve t v).deq = r.deq := rfl
@[simp] theorem mark_enq : (r.mark k p).enq = r.enq := rfl
@[simp] theorem mark_deq : (r.mark k p).deq = r.deq := rfl
@[simp] theorem claim_enq : (r.claim t m).enq = r.enq := rfl
@[simp] theorem claim_deq : (r.claim t m).deq = r.deq ++ List.replicate m t := rfl

theorem reserve_phase (j : ℕ) :
    (r.reserve t v).phase j = if j = r.enq.length then .reserved else r.phase j :=
  Function.update_apply ..

theorem mark_phase (j : ℕ) : (r.mark k p).phase j = if j = k then p else r.phase j :=
  Function.update_apply ..

theorem claim_phase (j : ℕ) : (r.claim t m).phase j =
    if r.deq.length ≤ j ∧ j < r.deq.length + m then .claimed else r.phase j := rfl

end fields

/-- The cell of the position about to be enqueued is free. -/
def Vacant (cap : ℕ) (r : Ring ι α) (k : ℕ) : Prop := cap ≤ k → r.phase (k - cap) = .free

/-- The `m` positions from `k` on are all ready. -/
def AllReady (r : Ring ι α) (k m : ℕ) : Prop := ∀ i < m, r.phase (k + i) = .ready

/-- What agent `t` does to the history in one step. -/
inductive Move (cap : ℕ) (t : ι) : Ring ι α → Ring ι α → Prop
  | stay (r : Ring ι α) : Move cap t r r
  | reserve {r : Ring ι α} (v : α) : r.Vacant cap r.enq.length → Move cap t r (r.reserve t v)
  | store {r : Ring ι α} {k : ℕ} {v : α} : r.enq[k]? = some (t, v) → r.phase k = .reserved →
      Move cap t r (r.mark k .stored)
  | publish {r : Ring ι α} {k : ℕ} {v : α} : r.enq[k]? = some (t, v) → r.phase k = .stored →
      Move cap t r (r.mark k .ready)
  | claim {r : Ring ι α} {m : ℕ} : r.AllReady r.deq.length m → Move cap t r (r.claim t m)
  | take {r : Ring ι α} {k : ℕ} : r.deq[k]? = some t → r.phase k = .claimed →
      Move cap t r (r.mark k .taken)
  | recycle {r : Ring ι α} {k : ℕ} : r.deq[k]? = some t → r.phase k = .taken →
      Move cap t r (r.mark k .free)

/-- The invariant of a ring's history: the enqueued positions are the first ones, the claimed
positions are the first of those, and a position is only enqueued when the one a lap before
it is done with. -/
structure Ok (cap : ℕ) (r : Ring ι α) : Prop where
  fresh_iff : ∀ k, r.phase k = .fresh ↔ r.enq.length ≤ k
  passed_iff : ∀ k, (r.phase k).passed ↔ k < r.deq.length
  lap : ∀ k, k + cap < r.enq.length → r.phase k = .free

theorem Ok.start {cap : ℕ} : Ok cap (start : Ring ι α) where
  fresh_iff _ := by simp
  passed_iff _ := by simp [Phase.passed]
  lap _ h := by simp at h

namespace Ok

variable {cap : ℕ} {r : Ring ι α}

theorem deq_le_enq (h : Ok cap r) : r.deq.length ≤ r.enq.length := by
  by_contra hlt
  have hfresh := (h.fresh_iff r.enq.length).2 le_rfl
  have hpassed := (h.passed_iff r.enq.length).2 (by omega)
  rw [hfresh] at hpassed
  exact Bool.noConfusion hpassed

/-- No more than `cap` positions are unclaimed. -/
theorem enq_le (h : Ok cap r) : r.enq.length ≤ r.deq.length + cap := by
  by_contra hlt
  have hfree := h.lap r.deq.length (by omega)
  have hpassed := (h.passed_iff r.deq.length).1 (by rw [hfree]; rfl)
  omega

theorem lt_enq (h : Ok cap r) {k : ℕ} (hk : r.phase k ≠ .fresh) : k < r.enq.length := by
  by_contra hle
  exact hk ((h.fresh_iff k).2 (by omega))

/-- A position that is not free yet is the last one enqueued in its cell. -/
theorem enq_le_add (h : Ok cap r) {k : ℕ} (hk : r.phase k ≠ .free) :
    r.enq.length ≤ k + cap := by
  by_contra hlt
  exact hk (h.lap k (by omega))

/-- Changing the phase of an enqueued position that is not claimed, or of a claimed one. -/
theorem mark (h : Ok cap r) {k : ℕ} {p : Phase} (hk : r.phase k ≠ .fresh)
    (hfree : r.phase k ≠ .free) (hp : p ≠ .fresh) (hpassed : p.passed = (r.phase k).passed) :
    Ok cap (r.mark k p) where
  fresh_iff j := by
    rw [mark_phase]
    split
    · next hj => exact ⟨fun hf => absurd hf hp, fun hle => absurd (h.lt_enq hk) (by simp_all)⟩
    · exact h.fresh_iff j
  passed_iff j := by
    rw [mark_phase]
    split
    · next hj => rw [hpassed, hj]; exact h.passed_iff k
    · exact h.passed_iff j
  lap j hj := by
    rw [mark_phase]
    split
    · next hjk => exact absurd (h.lap j hj) (by rw [hjk]; exact hfree)
    · exact h.lap j hj

theorem reserve (h : Ok cap r) (t : ι) (v : α) (hv : r.Vacant cap r.enq.length) :
    Ok cap (r.reserve t v) where
  fresh_iff j := by
    rw [reserve_phase]
    have hj := h.fresh_iff j
    simp only [reserve_enq, List.length_append, List.length_singleton]
    split
    · next heq => exact ⟨nofun, fun hle => by omega⟩
    · next hne => exact hj.trans ⟨fun hle => by omega, fun hle => by omega⟩
  passed_iff j := by
    rw [reserve_phase]
    split
    · next heq =>
      have hle := h.deq_le_enq
      exact ⟨nofun, fun hlt => by rw [reserve_deq] at hlt; omega⟩
    · exact h.passed_iff j
  lap j hj := by
    simp only [reserve_enq, List.length_append, List.length_singleton] at hj
    rw [reserve_phase]
    have hfree : r.phase j = .free := by
      rcases Nat.lt_or_ge (j + cap) r.enq.length with hlt | hge
      · exact h.lap j hlt
      · have heq : r.enq.length - cap = j := by omega
        have := hv (by omega)
        rwa [heq] at this
    split
    · next heq => exact absurd ((h.fresh_iff j).2 (by omega)) (by rw [hfree]; decide)
    · exact hfree

theorem claim (h : Ok cap r) (t : ι) {m : ℕ} (hm : r.AllReady r.deq.length m) :
    Ok cap (r.claim t m) where
  fresh_iff j := by
    rw [claim_phase]
    split
    · next hj =>
      have hready := hm (j - r.deq.length) (by omega)
      rw [Nat.add_sub_cancel' hj.1] at hready
      have hlt := h.lt_enq (k := j) (by rw [hready]; decide)
      exact ⟨nofun, fun hle => by rw [claim_enq] at hle; omega⟩
    · exact h.fresh_iff j
  passed_iff j := by
    rw [claim_phase]
    simp only [claim_deq, List.length_append, List.length_replicate]
    have hj := h.passed_iff j
    split
    · next hin => exact ⟨fun _ => hin.2, fun _ => rfl⟩
    · next hout => exact hj.trans ⟨fun hlt => by omega, fun hlt => by omega⟩
  lap j hj := by
    have hfree := h.lap j hj
    rw [claim_phase]
    split
    · next hin =>
      have hpassed := (h.passed_iff j).1 (by rw [hfree]; rfl)
      omega
    · exact hfree

end Ok

namespace Move

variable {cap : ℕ} {t : ι} {r r' : Ring ι α}

/-- Every move keeps the invariant. -/
theorem ok (hm : Move cap t r r') (h : Ok cap r) : Ok cap r' := by
  cases hm with
  | stay => exact h
  | reserve v hv => exact h.reserve t v hv
  | store he hp => exact h.mark (by simp [hp]) (by simp [hp]) (by decide) (by simp [hp, Phase.passed])
  | publish he hp =>
    exact h.mark (by simp [hp]) (by simp [hp]) (by decide) (by simp [hp, Phase.passed])
  | claim hr => exact h.claim t hr
  | take hd hp => exact h.mark (by simp [hp]) (by simp [hp]) (by decide) (by simp [hp, Phase.passed])
  | recycle hd hp =>
    exact h.mark (by simp [hp]) (by simp [hp]) (by decide) (by simp [hp, Phase.passed])

theorem enq_prefix (hm : Move cap t r r') : r.enq <+: r'.enq := by
  cases hm with
  | reserve v hv => exact List.prefix_append _ _
  | _ => exact List.prefix_rfl

theorem deq_prefix (hm : Move cap t r r') : r.deq <+: r'.deq := by
  cases hm with
  | claim hr => exact List.prefix_append _ _
  | _ => exact List.prefix_rfl

theorem enq_le (hm : Move cap t r r') : r.enq.length ≤ r'.enq.length := hm.enq_prefix.length_le

theorem deq_le (hm : Move cap t r r') : r.deq.length ≤ r'.deq.length := hm.deq_prefix.length_le

theorem getElem?_enq (hm : Move cap t r r') {k : ℕ} {x : ι × α} (hk : r.enq[k]? = some x) :
    r'.enq[k]? = some x := by
  obtain ⟨l, hl⟩ := hm.enq_prefix
  rw [← hl]
  exact List.getElem?_append_left (List.getElem?_eq_some_iff.1 hk).1 ▸ hk

theorem getElem?_deq (hm : Move cap t r r') {k : ℕ} {u : ι} (hk : r.deq[k]? = some u) :
    r'.deq[k]? = some u := by
  obtain ⟨l, hl⟩ := hm.deq_prefix
  rw [← hl]
  exact List.getElem?_append_left (List.getElem?_eq_some_iff.1 hk).1 ▸ hk

/-- A free cell stays free. -/
theorem free (hm : Move cap t r r') (h : Ok cap r) {k : ℕ} (hk : r.phase k = .free) :
    r'.phase k = .free := by
  cases hm with
  | stay => exact hk
  | reserve v hv =>
    have hlt := h.lt_enq (k := k) (by simp [hk])
    rw [reserve_phase, if_neg (by omega), hk]
  | claim hr =>
    have hlt := (h.passed_iff k).1 (by simp [hk, Phase.passed])
    rw [claim_phase, if_neg (by omega), hk]
  | store he hp | publish he hp | take he hp | recycle he hp =>
    rw [mark_phase, if_neg (by rintro rfl; simp [hp] at hk), hk]

/-- A ready position stays ready until it is claimed. -/
theorem ready (hm : Move cap t r r') (h : Ok cap r) {k : ℕ} (hk : r.phase k = .ready)
    (hun : r'.deq.length ≤ k) : r'.phase k = .ready := by
  cases hm with
  | stay => exact hk
  | reserve v hv =>
    have hlt := h.lt_enq (k := k) (by simp [hk])
    rw [reserve_phase, if_neg (by omega), hk]
  | claim hr =>
    simp only [claim_deq, List.length_append, List.length_replicate] at hun
    rw [claim_phase, if_neg (by omega), hk]
  | store he hp | publish he hp | take he hp | recycle he hp =>
    rw [mark_phase, if_neg (by rintro rfl; simp [hp] at hk), hk]

/-- A position in another producer's hands does not move. -/
theorem inPush_ne (hm : Move cap t r r') (h : Ok cap r) {k : ℕ} {u : ι} {v : α} (hu : u ≠ t)
    (hk : r.enq[k]? = some (u, v)) (hin : (r.phase k).inPush) : r'.phase k = r.phase k := by
  cases hm with
  | stay => rfl
  | reserve w hv =>
    have hlt := h.lt_enq (k := k) (by rintro hf; simp [hf, Phase.inPush] at hin)
    rw [reserve_phase, if_neg (by omega)]
  | claim hr =>
    rw [claim_phase]
    split
    · next hj =>
      have hready := hr (k - r.deq.length) (by omega)
      rw [Nat.add_sub_cancel' hj.1] at hready
      simp [hready, Phase.inPush] at hin
    · rfl
  | store he hp | publish he hp =>
    rw [mark_phase, if_neg]
    rintro rfl
    rw [hk] at he
    simp only [Option.some.injEq, Prod.mk.injEq] at he
    exact hu he.1
  | take he hp | recycle he hp =>
    rw [mark_phase, if_neg (by rintro rfl; simp [hp, Phase.inPush] at hin)]

/-- Only `t` has enqueued. -/
theorem enq_of_ne (hm : Move cap t r r') {k : ℕ} {u : ι} {v : α} (hu : u ≠ t)
    (hk : r'.enq[k]? = some (u, v)) : r.enq[k]? = some (u, v) := by
  cases hm with
  | @reserve w hv =>
    rw [reserve_enq, List.getElem?_append] at hk
    split at hk
    · exact hk
    · have hmem := List.mem_of_getElem? hk
      rw [List.mem_singleton, Prod.mk.injEq] at hmem
      exact absurd hmem.1 hu
  | _ => exact hk

/-- Only `t` has claimed. -/
theorem deq_of_ne (hm : Move cap t r r') {k : ℕ} {u : ι} (hu : u ≠ t)
    (hk : r'.deq[k]? = some u) : r.deq[k]? = some u := by
  cases hm with
  | claim hr =>
    rw [claim_deq, List.getElem?_append] at hk
    split at hk
    · exact hk
    · exact absurd (List.eq_of_mem_replicate (List.mem_of_getElem? hk)) hu
  | _ => exact hk

/-- No position comes into another producer's hands. -/
theorem inPush_of_ne (hm : Move cap t r r') {k : ℕ} {u : ι} {v : α} (hu : u ≠ t)
    (hk : r.enq[k]? = some (u, v)) (hin : (r'.phase k).inPush) : (r.phase k).inPush := by
  cases hm with
  | stay => exact hin
  | reserve w hv =>
    have hlt := (List.getElem?_eq_some_iff.1 hk).1
    rwa [reserve_phase, if_neg (by omega)] at hin
  | claim hr =>
    rw [claim_phase] at hin
    split at hin
    · cases hin
    · exact hin
  | store he hp | publish he hp =>
    rw [mark_phase] at hin
    split at hin
    · next hj =>
      rw [← hj, hk] at he
      exact absurd (congrArg Prod.fst (Option.some.inj he)) hu
    · exact hin
  | take he hp | recycle he hp =>
    rw [mark_phase] at hin
    split at hin
    · cases hin
    · exact hin

/-- A position in another consumer's hands does not move. -/
theorem passed_ne (hm : Move cap t r r') (h : Ok cap r) {k : ℕ} {u : ι} (hu : u ≠ t)
    (hk : r.deq[k]? = some u) : r'.phase k = r.phase k := by
  have hlt : k < r.deq.length := (List.getElem?_eq_some_iff.1 hk).1
  have hpassed := (h.passed_iff k).2 hlt
  cases hm with
  | stay => rfl
  | reserve w hv =>
    have hle := h.deq_le_enq
    rw [reserve_phase, if_neg (by omega)]
  | claim hr => rw [claim_phase, if_neg (by omega)]
  | store he hp | publish he hp =>
    rw [mark_phase, if_neg (by rintro rfl; simp [hp, Phase.passed] at hpassed)]
  | take he hp | recycle he hp =>
    rw [mark_phase, if_neg]
    rintro rfl
    rw [hk] at he
    exact hu (Option.some.inj he)

end Move

/-- How many positions producers have finished with. -/
def published (r : Ring ι α) : ℕ :=
  ((Finset.range r.enq.length).filter fun k => ¬ (r.phase k).inPush).card

/-- At most `cap` pushes are unfinished. -/
theorem Ok.length_le_published {cap : ℕ} {r : Ring ι α} (h : Ok cap r) :
    r.enq.length ≤ r.published + cap := by
  have hsub : Finset.range (r.enq.length - cap) ⊆
      (Finset.range r.enq.length).filter fun k => ¬ (r.phase k).inPush := by
    intro k hk
    rw [Finset.mem_range] at hk
    have hfree := h.lap k (by omega)
    simp only [Finset.mem_filter, Finset.mem_range, hfree]
    exact ⟨by omega, by decide⟩
  have hcard := Finset.card_le_card hsub
  rw [Finset.card_range] at hcard
  unfold published
  omega

theorem published_le (r : Ring ι α) : r.published ≤ r.enq.length := by
  have h := Finset.card_filter_le (Finset.range r.enq.length) fun k => ¬ (r.phase k).inPush
  rwa [Finset.card_range] at h

/-- Only `publish` finishes a push. -/
theorem published_mark_of_inPush {r : Ring ι α} {k : ℕ} {p : Phase}
    (hp : p.inPush = (r.phase k).inPush) : (r.mark k p).published = r.published := by
  unfold published
  congr 1
  apply Finset.filter_congr
  intro j _
  rw [mark_phase]
  split
  · next hj => rw [hp, hj]
  · rfl

theorem published_reserve (r : Ring ι α) (t : ι) (v : α) :
    (r.reserve t v).published = r.published := by
  unfold published
  rw [reserve_enq, List.length_append, List.length_singleton, Finset.range_add_one,
    Finset.filter_insert, if_neg (by simp [reserve_phase, Phase.inPush])]
  congr 1
  apply Finset.filter_congr
  intro j hj
  rw [Finset.mem_range] at hj
  rw [reserve_phase, if_neg (by omega)]

theorem published_claim {r : Ring ι α} {t : ι} {m : ℕ} (hm : r.AllReady r.deq.length m) :
    (r.claim t m).published = r.published := by
  unfold published
  congr 1
  apply Finset.filter_congr
  intro j _
  rw [claim_phase]
  split
  · next hj =>
    have hready := hm (j - r.deq.length) (by omega)
    rw [Nat.add_sub_cancel' hj.1] at hready
    simp [hready, Phase.inPush]
  · rfl

theorem published_publish_le (r : Ring ι α) (k : ℕ) (p : Phase) :
    (r.mark k p).published ≤ r.published + 1 := by
  unfold published
  have hsub : ((Finset.range r.enq.length).filter fun j => ¬ ((r.mark k p).phase j).inPush) ⊆
      insert k ((Finset.range r.enq.length).filter fun j => ¬ (r.phase j).inPush) := by
    intro j hj
    rw [Finset.mem_filter, mark_phase] at hj
    rw [Finset.mem_insert, Finset.mem_filter]
    split at hj
    · next heq => exact Or.inl heq
    · exact Or.inr hj
  exact (Finset.card_le_card hsub).trans (Finset.card_insert_le _ _)

end Ring

end FastLlm
