import FastLlm.Runtime.QueueInv

/-!
# The ready queue under one thread

The operations of `queue.h` as one thread runs them, from call to return.  A loop is given a
number of rounds and has no result when it needs more.

With at least two cells the queue is a bounded list, through every wrap of the ring and of the
counters.  With one cell it is not: the `seq` a push leaves is the position of the next push, which
takes the full cell for a free one (`behaves_iff`).

## Main definitions

* `Queue.push`, `Queue.pop`, `Queue.popBulk`, `Queue.popBulkLight`, `Queue.call` — the operations.
* `fifo` — the bounded list.
* `Behaves` — over a sequence of calls the queue answers as the list does.
* `Holds` — the abstraction relation.
-/

namespace FastLlm.ReadyQueue

/-- What a call answers. -/
inductive Answer
  | pushed (ok : Bool)
  | popped (v : Option UInt32)
  | bulk (out : List UInt32)
  deriving DecidableEq, Repr

/-- The call achieved nothing. -/
def Answer.Failed : Answer → Prop
  | pushed ok => ok = false
  | popped v => v = none
  | bulk out => out = []

namespace Queue

/-! ## The operations -/

/-- The loop of `push`, with its copy of `head`. -/
def pushLoop (q : Queue) (v : UInt32) : ℕ → UInt32 → Option (Bool × Queue)
  | 0, _ => none
  | fuel + 1, pos =>
    let d := dif (q.seqAt pos) pos
    if d = 0 then
      if q.head = pos then
        some (true, ({ q with head := pos + 1 }.storeVal pos v).storeSeq pos (pos + 1))
      else pushLoop q v fuel q.head
    else if d < 0 then some (false, q)
    else pushLoop q v fuel q.head

def push (q : Queue) (v : UInt32) (fuel : ℕ) : Option (Bool × Queue) := q.pushLoop v fuel q.head

/-- The loop of `pop`, with its copy of `tail`. -/
def popLoop (q : Queue) : ℕ → UInt32 → Option (Option UInt32 × Queue)
  | 0, _ => none
  | fuel + 1, pos =>
    let d := dif (q.seqAt pos) (pos + 1)
    if d = 0 then
      if q.tail = pos then
        some (some (q.valAt pos), { q with tail := pos + 1 }.storeSeq pos (pos + q.mask + 1))
      else popLoop q fuel q.tail
    else if d < 0 then some (none, q)
    else popLoop q fuel q.tail

def pop (q : Queue) (fuel : ℕ) : Option (Option UInt32 × Queue) := q.popLoop fuel q.tail

/-- `while (m < maxn)`: how many cells from `pos` on are ready, with `left` still to be looked
at. -/
def scan (q : Queue) (pos : UInt32) : ℕ → ℕ → ℕ
  | 0, m => m
  | left + 1, m =>
    if dif (q.seqAt (pos + UInt32.ofNat m)) (pos + UInt32.ofNat m + 1) = 0 then
      scan q pos left (m + 1)
    else m

/-- `cells[(pos + i) & mask].seq = pos + i + mask + 1`. -/
def recycle (pos : UInt32) (q : Queue) (i : ℕ) : Queue :=
  q.storeSeq (pos + UInt32.ofNat i) (pos + UInt32.ofNat i + q.mask + 1)

/-- `pop_bulk` reads and recycles the claimed cells one by one. -/
def takeCells (q : Queue) (pos : UInt32) (m : ℕ) : List UInt32 × Queue :=
  (List.range m).foldl (fun s i => (s.1 ++ [s.2.valAt (pos + UInt32.ofNat i)], recycle pos s.2 i))
    ([], q)

/-- `pop_bulk_light` reads all of them, then recycles them. -/
def takeCellsLight (q : Queue) (pos : UInt32) (m : ℕ) : List UInt32 × Queue :=
  ((List.range m).map fun i => q.valAt (pos + UInt32.ofNat i),
    (List.range m).foldl (recycle pos) q)

/-- The loop of both bulk operations, with what they do to the claimed cells. -/
def bulkLoop (q : Queue) (maxn : UInt32) (take : Queue → UInt32 → ℕ → List UInt32 × Queue) :
    ℕ → Option (List UInt32 × Queue)
  | 0 => none
  | fuel + 1 =>
    let pos := q.tail
    let m := q.scan pos maxn.toNat 0
    if m = 0 then
      if dif (q.seqAt pos) (pos + 1) < 0 then some ([], q) else bulkLoop q maxn take fuel
    else if q.tail = pos then some (take { q with tail := pos + UInt32.ofNat m } pos m)
    else bulkLoop q maxn take fuel

def popBulkLight (q : Queue) (maxn : UInt32) (fuel : ℕ) : Option (List UInt32 × Queue) :=
  q.bulkLoop maxn takeCellsLight fuel

def popBulk (q : Queue) (maxn : UInt32) (fuel : ℕ) : Option (List UInt32 × Queue) :=
  if q.fenceLight then q.popBulkLight maxn fuel else q.bulkLoop maxn takeCells fuel

/-- A call from start to return. -/
def call (q : Queue) (fuel : ℕ) : Op → Option (Answer × Queue)
  | .push v => (q.push v fuel).map fun r => (.pushed r.1, r.2)
  | .pop => (q.pop fuel).map fun r => (.popped r.1, r.2)
  | .popBulk maxn => (q.popBulk maxn fuel).map fun r => (.bulk r.1, r.2)
  | .popBulkLight maxn => (q.popBulkLight maxn fuel).map fun r => (.bulk r.1, r.2)

end Queue

/-! ## The bounded list -/

/-- The answer and the list after a call. -/
def fifo (cap : ℕ) (xs : List UInt32) : Op → Answer × List UInt32
  | .push v => if xs.length = cap then (.pushed false, xs) else (.pushed true, xs ++ [v])
  | .pop => (.popped xs.head?, xs.tail)
  | .popBulk maxn | .popBulkLight maxn => (.bulk (xs.take maxn.toNat), xs.drop maxn.toNat)

/-- A bulk call asks for something. -/
def Op.Proper : Op → Prop
  | .popBulk maxn | .popBulkLight maxn => maxn ≠ 0
  | _ => True

/-- Every call returns, answers as the list does, and leaves the queue as it was when it fails. -/
def Behaves (cap : ℕ) : List Op → Queue → List UInt32 → Prop
  | [], _, _ => True
  | op :: ops, q, xs => ∃ q', (∀ fuel, q.call (fuel + 1) op = some ((fifo cap xs op).1, q')) ∧
      ((fifo cap xs op).1.Failed → q' = q) ∧ Behaves cap ops q' (fifo cap xs op).2

/-! ## The abstraction relation -/

/-- The cells hold `xs` at the positions from `base` on, and the rest are free. -/
structure Cells (cap : ℕ) (q : Queue) (base : ℕ) (xs : List UInt32) : Prop where
  mask : q.mask = wrap (cap - 1)
  le : xs.length ≤ cap
  seq : ∀ i < xs.length, (q.cells ((base + i) % cap)).seq = wrap (base + i + 1)
  val : ∀ i (h : i < xs.length), (q.cells ((base + i) % cap)).val = xs[i]
  free : ∀ i < cap, xs.length ≤ i → (q.cells ((base + i) % cap)).seq = wrap (base + i)

/-- The queue holds `xs`. -/
structure Holds (cap : ℕ) (q : Queue) (base : ℕ) (xs : List UInt32) : Prop
    extends Cells cap q base xs where
  tail : q.tail = wrap base
  head : q.head = wrap (base + xs.length)

variable {cap base : ℕ} {q : Queue} {xs : List UInt32}

/-- A counter that is behind by less than half a turn. -/
theorem dif_neg_of_lt {a b : ℕ} (hlt : a < b) (hle : b ≤ a + 2 ^ 31) :
    dif (wrap a) (wrap b) < 0 := by
  have hsub : (wrap a - wrap b).toNat = 2 ^ 32 - (b - a) := by
    rw [UInt32.toNat_sub, wrap_toNat, wrap_toNat]
    omega
  have hbit : (wrap a - wrap b).toBitVec.toNat = 2 ^ 32 - (b - a) := hsub
  change (wrap a - wrap b).toBitVec.toInt < 0
  rw [BitVec.toInt, hbit]
  omega

namespace Cells

theorem seqAt (hcap : Capacity cap) (h : Cells cap q base xs) (k : ℕ) :
    q.seqAt (wrap k) = (q.cells (k % cap)).seq := by
  rw [Queue.seqAt, Queue.cell_wrap hcap h.mask]

theorem valAt (hcap : Capacity cap) (h : Cells cap q base xs) (k : ℕ) :
    q.valAt (wrap k) = (q.cells (k % cap)).val := by
  rw [Queue.valAt, Queue.cell_wrap hcap h.mask]

/-- The position one turn behind another has its cell. -/
theorem seqAt_turn (hcap : Capacity cap) (h : Cells cap q base xs) (hfull : xs.length = cap) :
    q.seqAt (wrap (base + cap)) = wrap (base + 1) := by
  have hpos := hcap.pos
  have h0 := h.seq 0 (by omega)
  rw [h.seqAt hcap, Nat.add_mod_right]
  exact h0

/-- `cap` positions in a row have cells of their own. -/
theorem mod_ne {i j : ℕ} (hi : i < cap) (hj : j < cap) (hne : i ≠ j) :
    (base + i) % cap ≠ (base + j) % cap := by
  intro heq
  rcases Nat.lt_or_gt_of_ne hne with hlt | hlt
  · exact hne (Nat.add_left_cancel (@eq_of_mod_eq cap (base + j + 1) (base + i) (base + j)
      (by omega) (by omega) (by omega) (by omega) heq))
  · exact hne (Nat.add_left_cancel (@eq_of_mod_eq cap (base + i + 1) (base + i) (base + j)
      (by omega) (by omega) (by omega) (by omega) heq))

/-- A push into a free cell. -/
theorem push (hcap : Capacity cap) (h : Cells cap q base xs) (hlt : xs.length < cap) (v : UInt32)
    (hd : UInt32) :
    Cells cap (({ q with head := hd }.storeVal (wrap (base + xs.length)) v).storeSeq
      (wrap (base + xs.length)) (wrap (base + xs.length + 1))) base (xs ++ [v]) := by
  have hcell : Queue.cell { q with head := hd } (wrap (base + xs.length)) =
      (base + xs.length) % cap := Queue.cell_wrap hcap h.mask _
  have hcell' : (Queue.storeVal { q with head := hd } (wrap (base + xs.length)) v).cell
      (wrap (base + xs.length)) = (base + xs.length) % cap := Queue.cell_wrap hcap h.mask _
  refine ⟨h.mask, by simp; omega, fun i hi => ?_, fun i hi => ?_, fun i hi hle => ?_⟩
  · rw [List.length_append, List.length_singleton] at hi
    rw [Queue.storeSeq_seq, hcell', Queue.storeVal_seq]
    by_cases heq : i = xs.length
    · rw [heq, if_pos rfl]
    · rw [if_neg (mod_ne (by omega) hlt heq)]
      exact h.seq i (by omega)
  · rw [List.length_append, List.length_singleton] at hi
    rw [Queue.storeSeq_val, Queue.storeVal_val, hcell]
    by_cases heq : i = xs.length
    · subst heq
      rw [if_pos rfl, List.getElem_concat_length rfl]
    · rw [if_neg (mod_ne (by omega) hlt heq), List.getElem_append_left (by omega)]
      exact h.val i (by omega)
  · rw [List.length_append, List.length_singleton] at hle
    rw [Queue.storeSeq_seq, hcell', Queue.storeVal_seq, if_neg (mod_ne hi hlt (by omega))]
    exact h.free i hi (by omega)

/-- The oldest element leaves, and its cell waits for the next turn. -/
theorem pop (hcap : Capacity cap) {x : UInt32} (h : Cells cap q base (x :: xs)) :
    Cells cap (q.storeSeq (wrap base) (wrap base + q.mask + 1)) (base + 1) xs := by
  have hpos := hcap.pos
  have hle := h.le
  rw [List.length_cons] at hle
  have hcell : q.cell (wrap base) = base % cap := Queue.cell_wrap hcap h.mask _
  have hseq : wrap base + q.mask + 1 = wrap (base + cap) := by
    rw [h.mask]
    change wrap base + UInt32.ofNat (cap - 1) + 1 = _
    rw [wrap_add_ofNat, wrap_add_one]
    congr 1
    omega
  have hother {i : ℕ} (hi : i + 1 < cap) : (base + 1 + i) % cap ≠ base % cap := by
    have hne : (base + (i + 1)) % cap ≠ (base + 0) % cap := mod_ne hi hpos (by omega)
    rwa [show base + 1 + i = base + (i + 1) by omega]
  refine ⟨h.mask, by omega, fun i hi => ?_, fun i hi => ?_, fun i hi hle' => ?_⟩
  · rw [Queue.storeSeq_seq, hcell, if_neg (hother (by omega))]
    have hi' := h.seq (i + 1) (by rw [List.length_cons]; omega)
    rwa [show base + (i + 1) = base + 1 + i by omega] at hi'
  · rw [Queue.storeSeq_val]
    have hi' := h.val (i + 1) (by rw [List.length_cons]; omega)
    rwa [show base + (i + 1) = base + 1 + i by omega] at hi'
  · rw [Queue.storeSeq_seq, hcell, hseq]
    by_cases hlast : i + 1 = cap
    · have hmod : (base + 1 + i) % cap = base % cap := by
        rw [show base + 1 + i = base + cap by omega, Nat.add_mod_right]
      rw [if_pos hmod]
      congr 1
      omega
    · rw [if_neg (hother (by omega))]
      have hi' := h.free (i + 1) (by omega) (by rw [List.length_cons]; omega)
      rwa [show base + (i + 1) = base + 1 + i by omega] at hi'

/-- The cursors are no part of the cells. -/
theorem withTail (h : Cells cap q base xs) (tl : UInt32) : Cells cap { q with tail := tl } base xs :=
  ⟨h.mask, h.le, h.seq, h.val, h.free⟩

end Cells

/-! ## One call -/

namespace Queue

theorem scan_eq (hcap : Capacity cap) (h : Cells cap q base xs) (left : ℕ) {m : ℕ}
    (hm : m ≤ xs.length) : q.scan (wrap base) left m = min (m + left) xs.length := by
  have hpos := hcap.pos
  have hlarge := hcap.le
  have hle := h.le
  induction left generalizing m with
  | zero =>
    rw [scan]
    omega
  | succ left ih =>
    rw [scan, wrap_add_ofNat, wrap_add_one]
    rcases Nat.lt_or_ge m xs.length with hlt | hge
    · have hseq : q.seqAt (wrap (base + m)) = wrap (base + m + 1) := by
        rw [h.seqAt hcap]
        exact h.seq m hlt
      rw [if_pos (dif_eq_zero.mpr hseq), ih hlt]
      omega
    · obtain rfl : m = xs.length := by omega
      have hseq : q.seqAt (wrap (base + xs.length)) ≠ wrap (base + xs.length + 1) := by
        intro heq
        by_cases hfull : xs.length = cap
        · rw [hfull, h.seqAt_turn hcap hfull] at heq
          have hinj := wrap_inj_of_lt (by omega) (by omega) heq
          omega
        · rw [h.seqAt hcap, h.free _ (by omega) le_rfl] at heq
          have hinj := wrap_inj_of_lt (by omega) (by omega) heq
          omega
      rw [if_neg (mt dif_eq_zero.mp hseq), Nat.min_eq_right (by omega)]

/-- Both ways to take cells are the same. -/
theorem takeCellsLight_eq (q : Queue) (pos : UInt32) (m : ℕ) :
    q.takeCellsLight pos m = q.takeCells pos m := by
  have hfold : ∀ m, (q.takeCells pos m).2 = (List.range m).foldl (recycle pos) q ∧
      ((List.range m).foldl (recycle pos) q).mask = q.mask ∧
      ∀ i, (((List.range m).foldl (recycle pos) q).cells i).val = (q.cells i).val := by
    intro m
    induction m with
    | zero => exact ⟨rfl, rfl, fun _ => rfl⟩
    | succ m ih =>
      obtain ⟨heq, hmask, hval⟩ := ih
      simp only [takeCells, List.range_succ, List.foldl_append, List.foldl_cons, List.foldl_nil]
        at heq ⊢
      refine ⟨by rw [heq], hmask, fun i => ?_⟩
      rw [recycle, storeSeq_val]
      exact hval i
  have hout : ∀ m, (q.takeCells pos m).1 =
      (List.range m).map fun i => q.valAt (pos + UInt32.ofNat i) := by
    intro m
    induction m with
    | zero => rfl
    | succ m ih =>
      obtain ⟨heq, hmask, hval⟩ := hfold m
      have hlast : (q.takeCells pos m).2.valAt (pos + UInt32.ofNat m) =
          q.valAt (pos + UInt32.ofNat m) := by
        rw [heq, valAt, valAt, hval, cell, cell, hmask]
      simp only [takeCells, List.range_succ, List.foldl_append, List.foldl_cons, List.foldl_nil,
        List.map_append, List.map_cons, List.map_nil] at ih hlast ⊢
      rw [ih, hlast]
  rw [takeCellsLight, ← hout, ← (hfold m).1]

/-- Taking cells moves no cursor. -/
theorem takeCells_cursors (q : Queue) (pos : UInt32) (m : ℕ) :
    (q.takeCells pos m).2.tail = q.tail ∧ (q.takeCells pos m).2.head = q.head := by
  induction m with
  | zero => exact ⟨rfl, rfl⟩
  | succ m ih =>
    simp only [takeCells, List.range_succ, List.foldl_append, List.foldl_cons, List.foldl_nil]
      at ih ⊢
    exact ih

/-- The claimed cells hold the oldest elements. -/
theorem takeCells_cells (hcap : Capacity cap) (h : Cells cap q base xs) {m : ℕ}
    (hm : m ≤ xs.length) : (q.takeCells (wrap base) m).1 = xs.take m ∧
      Cells cap (q.takeCells (wrap base) m).2 (base + m) (xs.drop m) := by
  induction m with
  | zero => exact ⟨rfl, h⟩
  | succ m ih =>
    obtain ⟨hout, hcells⟩ := ih (by omega)
    have hlt : m < xs.length := hm
    have hdrop : xs.drop m = xs[m] :: xs.drop (m + 1) := List.drop_eq_getElem_cons (by omega)
    rw [hdrop] at hcells
    have hval := hcells.val 0 (Nat.succ_pos _)
    rw [Nat.add_zero, ← hcells.valAt hcap, List.getElem_cons_zero] at hval
    have hnext := hcells.pop hcap
    simp only [takeCells, List.range_succ, List.foldl_append, List.foldl_cons, List.foldl_nil]
      at hout hval hnext ⊢
    rw [wrap_add_ofNat, hval, hout, recycle, wrap_add_ofNat]
    exact ⟨by rw [List.take_succ_eq_append_getElem (by omega)], hnext⟩

end Queue

namespace Holds
variable {maxn : UInt32} {fuel : ℕ}

/-- Some empty queue has cells for all positions. -/
theorem init (hcap : Capacity cap) (light : Bool) :
    Holds cap (Queue.init (UInt32.ofNat cap) light) 0 [] where
  mask := Queue.init_mask hcap light
  le := Nat.zero_le _
  seq i hi := absurd hi (Nat.not_lt_zero i)
  val i hi := absurd hi (Nat.not_lt_zero i)
  free i hi _ := by
    rw [Nat.zero_add, Nat.mod_eq_of_lt hi]
    rfl
  tail := rfl
  head := rfl

theorem push (hcap : Capacity cap) (h : Holds cap q base xs) (hlt : xs.length < cap) (v : UInt32) :
    ∃ q', (∀ fuel, q.push v (fuel + 1) = some (true, q')) ∧ Holds cap q' base (xs ++ [v]) := by
  refine ⟨_, fun fuel => ?_, ⟨h.toCells.push hcap hlt v (wrap (base + xs.length + 1)), h.tail, ?_⟩⟩
  · have hseq : q.seqAt q.head = q.head := by
      rw [h.head, h.seqAt hcap]
      exact h.free _ hlt le_rfl
    have hdif : dif (q.seqAt q.head) q.head = 0 := dif_eq_zero.mpr hseq
    rw [Queue.push, Queue.pushLoop]
    simp only [hdif, if_pos]
    rw [h.head, wrap_add_one]
  · simp [Nat.add_assoc]

/-- A full queue of two cells or more. -/
theorem push_full (hcap : Capacity cap) (htwo : 2 ≤ cap) (h : Holds cap q base xs)
    (hfull : xs.length = cap) (v : UInt32) : q.push v (fuel + 1) = some (false, q) := by
  have hlarge := hcap.le
  have hdif : dif (q.seqAt q.head) q.head < 0 := by
    rw [h.head, hfull, h.seqAt_turn hcap hfull]
    exact dif_neg_of_lt (by omega) (by omega)
  rw [Queue.push, Queue.pushLoop]
  simp only [if_neg hdif.ne, if_pos hdif]

/-- In a queue of one cell the `seq` of the full cell is the position of the next push. -/
theorem push_full_one (h : Holds 1 q base xs) (hfull : xs.length = 1) (v : UInt32) :
    ∃ q', q.push v 1 = some (true, q') := by
  have hcap : Capacity 1 := ⟨⟨0, rfl⟩, by decide⟩
  have hseq : q.seqAt q.head = q.head := by
    rw [h.head, hfull]
    exact h.seqAt_turn hcap hfull
  have hdif : dif (q.seqAt q.head) q.head = 0 := dif_eq_zero.mpr hseq
  rw [Queue.push, Queue.pushLoop]
  simp only [hdif, if_pos]
  exact ⟨_, rfl⟩

theorem pop_nil (hcap : Capacity cap) (h : Holds cap q base []) :
    q.pop (fuel + 1) = some (none, q) := by
  have hdif : dif (q.seqAt q.tail) (q.tail + 1) < 0 := by
    rw [h.tail, h.seqAt hcap, wrap_add_one]
    have hfree := h.free 0 hcap.pos le_rfl
    rw [Nat.add_zero] at hfree
    rw [hfree]
    exact dif_neg_of_lt (by omega) (by omega)
  rw [Queue.pop, Queue.popLoop]
  simp only [if_neg hdif.ne, if_pos hdif]

theorem pop_cons (hcap : Capacity cap) {x : UInt32} (h : Holds cap q base (x :: xs)) :
    ∃ q', (∀ fuel, q.pop (fuel + 1) = some (some x, q')) ∧ Holds cap q' (base + 1) xs := by
  refine ⟨_, fun fuel => ?_, ⟨(h.toCells.withTail (wrap (base + 1))).pop hcap, rfl, ?_⟩⟩
  · have hseq : q.seqAt q.tail = q.tail + 1 := by
      rw [h.tail, h.seqAt hcap, wrap_add_one]
      exact h.seq 0 (by simp)
    have hdif : dif (q.seqAt q.tail) (q.tail + 1) = 0 := dif_eq_zero.mpr hseq
    have hval : q.valAt q.tail = x := by
      rw [h.tail, h.valAt hcap]
      exact h.val 0 (by simp)
    rw [Queue.pop, Queue.popLoop]
    simp only [hdif, if_pos, hval]
    rw [h.tail, wrap_add_one]
  · have hhead := h.head
    rw [List.length_cons] at hhead
    change q.head = _
    rw [hhead]
    congr 1
    omega

/-- Both bulk operations take the oldest elements, as many as asked for. -/
theorem bulk (hcap : Capacity cap) (h : Holds cap q base xs) (hmaxn : maxn ≠ 0)
    {take : Queue → UInt32 → ℕ → List UInt32 × Queue} (htake : ∀ q pos m, take q pos m = q.takeCells pos m) :
    ∃ q', (∀ fuel, q.bulkLoop maxn take (fuel + 1) = some (xs.take maxn.toNat, q')) ∧
      (xs = [] → q' = q) ∧ ∃ base', Holds cap q' base' (xs.drop maxn.toNat) := by
  have hn : maxn.toNat ≠ 0 := fun h0 => hmaxn (UInt32.toNat_inj.mp h0)
  have hscan : q.scan q.tail maxn.toNat 0 = min maxn.toNat xs.length := by
    rw [h.tail, Queue.scan_eq hcap h.toCells _ (Nat.zero_le _), Nat.zero_add]
  by_cases hxs : xs = []
  · subst hxs
    refine ⟨q, fun fuel => ?_, fun _ => rfl, base, by simpa using h⟩
    have hdif : dif (q.seqAt q.tail) (q.tail + 1) < 0 := by
      rw [h.tail, h.seqAt hcap, wrap_add_one]
      have hfree := h.free 0 hcap.pos le_rfl
      rw [Nat.add_zero] at hfree
      rw [hfree]
      exact dif_neg_of_lt (by omega) (by omega)
    rw [Queue.bulkLoop]
    simp [hscan, if_pos hdif]
  · have hlen : xs.length ≠ 0 := fun h0 => hxs (List.eq_nil_of_length_eq_zero h0)
    have hm : min maxn.toNat xs.length ≠ 0 := by omega
    have hcells := Queue.takeCells_cells hcap
      (h.toCells.withTail (wrap (base + min maxn.toNat xs.length)))
      (m := min maxn.toNat xs.length) (by omega)
    have hmin : xs.take (min maxn.toNat xs.length) = xs.take maxn.toNat ∧
        xs.drop (min maxn.toNat xs.length) = xs.drop maxn.toNat := by
      rcases Nat.le_total maxn.toNat xs.length with hle | hle
      · rw [Nat.min_eq_left hle]
        exact ⟨rfl, rfl⟩
      · rw [Nat.min_eq_right hle, List.take_of_length_le hle, List.drop_eq_nil_of_le hle]
        simp
    rw [hmin.1, hmin.2] at hcells
    refine ⟨_, fun fuel => ?_, fun h0 => absurd h0 hxs, _, ⟨hcells.2, ?_, ?_⟩⟩
    · rw [Queue.bulkLoop]
      simp only [hscan, if_neg hm, if_pos, htake]
      rw [h.tail, wrap_add_ofNat, ← hcells.1]
    · exact (Queue.takeCells_cursors _ _ _).1
    · refine (Queue.takeCells_cursors _ _ _).2.trans (h.head.trans ?_)
      rw [List.length_drop]
      congr 1
      omega

end Holds

/-! ## Sequences of calls -/

/-- One call, on a queue of two cells or more. -/
theorem Holds.call (hcap : Capacity cap) (htwo : 2 ≤ cap) (h : Holds cap q base xs) {op : Op}
    (hop : op.Proper) : ∃ q', (∀ fuel, q.call (fuel + 1) op = some ((fifo cap xs op).1, q')) ∧
      ((fifo cap xs op).1.Failed → q' = q) ∧ ∃ base', Holds cap q' base' (fifo cap xs op).2 := by
  have hbulk {maxn : UInt32} (hmaxn : maxn ≠ 0) {take : Queue → UInt32 → ℕ → List UInt32 × Queue}
      (htake : ∀ q pos m, take q pos m = q.takeCells pos m) :
      ∃ q', (∀ fuel, (q.bulkLoop maxn take (fuel + 1)).map (fun r => (Answer.bulk r.1, r.2)) =
        some (.bulk (xs.take maxn.toNat), q')) ∧
      ((Answer.bulk (xs.take maxn.toNat)).Failed → q' = q) ∧
      ∃ base', Holds cap q' base' (xs.drop maxn.toNat) := by
    obtain ⟨q', hloop, hnil, hq'⟩ := h.bulk hcap hmaxn htake
    refine ⟨q', fun fuel => by rw [hloop]; rfl, fun hf => hnil ?_, hq'⟩
    rcases List.take_eq_nil_iff.mp hf with h0 | hxs
    · exact absurd (UInt32.toNat_inj.mp h0) hmaxn
    · exact hxs
  cases op with
  | push v =>
    rw [fifo]
    split_ifs with hfull
    · refine ⟨q, fun fuel => ?_, fun _ => rfl, base, h⟩
      rw [Queue.call, h.push_full hcap htwo hfull]
      rfl
    · have hle := h.le
      obtain ⟨q', hpush, hq'⟩ := h.push hcap (by omega) v
      refine ⟨q', fun fuel => ?_, fun hf => absurd hf (by simp [Answer.Failed]), base, hq'⟩
      rw [Queue.call, hpush]
      rfl
  | pop =>
    cases xs with
    | nil =>
      refine ⟨q, fun fuel => ?_, fun _ => rfl, base, h⟩
      rw [Queue.call, h.pop_nil hcap]
      rfl
    | cons x xs =>
      obtain ⟨q', hpop, hq'⟩ := h.pop_cons hcap
      refine ⟨q', fun fuel => ?_, fun hf => absurd hf (by simp [fifo, Answer.Failed]), _, hq'⟩
      rw [Queue.call, hpop]
      rfl
  | popBulk maxn =>
    have hpop (fuel : ℕ) : q.popBulk maxn fuel = q.bulkLoop maxn
        (if q.fenceLight then Queue.takeCellsLight else Queue.takeCells) fuel := by
      rw [Queue.popBulk]
      split <;> rfl
    simp only [Queue.call, hpop]
    apply hbulk hop
    intro q1 pos m
    split
    · exact q1.takeCellsLight_eq pos m
    · rfl
  | popBulkLight maxn => exact hbulk hop Queue.takeCellsLight_eq

theorem Holds.behaves (hcap : Capacity cap) (htwo : 2 ≤ cap) (h : Holds cap q base xs)
    (ops : List Op) (hops : ∀ op ∈ ops, op.Proper) : Behaves cap ops q xs := by
  induction ops generalizing q base xs with
  | nil => trivial
  | cons op ops ih =>
    obtain ⟨q', hcall, hfail, base', hq'⟩ := h.call hcap htwo (hops op List.mem_cons_self)
    exact ⟨q', hcall, hfail, ih hq' fun op hop => hops op (List.mem_cons_of_mem _ hop)⟩

/-- Two pushes into one cell. -/
theorem not_behaves_one (light : Bool) :
    ¬ Behaves 1 [.push 7, .push 8] (Queue.init (UInt32.ofNat 1) light) [] := by
  rintro ⟨q1, h1, -, q2, h2, -⟩
  have hcap : Capacity 1 := ⟨⟨0, rfl⟩, by decide⟩
  obtain ⟨q', hpush, hq'⟩ := (Holds.init hcap light).push hcap (by decide) 7
  have hfirst := h1 0
  rw [Queue.call, hpush] at hfirst
  obtain ⟨-, rfl⟩ := Prod.mk.inj (Option.some.inj hfirst)
  obtain ⟨q'', hpush'⟩ := hq'.push_full_one rfl 8
  have hsecond := h2 0
  rw [Queue.call, hpush'] at hsecond
  have hanswer : Answer.pushed true = .pushed false := (Prod.mk.inj (Option.some.inj hsecond)).1
  cases hanswer

/-- The second push of a queue of one cell answers that it stored the value. -/
theorem second_push_not_refused :
    ¬ Behaves 1 [.push 7, .push 8] (Queue.init (UInt32.ofNat 1) false) [] :=
  not_behaves_one false

/-- **Under one thread the queue is the bounded list exactly when it has two cells or more.** -/
theorem behaves_iff {k : ℕ} (hk : k < 31) (light : Bool) :
    (∀ ops : List Op, (∀ op ∈ ops, op.Proper) →
      Behaves (2 ^ k) ops (Queue.init (UInt32.ofNat (2 ^ k)) light) []) ↔ 1 ≤ k := by
  constructor
  · intro h
    by_contra hk0
    obtain rfl : k = 0 := by omega
    refine not_behaves_one light (h [.push 7, .push 8] fun op hop => ?_)
    rcases List.mem_cons.mp hop with rfl | hop
    · trivial
    · rw [List.mem_singleton.mp hop]
      trivial
  · intro hk1 ops hops
    have hcap : Capacity (2 ^ k) := ⟨⟨k, rfl⟩, Nat.pow_lt_pow_right (by decide) hk⟩
    have htwo : 2 ≤ 2 ^ k := Nat.le_self_pow (by omega) 2
    exact (Holds.init hcap light).behaves hcap htwo ops hops

/-- With four cells. -/
theorem behaves_iff_four : (∀ ops : List Op, (∀ op ∈ ops, op.Proper) →
    Behaves (2 ^ 2) ops (Queue.init (UInt32.ofNat (2 ^ 2)) false) []) ↔ 1 ≤ 2 :=
  behaves_iff (by decide) false

end FastLlm.ReadyQueue
