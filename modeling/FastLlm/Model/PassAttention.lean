import Mathlib
import FastLlm.Model.PassBuffers
import FastLlm.Model.PassHeads
import FastLlm.Model.PassSizes

/-!
# The attention of a pass

The stages of a layer up to the residual behind the attention, over all positions.  The positions
meet in the cache: a position appends its rows behind those of the positions before it, and its heads
read all rows up to its own.

## Main definitions

* `Setting.Ready` — what a pass finds.
* `kvDone`, `kvLeft` — the rows of a layer that are there, and those that nobody has touched.
* `triple_attention` — stages A to G.
-/

namespace FastLlm
open Assn Build
open TaskModel (Triple)

/-- What a pass over `m` positions from `nPast` on finds. -/
structure Setting.Ready (S : Setting) (fs : UInt32 → UInt32) (m nPast : ℕ) : Prop where
  laid : S.Laid
  consistent : S.D.Consistent fs
  nonEmpty : S.D.NonEmpty
  sized : S.D.Sized fs
  few : m ≤ 16
  pos : ∀ p < m, S.μ (S.D.pos.add p) = .ofNat (nPast + p)
  room : nPast + m ≤ S.D.o.maxKv.toNat

variable {S : Setting} {fs : UInt32 → UInt32} {m nPast : ℕ} {l : UInt32}

theorem Setting.Ready.toNat_pos (h : S.Ready fs m nPast) {p : ℕ} (hp : p < m) :
    (UInt32.ofNat (nPast + p)).toNat = nPast + p := by
  have := h.room
  have := S.D.o.maxKv.toNat_lt
  exact UInt32.toNat_ofNat_of_lt' (by rw [UInt32.size]; omega)

/-! ## Norms -/

/-- A norm and its quantization, which is behind the norm. -/
theorem triple_normQ8 (h : S.Ready fs m nPast) {name : TensorName} {x y : Loc} {v : List Word}
    {n : UInt32} {dx deps : List ℕ} (hv : v.length = n.toNat) (hdx : dx ⊆ deps) :
    S.model.Triple (ready dx x v + blank y n.toNat S.μ) (do
      let w ← tensor S.D name
      let t ← addRmsNorm S.D w x y n deps
      addActQ8 t y n) fun q =>
        ready dx x v + ready [q] y (Pass.rmsNorm S.N S.D (Pass.weight S.D name) v n.toNat) := by
  refine triple_tensor fun w hw => ?_
  rw [Pass.weight, hw, Option.getD_some, blank]
  refine (triple_addRmsNorm h.laid (h.sized.mapped _ w hw) hv Loc.length_contents hdx
    (List.nil_subset _)).seq (K := owned [] (appendix y n.toNat) S.μ) (by rw [add_assoc])
    fun t => ?_
  refine (triple_addActQ8 (Pass.length_rmsNorm S.N S.D w v _) (List.Subset.refl _)).last (K := ready dx x v)
    ?_ fun q => ?_
  · rw [add_assoc, add_comm]
    exact add_le_add_left (add_le_add_left idle_le_ready _) _
  · rw [add_comm]
    exact add_le_add_right ready_add_past_le _

/-- The norms of all positions. -/
theorem triple_norms (h : S.Ready fs m nPast) {name : TensorName} {x : ℕ → Loc} {y : Cols}
    {v : ℕ → List Word} {n : UInt32} {dx deps : ℕ → List ℕ} (hv : ∀ p < m, (v p).length = n.toNat)
    (hdx : ∀ p < m, dx p ⊆ deps p) :
    S.model.Triple (∑ p ∈ Finset.range m, ready (dx p) (x p) (v p) +
        ∑ p ∈ Finset.range m, blank (y.col p) n.toNat S.μ)
      (positions m fun p => do
        let w ← tensor S.D name
        let t ← addRmsNorm S.D w (x p) (y.col p) n (deps p)
        addActQ8 t (y.col p) n) fun q =>
      ∑ p ∈ Finset.range m, ready (dx p) (x p) (v p) + ∑ p ∈ Finset.range m, ready [q p] (y.col p)
        (Pass.rmsNorm S.N S.D (Pass.weight S.D name) (v p) n.toNat) := by
  simp only [← Finset.sum_add_distrib]
  rw [← add_zero (Finset.sum _ _)]
  refine (triple_positions (K := 0) (Q := fun p q => ready (dx p) (x p) (v p) + ready [q] (y.col p)
    (Pass.rmsNorm S.N S.D (Pass.weight S.D name) (v p) n.toNat)) fun p hp => ?_).post
    fun q => (add_zero _).le
  simpa only [add_zero] using triple_normQ8 h (hv p hp) (hdx p hp)

/-! ## The cache of a layer -/

/-- A row has the width of its cache. -/
def KvRow.Fits (D : Decoder) (r : KvRow) : Prop :=
  r.k.length = D.hp.nHead.toNat * D.hp.dk.toNat ∧ r.v.length = D.hp.nHead.toNat * D.hp.dv.toNat

/-- The first `j` rows of layer `l` are there once `ds` are over. -/
def kvDone (D : Decoder) (l : UInt32) (ds : List ℕ) (rows : ℕ → KvRow) (j : ℕ) : Assn Loc Word :=
  ready ds (kcOf D l) ((List.range j).flatMap fun i => (rows i).k) +
    ready ds (vcOf D l) ((List.range j).flatMap fun i => (rows i).v)

/-- The rows of layer `l` from row `j` on are as they were. -/
def kvLeft (D : Decoder) (l : UInt32) (rows : ℕ → KvRow) (j : ℕ) : Assn Loc Word :=
  idle [] ((kcOf D l).add (j * (D.hp.nHead.toNat * D.hp.dk.toNat)))
      (((List.range D.o.maxKv.toNat).flatMap fun i => (rows i).k).drop
        (j * (D.hp.nHead.toNat * D.hp.dk.toNat))) +
    idle [] ((vcOf D l).add (j * (D.hp.nHead.toNat * D.hp.dv.toNat)))
      (((List.range D.o.maxKv.toNat).flatMap fun i => (rows i).v).drop
        (j * (D.hp.nHead.toNat * D.hp.dv.toNat)))

/-- The cache of layer `l` before a pass. -/
def kvHeld (D : Decoder) (l : UInt32) (rows : ℕ → KvRow) : Assn Loc Word :=
  idle [] (kcOf D l) ((List.range D.o.maxKv.toNat).flatMap fun i => (rows i).k) +
    idle [] (vcOf D l) ((List.range D.o.maxKv.toNat).flatMap fun i => (rows i).v)

/-- The cache of layer `l` behind a pass. -/
def kvStored (D : Decoder) (l : UInt32) (rows : ℕ → KvRow) : Assn Loc Word :=
  stored (kcOf D l) ((List.range D.o.maxKv.toNat).flatMap fun i => (rows i).k) +
    stored (vcOf D l) ((List.range D.o.maxKv.toNat).flatMap fun i => (rows i).v)

section
variable {D : Decoder} {rows : ℕ → KvRow} {ds ds' : List ℕ} {j : ℕ}

theorem kvDone_le (h : ds ⊆ ds') : kvDone D l ds rows j ≤ kvDone D l ds' rows j :=
  add_le_add (ready_le h) (ready_le h)

/-- One more row. -/
theorem kvDone_succ (h : ∀ i, (rows i).Fits D) :
    kvDone D l ds rows (j + 1) = kvDone D l ds rows j +
      (ready ds ((kcOf D l).add (j * (D.hp.nHead.toNat * D.hp.dk.toNat))) (rows j).k +
        ready ds ((vcOf D l).add (j * (D.hp.nHead.toNat * D.hp.dv.toNat))) (rows j).v) := by
  rw [kvDone, kvDone, List.range_succ, List.flatMap_append, List.flatMap_append, ready_append,
    ready_append, length_rows fun i _ => (h i).1, length_rows fun i _ => (h i).2,
    List.flatMap_singleton, List.flatMap_singleton]
  abel

/-- One row less. -/
theorem kvLeft_succ (h : ∀ i, (rows i).Fits D) (hj : j < D.o.maxKv.toNat) :
    kvLeft D l rows j = idle [] ((kcOf D l).add (j * (D.hp.nHead.toNat * D.hp.dk.toNat))) (rows j).k +
      idle [] ((vcOf D l).add (j * (D.hp.nHead.toNat * D.hp.dv.toNat))) (rows j).v +
        kvLeft D l rows (j + 1) := by
  rw [kvLeft, idle_take_drop (x := (kcOf D l).add _) (D.hp.nHead.toNat * D.hp.dk.toNat),
    idle_take_drop (x := (vcOf D l).add _) (D.hp.nHead.toNat * D.hp.dv.toNat),
    take_drop_rows (fun i _ => (h i).1) hj, take_drop_rows (fun i _ => (h i).2) hj, kvLeft,
    Loc.add_add, Loc.add_add, List.drop_drop, List.drop_drop, ← Nat.succ_mul, ← Nat.succ_mul]
  abel

/-- The rows of the positions before this pass are there. -/
theorem kvHeld_le (h : ∀ i, (rows i).Fits D) (hj : j ≤ D.o.maxKv.toNat) :
    kvHeld D l rows ≤ kvDone D l [] rows j + kvLeft D l rows j := by
  rw [kvHeld, idle_take_drop (x := kcOf D l) (j * (D.hp.nHead.toNat * D.hp.dk.toNat)),
    idle_take_drop (x := vcOf D l) (j * (D.hp.nHead.toNat * D.hp.dv.toNat)),
    take_rows (fun i _ => (h i).1) hj, take_rows (fun i _ => (h i).2) hj, kvDone, kvLeft,
    add_add_add_comm]
  exact add_le_add_left (add_le_add idle_le_ready idle_le_ready) _

/-- All rows are there behind the tasks of the pass. -/
theorem kvStored_of {old : ℕ → KvRow} (h : ∀ i, (rows i).Fits D) (h' : ∀ i, (old i).Fits D)
    (hj : j ≤ D.o.maxKv.toNat) (hold : ∀ i, old (j + i) = rows (j + i)) :
    kvDone D l ds rows j + kvLeft D l old j ≤ kvStored D l rows := by
  have hwhole (x : Loc) {g g' : ℕ → List Word} {k : ℕ} (hg : ∀ i, (g i).length = k)
      (hg' : ∀ i, (g' i).length = k) (heq : ∀ i, g' (j + i) = g (j + i)) :
      ready ds x ((List.range j).flatMap g) + idle [] (x.add (j * k))
          (((List.range D.o.maxKv.toNat).flatMap g').drop (j * k)) ≤
        stored x ((List.range D.o.maxKv.toNat).flatMap g) := by
    rw [drop_rows (fun i _ => hg' i) hj, funext heq, rows_split hj]
    refine le_trans (b := ready ds x _) ?_ ready_le_stored
    rw [ready_append, length_rows fun i _ => hg i]
    exact add_le_add_right (idle_le_ready.trans (ready_le (List.nil_subset _))) _
  rw [kvDone, kvLeft, add_add_add_comm]
  exact add_le_add (hwhole _ (fun i => (h i).1) (fun i => (h' i).1) fun i => by rw [hold])
    (hwhole _ (fun i => (h i).2) (fun i => (h' i).2) fun i => by rw [hold])

end

/-! ## The heads and the cache -/

/-- The signal behind all appends. -/
theorem triple_appendChain {appCum : Option ℕ} {tApp j : ℕ} {rows : ℕ → KvRow}
    (h : ∀ i, (rows i).Fits S.D) :
    S.model.Triple (kvDone S.D l appCum.toList rows j +
        (idle [tApp] ((kcOf S.D l).add (j * (S.D.hp.nHead.toNat * S.D.hp.dk.toNat))) (rows j).k +
          idle [tApp] ((vcOf S.D l).add (j * (S.D.hp.nHead.toNat * S.D.hp.dv.toNat))) (rows j).v))
      (appendChain appCum tApp) fun sig => kvDone S.D l [sig] rows (j + 1) := by
  cases appCum with
  | none =>
    refine .pure ?_
    rw [kvDone_succ h]
    exact add_le_add (kvDone_le (List.nil_subset _)) (add_le_add idle_le_ready idle_le_ready)
  | some a =>
    have hold : (kvDone S.D l [a] rows j).Reads [a, tApp] fun sig => kvDone S.D l [sig] rows j :=
      (reads_ready_self (by simp)).add (reads_ready_self (by simp))
    refine (triple_fanIn (hold.add ((reads_idle_self (by simp)).add
      (reads_idle_self (by simp))))).post fun sig => ?_
    rw [kvDone_succ h]
    exact add_le_add_right (add_le_add idle_le_ready idle_le_ready) _

/-- Room for the scores of all heads. -/
theorem triple_scratch (h : S.Ready fs m nPast) {n : ℕ} (hn : n ≤ S.D.o.maxKv.toNat) :
    S.model.Triple 0 (alloc (S.D.hp.nHead.toUInt64 * S.D.o.maxKv.toUInt64 * 4) 128) fun scr =>
      ∑ hh ∈ Finset.range S.D.hp.nHead.toNat, idle [] (scr.add (hh * S.D.o.maxKv.toNat))
        ((scr.add (hh * S.D.o.maxKv.toNat)).contents n S.μ) := by
  have hbytes := h.sized.scratch
  have hwords : (S.D.hp.nHead.toUInt64 * S.D.o.maxKv.toUInt64 * 4).toNat / 4 =
      S.D.hp.nHead.toNat * S.D.o.maxKv.toNat := by
    have hfour : (4 : UInt64).toNat = 4 := rfl
    rw [UInt64.toNat_mul, UInt64.toNat_mul, UInt32.toNat_toUInt64, UInt32.toNat_toUInt64, hfour]
    omega
  refine (triple_alloc h.laid _ _).post fun scr => ?_
  rw [hwords, contents_rows, idle_flatMap fun _ _ => Loc.length_contents]
  exact Finset.sum_le_sum fun hh _ => idle_contents_le hn

/-- The heads of position `p`, which read all rows up to its own. -/
theorem triple_heads (h : S.Ready fs m nPast) {p : ℕ} (hp : p < m) {q ctx scr : Loc} {qv : List Word}
    {rows : ℕ → KvRow} {tRq sig : ℕ} (hq : qv.length = S.D.hp.nHead.toNat * S.D.hp.dk.toNat)
    (hrows : ∀ i, (rows i).Fits S.D) :
    S.model.Triple
      (kvDone S.D l [sig] rows (nPast + p + 1) + idle [tRq] q qv +
        ∑ hh ∈ Finset.range S.D.hp.nHead.toNat, idle [] (scr.add (hh * S.D.o.maxKv.toNat))
          ((scr.add (hh * S.D.o.maxKv.toNat)).contents (nPast + p + 1) S.μ) +
        idle [] ctx (ctx.contents (S.D.hp.nHead.toNat * S.D.hp.dv.toNat) S.μ))
      (addHeads S.D l p q ctx scr [tRq, sig]) fun id =>
        kvDone S.D l [sig] rows (nPast + p + 1) + idle [id] ctx (Pass.attnHeads S.N S.D qv
          ((List.range (nPast + p + 1)).map rows) (.ofNat (nPast + p))) := by
  have hroom := h.room
  have hnat := h.toNat_pos hp
  have hlen : ((List.range (nPast + p + 1)).map rows).length = nPast + p + 1 := by simp
  have hsucc : (UInt32.ofNat (nPast + p) + 1).toNat =
      ((List.range (nPast + p + 1)).map rows).length := by
    have hone : (1 : UInt32).toNat = 1 := rfl
    have := S.D.o.maxKv.toNat_lt
    rw [hlen, toNat_add_of_lt (by omega), hnat, hone]
  have hfits : ∀ r ∈ (List.range (nPast + p + 1)).map rows, r.Fits S.D := by
    intro r hr
    obtain ⟨i, -, rfl⟩ := List.mem_map.mp hr
    exact hrows i
  have hheads := @triple_addHeads S _ l _ q ctx scr qv [tRq, sig] [tRq] [sig] [] [] h.laid
    (fun hh => (scr.add (hh * S.D.o.maxKv.toNat)).contents (nPast + p + 1) S.μ)
    (fun hh => (ctx.add (hh * S.D.hp.dv.toNat)).contents S.D.hp.dv.toNat S.μ) _ (h.pos p hp) hsucc (by omega) hq (fun r hr => (hfits r hr).1)
    (fun r hr => (hfits r hr).2) (fun hh => by simp) (fun hh => by simp) (by simp) (by simp)
    (List.nil_subset _) (List.nil_subset _)
  have hflat (g : KvRow → List Word) : ((List.range (nPast + p + 1)).map rows).flatMap g =
      (List.range (nPast + p + 1)).flatMap fun i => g (rows i) := List.flatMap_map _ _ _
  rw [hflat, hflat, Finset.sum_add_distrib] at hheads
  rw [contents_rows, idle_flatMap fun _ _ => Loc.length_contents]
  refine hheads.last (K := 0) ?_ fun id => ?_
  · refine (add_le_add_left (add_le_add_left (add_le_add_right idle_le_ready _) _) _).trans
      (le_of_eq ?_)
    rw [kvDone]
    abel
  · rw [kvDone, add_zero, add_comm]
    exact add_le_add_left (add_le_right _ _) _

/-- Stage E at position `p`. -/
theorem triple_stageEAt (h : S.Ready fs m nPast) {qb kva kvb ctx : Cols} {sq skva skvb : ℕ → ℕ}
    {p : ℕ} (hp : p < m) {q kpe kvbv : List Word} {old rows : ℕ → KvRow}
    (hq : q.length = S.D.hp.nHead.toNat * S.D.hp.dk.toNat)
    (hkpe : kpe.length = S.D.hp.dRope.toNat)
    (hkvb : kvbv.length = S.D.hp.nHead.toNat * (S.D.hp.dNope.toNat + S.D.hp.dv.toNat))
    (hold : ∀ i, (old i).Fits S.D) (hrows : ∀ i, (rows i).Fits S.D)
    (hrow : rows (nPast + p) = Pass.kvAppend S.D kvbv (Pass.rope S.N S.D kpe (.ofNat (nPast + p)) 1
      S.D.hp.dRope.toNat 0 S.D.hp.dRope.toNat)) (appCum : Option ℕ) :
    S.model.Triple
      (kvDone S.D l appCum.toList rows (nPast + p) + kvLeft S.D l old (nPast + p) +
        (idle [sq p] (qb.col p) q + idle [skva p] ((kva.col p).add S.D.hp.kvLora.toNat) kpe +
          ready [skvb p] (kvb.col p) kvbv +
          blank (ctx.col p) (S.D.hp.nHead.toNat * S.D.hp.dv.toNat) S.μ))
      (stageEAt S.D l qb kva kvb ctx sq skva skvb p appCum) fun r =>
        kvDone S.D l [r.1] rows (nPast + p + 1) + kvLeft S.D l old (nPast + p + 1) +
          ready [r.2] (ctx.col p) (Pass.attnHeads S.N S.D
            (Pass.rope S.N S.D q (.ofNat (nPast + p)) S.D.hp.nHead.toNat S.D.hp.dk.toNat
              S.D.hp.dNope.toNat S.D.hp.dRope.toNat) ((List.range (nPast + p + 1)).map rows)
            (.ofNat (nPast + p))) := by
  have hw := h.pos p hp
  have hnat := h.toNat_pos hp
  have hroom := h.room
  set w : Word := .ofNat (nPast + p) with hwdef
  set j := nPast + p with hj
  set K := kvDone S.D l appCum.toList rows j
  set Old := kvLeft S.D l old (j + 1)
  set B := ready [skvb p] (kvb.col p) kvbv
  set C := blank (ctx.col p) (S.D.hp.nHead.toNat * S.D.hp.dv.toNat) S.μ
  set q' := Pass.rope S.N S.D q w S.D.hp.nHead.toNat S.D.hp.dk.toNat S.D.hp.dNope.toNat
    S.D.hp.dRope.toNat
  set kpe' := Pass.rope S.N S.D kpe w 1 S.D.hp.dRope.toNat 0 S.D.hp.dRope.toNat
  set Row := idle [] ((kcOf S.D l).add (j * (S.D.hp.nHead.toNat * S.D.hp.dk.toNat))) (old j).k +
    idle [] ((vcOf S.D l).add (j * (S.D.hp.nHead.toNat * S.D.hp.dv.toNat))) (old j).v with hRow
  have hq' : q'.length = S.D.hp.nHead.toNat * S.D.hp.dk.toNat := by simp [q', hq]
  have hpairs : 2 * ((S.D.hp.dRope.toNat + 1) / 2) = S.D.hp.dRope.toNat := by
    have := h.sized.pairs
    omega
  have hhead := h.sized.head
  have hropeQ : S.model.Triple (idle [sq p] (qb.col p) q) (addRope S.D (qb.col p) (S.D.pos.add p)
      S.D.hp.nHead S.D.hp.dk S.D.hp.dNope S.D.hp.dRope [sq p]) fun id => idle [id] (qb.col p) q' := by
    refine triple_addRope h.laid hw (fun hh hlt => ?_) (List.Subset.refl _)
    rw [hpairs, hq, Nat.add_assoc, ← hhead, ← Nat.succ_mul]
    exact Nat.mul_le_mul_right _ hlt
  have hropeK : S.model.Triple (idle [skva p] ((kva.col p).add S.D.hp.kvLora.toNat) kpe)
      (addRope S.D ((kva.col p).add S.D.hp.kvLora.toNat) (S.D.pos.add p) 1 S.D.hp.dRope 0
        S.D.hp.dRope [skva p]) fun id =>
        idle [id] ((kva.col p).add S.D.hp.kvLora.toNat) kpe' := by
    refine triple_addRope h.laid hw (fun hh hlt => ?_) (List.Subset.refl _)
    obtain rfl : hh = 0 := Nat.lt_one_iff.mp hlt
    have hzero : (0 : UInt32).toNat = 0 := rfl
    rw [hpairs, hkpe, hzero, Nat.zero_mul, Nat.zero_add]
  have happend (tRk : ℕ) : S.model.Triple (B + idle [tRk] ((kva.col p).add S.D.hp.kvLora.toNat) kpe' +
      Row) (addKvAppend S.D l p kvb kva [skvb p, tRk]) fun id =>
        idle [id] ((kcOf S.D l).add (j * (S.D.hp.nHead.toNat * S.D.hp.dk.toNat))) (rows j).k +
          idle [id] ((vcOf S.D l).add (j * (S.D.hp.nHead.toNat * S.D.hp.dv.toNat))) (rows j).v := by
    have happ := @triple_addKvAppend S [skvb p, tRk] _ kpe' [skvb p] [tRk] h.laid l _ _ hw kvb kva _ _
      [] [] h.sized.head hkvb
      (by simp [kpe', hkpe]) (hold j).1 (hold j).2 (by simp) (by simp) (List.nil_subset _)
      (List.nil_subset _)
    rw [rowAt, rowAt, hnat, ← hrow] at happ
    refine (happ.pre ?_).post fun id => add_le_right _ _
    exact add_le_add_left (add_le_add_right idle_le_ready _) _
  rw [kvLeft_succ hold (by omega), ← hRow, stageEAt]
  refine hropeQ.seq (K := K + (Row + Old) +
    (idle [skva p] ((kva.col p).add S.D.hp.kvLora.toNat) kpe + B + C)) (le_of_eq (by abel))
    fun tRq => ?_
  refine hropeK.seq (K := K + (Row + Old) + (idle [tRq] (qb.col p) q' + B + C))
    (le_of_eq (by abel)) fun tRk => ?_
  refine (happend tRk).seq (K := K + Old + (idle [tRq] (qb.col p) q' + C)) (le_of_eq (by abel))
    fun tApp => ?_
  refine (triple_appendChain hrows).seq
    (K := Old + (idle [tRq] (qb.col p) q' + C)) (le_of_eq (by abel)) fun sig => ?_
  refine (triple_scratch h (n := j + 1) (by omega)).seq
    (K := kvDone S.D l [sig] rows (j + 1) + (Old + (idle [tRq] (qb.col p) q' + C)))
    (le_of_eq (by abel)) fun scr => ?_
  refine (triple_heads h hp hq' hrows).seq
    (K := Old + owned [] (appendix (ctx.col p) (S.D.hp.nHead.toNat * S.D.hp.dv.toNat)) S.μ)
    (le_of_eq ?_) fun tHeads => ?_
  · simp only [C, blank]
    abel
  have hn := h.sized.toNat_context
  have hquant := @triple_addActQ8 S (ctx.col p)
    (Pass.attnHeads S.N S.D q' ((List.range (j + 1)).map rows) w) [tHeads] tHeads
    (S.D.hp.nHead * S.D.hp.dv) (by simp [hn])
    (List.Subset.refl _)
  rw [hn] at hquant
  refine hquant.seq (K := kvDone S.D l [sig] rows (j + 1) + Old) ?_ fun cq8 => .pure ?_
  · refine (add_le_add_left (add_le_add_right idle_le_ready _) _).trans (le_of_eq ?_)
    abel
  · rw [add_comm]
    exact add_le_add_right ready_add_past_le _

/-- Stage E: the positions one after the other. -/
theorem triple_stageE (h : S.Ready fs m nPast) {qb kva kvb ctx : Cols} {sq skva skvb : ℕ → ℕ}
    {q u v : ℕ → List Word} {old rows : ℕ → KvRow}
    (hq : ∀ p < m, (q p).length = S.D.hp.nHead.toNat * S.D.hp.dk.toNat)
    (hu : ∀ p < m, (u p).length = S.D.hp.dRope.toNat)
    (hv : ∀ p < m, (v p).length = S.D.hp.nHead.toNat * (S.D.hp.dNope.toNat + S.D.hp.dv.toNat))
    (hold : ∀ i, (old i).Fits S.D) (hrows : ∀ i, (rows i).Fits S.D)
    (hbefore : ∀ i < nPast, old i = rows i) (hbehind : ∀ i, old (nPast + m + i) = rows (nPast + m + i))
    (hrow : ∀ p < m, rows (nPast + p) = Pass.kvAppend S.D (v p) (Pass.rope S.N S.D (u p)
      (.ofNat (nPast + p)) 1 S.D.hp.dRope.toNat 0 S.D.hp.dRope.toNat)) :
    S.model.Triple
      (kvHeld S.D l old + ∑ p ∈ Finset.range m, (idle [sq p] (qb.col p) (q p) +
        idle [skva p] ((kva.col p).add S.D.hp.kvLora.toNat) (u p) +
          ready [skvb p] (kvb.col p) (v p) +
          blank (ctx.col p) (S.D.hp.nHead.toNat * S.D.hp.dv.toNat) S.μ))
      (stageE S.D l m qb kva kvb ctx sq skva skvb) fun cq8 =>
        kvStored S.D l rows + ∑ p ∈ Finset.range m, ready [cq8 p] (ctx.col p)
          (Pass.attnHeads S.N S.D
            (Pass.rope S.N S.D (q p) (.ofNat (nPast + p)) S.D.hp.nHead.toNat S.D.hp.dk.toNat
              S.D.hp.dNope.toNat S.D.hp.dRope.toNat) ((List.range (nPast + p + 1)).map rows)
            (.ofNat (nPast + p))) := by
  have hroom := h.room
  have hfirst : kvDone S.D l [] old nPast = kvDone S.D l [] rows nPast := by
    have hcongr (g : KvRow → List Word) : (List.range nPast).flatMap (fun i => g (old i)) =
        (List.range nPast).flatMap fun i => g (rows i) :=
      List.flatMap_congr fun i hi => by rw [hbefore i (List.mem_range.mp hi)]
    rw [kvDone, kvDone, hcongr, hcongr]
  have hheld : kvHeld S.D l old ≤ kvDone S.D l [] rows nPast + kvLeft S.D l old nPast :=
    hfirst ▸ kvHeld_le hold (Nat.le_of_add_right_le hroom)
  refine .pre (add_le_add_left hheld _) ?_
  have hloop := Triple.foldlM_collect (M := S.model) (g := some)
    (f := fun t p => stageEAt S.D l qb kva kvb ctx sq skva skvb p t) (n := m)
    (I := fun p t => kvDone S.D l (Option.toList t) rows (nPast + p) + kvLeft S.D l old (nPast + p))
    (P := fun p => idle [sq p] (qb.col p) (q p) +
      idle [skva p] ((kva.col p).add S.D.hp.kvLora.toNat) (u p) + ready [skvb p] (kvb.col p) (v p) +
        blank (ctx.col p) (S.D.hp.nHead.toNat * S.D.hp.dv.toNat) S.μ)
    (Q := fun p i => ready [i] (ctx.col p) (Pass.attnHeads S.N S.D
      (Pass.rope S.N S.D (q p) (.ofNat (nPast + p)) S.D.hp.nHead.toNat S.D.hp.dk.toNat
        S.D.hp.dNope.toNat S.D.hp.dRope.toNat) ((List.range (nPast + p + 1)).map rows)
      (.ofNat (nPast + p))))
    (fun p hp t => triple_stageEAt h hp (hq p hp) (hu p hp) (hv p hp) hold hrows (hrow p hp) t)
    none
  rw [stageE]
  exact hloop.bind fun r => .pure (add_le_add_left (kvStored_of hrows hold hroom hbehind) _)

/-! ## The stages behind the heads -/

/-- Stage G. -/
theorem triple_stageG (h : S.Ready fs m nPast) {r : Residual} {ao x2 xf : Cols} {so : ℕ → ℕ}
    {x o : ℕ → List Word} (hx : ∀ p < m, (x p).length = S.D.hp.nEmbd.toNat)
    (ho : ∀ p < m, (o p).length = S.D.hp.nEmbd.toNat) :
    S.model.Triple
      (∑ p ∈ Finset.range m, (ready (r.dep p).toList (r.x p) (x p) + ready [so p] (ao.col p) (o p) +
        blank (x2.col p) S.D.hp.nEmbd.toNat S.μ + blank (xf.col p) S.D.hp.nEmbd.toNat S.μ))
      (stageG S.D l m r ao x2 xf so) fun g => ∑ p ∈ Finset.range m,
        (ready [(g p).1] (x2.col p) (Pass.add2 S.N S.D (x p) (o p)) +
          (ready [(g p).2.1] (xf.col p) (Pass.rmsNorm S.N S.D (Pass.weight S.D (.blk l .ffnNorm))
            (Pass.add2 S.N S.D (x p) (o p)) S.D.hp.nEmbd.toNat) +
            past [(g p).2.1] [(g p).2.2])) := by
  rw [← add_zero (Finset.sum _ _)]
  refine (triple_positions (K := 0) (Q := fun p (g : ℕ × ℕ × ℕ) =>
    ready [g.1] (x2.col p) (Pass.add2 S.N S.D (x p) (o p)) +
      (ready [g.2.1] (xf.col p) (Pass.rmsNorm S.N S.D (Pass.weight S.D (.blk l .ffnNorm))
        (Pass.add2 S.N S.D (x p) (o p)) S.D.hp.nEmbd.toNat) + past [g.2.1] [g.2.2]))
    fun p hp => ?_).post fun g => (add_zero _).le
  simp only [add_zero]
  refine (triple_add2 h.laid (hx p hp) (ho p hp) (@Loc.length_contents (x2.col p) _ S.μ)
    (List.subset_cons_self _ _)
    (List.cons_subset_cons _ (List.nil_subset _)) (List.nil_subset _)).seq (K := blank (xf.col p) S.D.hp.nEmbd.toNat S.μ) ?_
    fun tx2 => ?_
  · exact add_le_add_left (add_le_add_right (add_le_left _ _) _) _
  refine triple_tensor fun w hw => ?_
  rw [Pass.weight, hw, Option.getD_some, blank]
  refine (triple_addRmsNorm (y := xf.col p) h.laid (h.sized.mapped _ w hw)
    (Pass.length_add2 S.N S.D (x p) (o p)) (@Loc.length_contents (xf.col p) _ S.μ)
    (List.Subset.refl [tx2])
    (List.nil_subset _)).seq (K := owned [] (appendix (xf.col p) S.D.hp.nEmbd.toNat) S.μ) ?_
    fun fn => ?_
  · rw [← add_assoc]
    refine add_le_add_left (add_le_add_left ((add_le_right _ _).trans idle_le_ready) _) _
  refine (triple_addActQ8 (Pass.length_rmsNorm S.N S.D w (Pass.add2 S.N S.D (x p) (o p)) _)
    (List.Subset.refl [fn])).seq
    (K := ready [tx2] (x2.col p) (Pass.add2 S.N S.D (x p) (o p))) ?_ fun fq8 => .pure ?_
  · rw [add_assoc, add_comm]
    exact add_le_add_left (add_le_add_left idle_le_ready _) _
  · exact (add_comm _ _).le

/-! ## Tensors of a layer -/

/-- A stage of dots with a tensor of the layer. -/
theorem triple_layerDot (h : S.Ready fs m nPast) (hl : l < S.D.hp.nLayer) {c : LayerTensor}
    (hc : c ∈ S.D.layerTensors l) {x y : Cols} {pdeps : ℕ → ℕ} {rowsz : UInt32} {ny : ℕ}
    {v : ℕ → List Word} {dx : ℕ → List ℕ} {P K : Assn Loc Word} {β : Type} {T : β → Assn Loc Word}
    {f : (ℕ → ℕ) → Build β} (hny : (S.D.hp.shape (fs l) c).1.toNat = ny)
    (hv : ∀ p < m, (v p).length = (S.D.hp.shape (fs l) c).2.toNat) (hdx : ∀ p < m, dx p ⊆ [pdeps p])
    (hP : P ≤ ∑ p ∈ Finset.range m, ready (dx p) (x.col p) (v p) +
      ∑ p ∈ Finset.range m, idle [] (y.col p) (List.replicate ny 0) + K)
    (hf : ∀ r : ℕ → ℕ, S.model.Triple (∑ p ∈ Finset.range m, ready (dx p) (x.col p) (v p) +
      ∑ p ∈ Finset.range m, idle [r p] (y.col p) (Pass.dot S.N (Pass.weight S.D (.blk l c))
        (Pass.weight S.D (.blk l c)).p (v p)) + K) (f r) T) :
    S.model.Triple P
      (layerTensor S.D l c >>= fun w => stageDot S.D.o w x y m pdeps rowsz >>= f) T := by
  refine triple_tensor fun w hw => ?_
  obtain ⟨hcut, hrows, hcols⟩ := h.consistent.tensor h.sized hl hc hw
  rw [← hny, ← hrows] at hP
  rw [Pass.weight, hw, Option.getD_some] at hf
  exact (triple_stageDot h.laid hcut (fun p hp => (hv p hp).trans (by rw [hcols])) hdx
    fun _ _ => List.nil_subset _).seq hP hf

theorem length_layerDot (h : S.Ready fs m nPast) (hl : l < S.D.hp.nLayer) {c : LayerTensor}
    (hc : c ∈ S.D.layerTensors l) (base : BytePtr) (v : List Word) :
    (Pass.dot S.N (Pass.weight S.D (.blk l c)) base v).length =
      (S.D.hp.shape (fs l) c).1.toNat := by
  obtain ⟨w, hw, -, hshape, -⟩ := h.consistent.blk l hl c hc
  rw [Pass.length_dot, Pass.weight, hw, Option.getD_some, ← hshape]

theorem layerWeight_toNat (D : Decoder) (c : LayerTensor) :
    Pass.layerWeight D l.toNat c = Pass.weight D (.blk l c) := by
  rw [Pass.layerWeight, UInt32.ofNat_toNat]

/-! ## The attention -/

theorem fits_kvAppend (D : Decoder) (u v : List Word) : (Pass.kvAppend D u v).Fits D :=
  ⟨length_runOp _ _ _ _, length_runOp _ _ _ _⟩

theorem fits_appended {x : ℕ → List Word} {kv : KvCache} (hkv : ∀ i, (kv l.toNat i).Fits S.D) (i : ℕ) :
    (Pass.appended S.N S.D m nPast l.toNat x kv i).Fits S.D := by
  rw [Pass.appended]
  split_ifs
  · exact fits_kvAppend _ _ _
  · exact hkv i

namespace Pass
variable (N : Numerics) (D : Decoder) (l : UInt32) (x : List Word)

/-! The columns of a position in front of the heads, under the names of their buffers. -/

def xn : List Word := rmsNorm N D (weight D (.blk l .attnNorm)) x D.hp.nEmbd.toNat

def qb : List Word := dot N (weight D (.blk l .attnQ)) (weight D (.blk l .attnQ)).p (xn N D l x)

def kva : List Word :=
  dot N (weight D (.blk l .attnKvAMqa)) (weight D (.blk l .attnKvAMqa)).p (xn N D l x)

def ckv : List Word := rmsNorm N D (weight D (.blk l .attnKvANorm)) (kva N D l x) D.hp.kvLora.toNat

def kvb : List Word :=
  dot N (weight D (.blk l .attnKvB)) (weight D (.blk l .attnKvB)).p (ckv N D l x)

theorem project_eq (pos : ℕ) : project N D l.toNat pos x =
    ⟨rope N D (qb N D l x) (.ofNat pos) D.hp.nHead.toNat D.hp.dk.toNat D.hp.dNope.toNat
        D.hp.dRope.toNat,
      kvAppend D (kvb N D l x) (rope N D ((kva N D l x).drop D.hp.kvLora.toNat) (.ofNat pos) 1
        D.hp.dRope.toNat 0 D.hp.dRope.toNat)⟩ := by
  simp only [project, layerWeight_toNat]
  rfl

end Pass

theorem appended_at {N : Numerics} {D : Decoder} {x : ℕ → List Word} {kv : KvCache} {p : ℕ}
    (hp : p < m) : Pass.appended N D m nPast l.toNat x kv (nPast + p) =
      (Pass.project N D l.toNat (nPast + p) (x p)).row := by
  rw [Pass.appended, if_pos ⟨Nat.le_add_right _ _, Nat.add_lt_add_left hp _⟩,
    Nat.add_sub_cancel_left]

theorem appended_before {N : Numerics} {D : Decoder} {x : ℕ → List Word} {kv : KvCache} {i : ℕ}
    (hi : i < nPast) : Pass.appended N D m nPast l.toNat x kv i = kv l.toNat i :=
  if_neg fun h => Nat.not_lt.mpr h.1 hi

theorem appended_behind {N : Numerics} {D : Decoder} {x : ℕ → List Word} {kv : KvCache} (i : ℕ) :
    Pass.appended N D m nPast l.toNat x kv (nPast + m + i) = kv l.toNat (nPast + m + i) :=
  if_neg fun h => Nat.not_lt.mpr (Nat.le_add_right _ _) h.2

/-- The residual stream behind the attention. -/
def Pass.attended (N : Numerics) (D : Decoder) (m nPast l : ℕ) (x : ℕ → List Word) (kv : KvCache)
    (p : ℕ) : List Word :=
  Pass.attend N D l (nPast + p) (x p) (Pass.project N D l (nPast + p) (x p)).q
    ((List.range (nPast + p + 1)).map (Pass.appended N D m nPast l x kv))

/-- The columns in front of the heads. -/
def projected (S : Setting) (l : UInt32) (m : ℕ) (x : ℕ → List Word) (qb kva kvb : Cols)
    (sq skva skvb : ℕ → ℕ) : Assn Loc Word :=
  ∑ p ∈ Finset.range m, idle [sq p] (qb.col p) (Pass.qb S.N S.D l (x p)) +
    ∑ p ∈ Finset.range m, idle [skva p] ((kva.col p).add S.D.hp.kvLora.toNat)
      ((Pass.kva S.N S.D l (x p)).drop S.D.hp.kvLora.toNat) +
    ∑ p ∈ Finset.range m, ready [skvb p] (kvb.col p) (Pass.kvb S.N S.D l (x p))

section
variable {x : ℕ → List Word} {rowsz : UInt32} {r : Residual} {qb kva kvb : Cols}

theorem mem_layerTensors {D : Decoder} {c : LayerTensor} (hc : c ∈ LayerTensor.common) :
    c ∈ D.layerTensors l := List.mem_append_left _ hc

theorem length_kva (h : S.Ready fs m nPast) (hl : l < S.D.hp.nLayer) (v : List Word) :
    (Pass.kva S.N S.D l v).length = S.D.hp.kvLora.toNat + S.D.hp.dRope.toNat :=
  (length_layerDot h hl (mem_layerTensors (by decide)) _ _).trans h.sized.toNat_latent

/-- **Stages A to D.** -/
theorem triple_projections (h : S.Ready fs m nPast) (hl : l < S.D.hp.nLayer) {xn ckv : Cols}
    (hx : ∀ p < m, (x p).length = S.D.hp.nEmbd.toNat) {β : Type} {T : β → Assn Loc Word}
    {K : Assn Loc Word} {f : (ℕ → ℕ) → (ℕ → ℕ) → (ℕ → ℕ) → Build β}
    (hf : ∀ sq skva skvb, S.model.Triple
      (∑ p ∈ Finset.range m, ready (r.dep p).toList (r.x p) (x p) +
        projected S l m x qb kva kvb sq skva skvb + K) (f sq skva skvb) T) :
    S.model.Triple
      (∑ p ∈ Finset.range m, ready (r.dep p).toList (r.x p) (x p) +
        (∑ p ∈ Finset.range m, blank (xn.col p) S.D.hp.nEmbd.toNat S.μ +
          ∑ p ∈ Finset.range m, idle [] (qb.col p)
            (List.replicate (S.D.hp.nHead.toNat * S.D.hp.dk.toNat) 0) +
          ∑ p ∈ Finset.range m, idle [] (kva.col p)
            (List.replicate (S.D.hp.kvLora.toNat + S.D.hp.dRope.toNat) 0) +
          ∑ p ∈ Finset.range m, blank (ckv.col p) S.D.hp.kvLora.toNat S.μ +
          ∑ p ∈ Finset.range m, idle [] (kvb.col p)
            (List.replicate (S.D.hp.nHead.toNat * (S.D.hp.dNope.toNat + S.D.hp.dv.toNat)) 0)) + K)
      (do
        let aq ← stageA S.D l m r xn
        let wq ← layerTensor S.D l .attnQ
        let sq ← stageDot S.D.o wq xn qb m aq rowsz
        let wkva ← layerTensor S.D l .attnKvAMqa
        let skva ← stageDot S.D.o wkva xn kva m aq rowsz
        let kq8 ← stageC S.D l m kva ckv skva
        let wkvb ← layerTensor S.D l .attnKvB
        let skvb ← stageDot S.D.o wkvb ckv kvb m kq8 rowsz
        f sq skva skvb) T := by
  set X := ∑ p ∈ Finset.range m, ready (r.dep p).toList (r.x p) (x p)
  set Xn := ∑ p ∈ Finset.range m, blank (xn.col p) S.D.hp.nEmbd.toNat S.μ
  set Qb := ∑ p ∈ Finset.range m, idle [] (qb.col p)
    (List.replicate (S.D.hp.nHead.toNat * S.D.hp.dk.toNat) 0)
  set Kva := ∑ p ∈ Finset.range m, idle [] (kva.col p)
    (List.replicate (S.D.hp.kvLora.toNat + S.D.hp.dRope.toNat) 0)
  set Ckv := ∑ p ∈ Finset.range m, blank (ckv.col p) S.D.hp.kvLora.toNat S.μ
  set Kvb := ∑ p ∈ Finset.range m, idle [] (kvb.col p)
    (List.replicate (S.D.hp.nHead.toNat * (S.D.hp.dNope.toNat + S.D.hp.dv.toNat)) 0)
  refine (triple_norms h hx fun p _ => List.Subset.refl _).seq
    (K := K + (Qb + Kva + Ckv + Kvb)) (le_of_eq (by abel)) fun aq => ?_
  set Xn' := ∑ p ∈ Finset.range m, ready [aq p] (xn.col p) (Pass.xn S.N S.D l (x p))
  change S.model.Triple (X + Xn' + _) _ _
  -- the query and the latent
  have hxn (p : ℕ) (_ : p < m) : (Pass.xn S.N S.D l (x p)).length = S.D.hp.nEmbd.toNat :=
    Pass.length_rmsNorm ..
  refine triple_layerDot h hl (mem_layerTensors (by decide)) h.sized.toNat_query hxn
    (fun p _ => List.Subset.refl [aq p]) (K := K + X + (Kva + Ckv + Kvb)) (le_of_eq (by abel))
    fun sq => ?_
  set Q := ∑ p ∈ Finset.range m, idle [sq p] (qb.col p) (Pass.qb S.N S.D l (x p)) with hQ
  change S.model.Triple (Xn' + Q + _) _ _
  refine triple_layerDot h hl (mem_layerTensors (by decide)) h.sized.toNat_latent hxn
    (fun p _ => List.Subset.refl [aq p]) (K := K + X + (Q + Ckv + Kvb)) (le_of_eq (by abel))
    fun skva => ?_
  -- stage C reads the latent, the ropes take what is behind it
  set La := ∑ p ∈ Finset.range m, idle [skva p] (kva.col p) (Pass.kva S.N S.D l (x p))
  change S.model.Triple (Xn' + La + _) _ _
  set Lo := ∑ p ∈ Finset.range m,
    ready [skva p] (kva.col p) ((Pass.kva S.N S.D l (x p)).take S.D.hp.kvLora.toNat)
  set Hi := ∑ p ∈ Finset.range m, idle [skva p] ((kva.col p).add S.D.hp.kvLora.toNat)
    ((Pass.kva S.N S.D l (x p)).drop S.D.hp.kvLora.toNat) with hHi
  have hLa : La ≤ Lo + Hi := by
    rw [← Finset.sum_add_distrib]
    refine Finset.sum_le_sum fun p _ => ?_
    rw [idle_take_drop S.D.hp.kvLora.toNat]
    exact add_le_add_left idle_le_ready _
  refine .pre (add_le_add_left (add_le_add_right hLa Xn') _) ?_
  refine (triple_norms h (fun p _ => List.length_take_of_le (by rw [length_kva h hl]; omega))
    fun p _ => List.Subset.refl [skva p]).seq (K := K + X + Xn' + (Q + Hi + Kvb))
    (le_of_eq (by abel)) fun kq8 => ?_
  simp only [Pass.rmsNorm_take]
  set C := ∑ p ∈ Finset.range m, ready [kq8 p] (ckv.col p) (Pass.ckv S.N S.D l (x p))
  change S.model.Triple (Lo + C + _) _ _
  -- stage D
  have hckv (p : ℕ) (_ : p < m) : (Pass.ckv S.N S.D l (x p)).length = S.D.hp.kvLora.toNat :=
    Pass.length_rmsNorm ..
  refine triple_layerDot h hl (mem_layerTensors (by decide)) h.sized.toNat_keyValue hckv
    (fun p _ => List.Subset.refl [kq8 p]) (K := K + X + Xn' + Lo + (Q + Hi)) (le_of_eq (by abel))
    fun skvb => ?_
  refine .pre ?_ (hf sq skva skvb)
  set B := ∑ p ∈ Finset.range m, idle [skvb p] (kvb.col p) (Pass.kvb S.N S.D l (x p))
  change C + B + _ ≤ _
  have hB : B ≤ ∑ p ∈ Finset.range m, ready [skvb p] (kvb.col p) (Pass.kvb S.N S.D l (x p)) :=
    Finset.sum_le_sum fun p _ => idle_le_ready
  rw [projected, ← hQ, ← hHi]
  calc C + B + (K + X + Xn' + Lo + (Q + Hi)) = X + (Q + Hi + B) + K + (C + Xn' + Lo) := by abel
    _ ≤ X + (Q + Hi + B) + K := add_le_left _ _
    _ ≤ _ := add_le_add_left (add_le_add_right (add_le_add_right hB _) _) _

end

/-- The context of position `p`. -/
def Pass.ctx (N : Numerics) (D : Decoder) (l : UInt32) (rows : ℕ → KvRow) (pos : ℕ) (x : List Word) :
    List Word :=
  attnHeads N D (rope N D (qb N D l x) (.ofNat pos) D.hp.nHead.toNat D.hp.dk.toNat D.hp.dNope.toNat
    D.hp.dRope.toNat) ((List.range (pos + 1)).map rows) (.ofNat pos)

theorem attended_eq {x : ℕ → List Word} {kv : KvCache} (p : ℕ) :
    Pass.attended S.N S.D m nPast l.toNat x kv p = Pass.add2 S.N S.D (x p)
      (Pass.dot S.N (Pass.weight S.D (.blk l .attnOutput)) (Pass.weight S.D (.blk l .attnOutput)).p
        (Pass.ctx S.N S.D l (Pass.appended S.N S.D m nPast l.toNat x kv) (nPast + p) (x p))) := by
  rw [Pass.attended, Pass.attend, layerWeight_toNat, Pass.project_eq]
  rfl

/-- Stage E on what the projections leave. -/
theorem triple_heads_projected (h : S.Ready fs m nPast) (hl : l < S.D.hp.nLayer)
    {x : ℕ → List Word} {kv : KvCache} {qb kva kvb ctx : Cols} {sq skva skvb : ℕ → ℕ}
    (hkv : ∀ i, (kv l.toNat i).Fits S.D) :
    S.model.Triple (kvHeld S.D l (kv l.toNat) + (projected S l m x qb kva kvb sq skva skvb +
        ∑ p ∈ Finset.range m, blank (ctx.col p) (S.D.hp.nHead.toNat * S.D.hp.dv.toNat) S.μ))
      (stageE S.D l m qb kva kvb ctx sq skva skvb) fun cq8 =>
        kvStored S.D l (Pass.appended S.N S.D m nPast l.toNat x kv) +
          ∑ p ∈ Finset.range m, ready [cq8 p] (ctx.col p)
            (Pass.ctx S.N S.D l (Pass.appended S.N S.D m nPast l.toNat x kv) (nPast + p) (x p)) := by
  have hq (p : ℕ) (_ : p < m) : (Pass.qb S.N S.D l (x p)).length =
      S.D.hp.nHead.toNat * S.D.hp.dk.toNat :=
    (length_layerDot h hl (mem_layerTensors (by decide)) _ _).trans h.sized.toNat_query
  have hu (p : ℕ) (_ : p < m) : ((Pass.kva S.N S.D l (x p)).drop S.D.hp.kvLora.toNat).length =
      S.D.hp.dRope.toNat := by
    rw [List.length_drop, length_kva h hl, Nat.add_sub_cancel_left]
  have hv (p : ℕ) (_ : p < m) : (Pass.kvb S.N S.D l (x p)).length =
      S.D.hp.nHead.toNat * (S.D.hp.dNope.toNat + S.D.hp.dv.toNat) :=
    (length_layerDot h hl (mem_layerTensors (by decide)) _ _).trans h.sized.toNat_keyValue
  have hE : S.model.Triple _ (stageE S.D l m qb kva kvb ctx sq skva skvb) _ :=
    triple_stageE h hq hu hv hkv (fits_appended hkv) (fun i hi => (appended_before hi).symm)
      (fun i => (appended_behind i).symm)
      fun p hp => (appended_at hp).trans (by rw [Pass.project_eq])
  simp only [Finset.sum_add_distrib] at hE
  exact hE

/-- What stage G leaves for the FFN. -/
def ffnFinds (S : Setting) (l : UInt32) (m : ℕ) (i : FfnIn) (v : ℕ → List Word) : Assn Loc Word :=
  ∑ p ∈ Finset.range m, (ready [i.tx2 p] (i.x2.col p) (v p) +
    (ready [i.fn p] (i.xf.col p)
      (Pass.rmsNorm S.N S.D (Pass.weight S.D (.blk l .ffnNorm)) (v p) S.D.hp.nEmbd.toNat) +
      past [i.fn p] [i.fq8 p]))

/-- **Stages A to G.** -/
theorem triple_attention (h : S.Ready fs m nPast) (hl : l < S.D.hp.nLayer) {rowsz : UInt32}
    {r : Residual} {x : ℕ → List Word} {kv : KvCache}
    (hx : ∀ p < m, (x p).length = S.D.hp.nEmbd.toNat) (hkv : ∀ i, (kv l.toNat i).Fits S.D) :
    S.model.Triple
      (kvHeld S.D l (kv l.toNat) + ∑ p ∈ Finset.range m, ready (r.dep p).toList (r.x p) (x p))
      (attention S.D l m rowsz r) fun i =>
        kvStored S.D l (Pass.appended S.N S.D m nPast l.toNat x kv) +
          ffnFinds S l m i (Pass.attended S.N S.D m nPast l.toNat x kv) := by
  have hL := h.laid
  have hm := h.few
  have hS := h.sized
  set Kv := kvHeld S.D l (kv l.toNat)
  set X := ∑ p ∈ Finset.range m, ready (r.dep p).toList (r.x p) (x p) with hX
  rw [attention]
  refine (triple_bufAllocCols hL hS.embd hm).seq (zero_add _).ge fun xn => ?_
  refine (triple_slotAllocCols hL (hS.toNat_query ▸ hS.query) hm).seq (zero_add _).ge fun qb => ?_
  refine (triple_slotAllocCols hL (hS.toNat_latent ▸ hS.latent) hm).seq (zero_add _).ge
    fun kva => ?_
  refine (triple_bufAllocCols hL (Nat.lt_of_add_right_lt hS.latent) hm).seq (zero_add _).ge
    fun ckv => ?_
  refine (triple_slotAllocCols hL (hS.toNat_keyValue ▸ hS.keyValue) hm).seq (zero_add _).ge
    fun kvb => ?_
  refine (triple_bufAllocCols hL (hS.toNat_context ▸ hS.context) hm).seq (zero_add _).ge
    fun ctx => ?_
  refine (triple_slotAllocCols hL hS.embd hm).seq (zero_add _).ge fun ao => ?_
  refine (triple_bufAllocCols hL hS.embd hm).seq (zero_add _).ge fun x2 => ?_
  refine (triple_bufAllocCols hL hS.embd hm).seq (zero_add _).ge fun xf => ?_
  rw [hS.toNat_query, hS.toNat_latent, hS.toNat_keyValue, hS.toNat_context]
  set Ctx := ∑ p ∈ Finset.range m, blank (ctx.col p) (S.D.hp.nHead.toNat * S.D.hp.dv.toNat) S.μ
  set Ao := ∑ p ∈ Finset.range m, idle [] (ao.col p) (List.replicate S.D.hp.nEmbd.toNat 0)
  set X2 := ∑ p ∈ Finset.range m, blank (x2.col p) S.D.hp.nEmbd.toNat S.μ
  set Xf := ∑ p ∈ Finset.range m, blank (xf.col p) S.D.hp.nEmbd.toNat S.μ
  refine .pre (le_of_eq ?_) (triple_projections h hl (K := Kv + Ctx + Ao + X2 + Xf) hx
    fun sq skva skvb => ?_)
  · abel
  rw [← hX]
  refine (triple_heads_projected h hl hkv).seq (K := X + (Ao + X2 + Xf)) (le_of_eq (by abel))
    fun cq8 => ?_
  set rows := Pass.appended S.N S.D m nPast l.toNat x kv
  set C := ∑ p ∈ Finset.range m,
    ready [cq8 p] (ctx.col p) (Pass.ctx S.N S.D l rows (nPast + p) (x p))
  have hctx (p : ℕ) (_ : p < m) : (Pass.ctx S.N S.D l rows (nPast + p) (x p)).length =
      (S.D.hp.nHead * S.D.hp.dv).toNat :=
    (Pass.length_attnHeads ..).trans hS.toNat_context.symm
  have hao : (S.D.hp.shape (fs l) .attnOutput).1.toNat = S.D.hp.nEmbd.toNat := rfl
  refine triple_layerDot h hl (mem_layerTensors (by decide)) hao hctx
    (fun p _ => List.Subset.refl [cq8 p]) (K := kvStored S.D l rows + (X + (X2 + Xf)))
    (le_of_eq (by abel)) fun so => ?_
  have hso (p : ℕ) (_ : p < m) := (length_layerDot h hl (mem_layerTensors (by decide))
    (Pass.weight S.D (.blk l .attnOutput)).p
    (Pass.ctx S.N S.D l rows (nPast + p) (x p))).trans hao
  have hready : ∑ p ∈ Finset.range m, idle [so p] (ao.col p) _ ≤
      ∑ p ∈ Finset.range m, ready [so p] (ao.col p) (Pass.dot S.N (Pass.weight S.D (.blk l .attnOutput))
        (Pass.weight S.D (.blk l .attnOutput)).p (Pass.ctx S.N S.D l rows (nPast + p) (x p))) :=
    Finset.sum_le_sum fun p _ => idle_le_ready
  refine .pre (add_le_add_left (add_le_add_right hready _) _) ?_
  have hG : S.model.Triple _ (stageG S.D l m r ao x2 xf so) _ := triple_stageG h hx hso
  rw [Finset.sum_add_distrib, Finset.sum_add_distrib, Finset.sum_add_distrib] at hG
  refine hG.seq (K := kvStored S.D l rows + C) (le_of_eq (by abel)) fun g => .pure ?_
  simp only [ffnFinds, attended_eq]
  rw [add_comm]
  exact add_le_add_left (add_le_left _ _) _

end FastLlm
