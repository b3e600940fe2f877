import Mathlib
import FastLlm.Model.ActLayout
import FastLlm.Model.PassFlow
import FastLlm.Model.Tiles

/-!
# The dots of a pass

A dot is cut into tiles of rows.  Each tile adds to its part of a zeroed column; together the tiles
leave the product, and they are over once the id of the dot is.

## Main definitions

* `dotOuts` — what a tile leaves of a column.
* `triple_addTiles` — the tiles of a dot.
* `triple_addDot`, `triple_addDotIdx`, `triple_stageDot` — the dots of the builder.
-/

namespace FastLlm
open Assn Build
open TaskModel (Triple)
open MemProg (Bounded)

/-! ## One output -/

section
variable (E : FloatOps)

/-- The addition of one row and one column. -/
def dotOut (f : Fmt) (w : BytePtr) (cols : ℕ) (x y : Loc) : Exec Unit := do
  let row ← readBytes w (rowBytes f cols)
  let xs ← readWords x cols
  let v ← MemProg.get y
  MemProg.put y (E.add v (E.dotRow f row xs))

theorem execStreamDot_eq (t : TaskParams) (w : BytePtr) :
    execStreamDot E t w = MemProg.forRange t.rows fun r => MemProg.forRange t.columns fun p =>
      dotOut E t.fmt (w.add (r * rowBytes t.fmt t.cols)) t.cols (t.inCol p) (t.out p r) := rfl

variable {w : BytePtr} {n : ℕ} {μ μ' : Loc → Word} {R : Set Loc}

theorem bounded_readBytes (h : ∀ l : Loc, l.obj = w.obj → l ∈ R) :
    (readBytes w n).Bounded R ∅ := by
  induction n with
  | zero => exact .pure []
  | succ n ih =>
    refine (ih.bind fun bs => (Bounded.get (V := Word) (h ⟨w.obj, (w.byte + n) / 4⟩ rfl)).bind
      fun v => .pure (bs ++ [wordByte v (w.byte + n)])).mono subset_rfl ?_
    simp

@[simp] theorem final_readBytes : (readBytes w n).final μ = μ := by
  induction n with
  | zero => rfl
  | succ n ih =>
    change ((readBytes w n).bind _).final μ = μ
    rw [MemProg.final_bind, ih]
    rfl

/-- The bytes of an allocation. -/
theorem val_readBytes_congr (h : ∀ l : Loc, l.obj = w.obj → μ' l = μ l) :
    (readBytes w n).val μ' = (readBytes w n).val μ := by
  induction n with
  | zero => rfl
  | succ n ih =>
    change ((readBytes w n).bind _).val μ' = ((readBytes w n).bind _).val μ
    rw [MemProg.val_bind, MemProg.val_bind, ih, final_readBytes, final_readBytes]
    change _ ++ [wordByte (μ' _) _] = _ ++ [wordByte (μ _) _]
    rw [h _ rfl]

variable {f : Fmt} {cols : ℕ} {x y : Loc}

theorem bounded_dotOut (hw : ∀ l : Loc, l.obj = w.obj → l ∈ R) (hx : x.span cols ⊆ R)
    (hy : y ∈ R) : (dotOut E f w cols x y).Bounded R {y} := by
  refine ((bounded_readBytes hw).bind fun row =>
    (bounded_readWords fun i hi => hx ⟨i, hi, rfl⟩).bind fun xs =>
      (Bounded.get (V := Word) hy).bind fun v => .put y _).mono subset_rfl ?_
  simp

theorem final_dotOut : (dotOut E f w cols x y).final μ y =
    E.add (μ y) (E.dotRow f ((readBytes w (rowBytes f cols)).val μ) (x.contents cols μ)) := by
  change (MemProg.bind (readBytes w _) fun row => MemProg.bind (readWords x cols) fun xs =>
    MemProg.bind (MemProg.get y) fun v => MemProg.put y _).final μ y = _
  simp

end

/-! ## A tile -/

variable {S : Setting}

/-- What a tile with the weights at `w` leaves of the column `old`. -/
def dotOuts (E : FloatOps) (μ : Loc → Word) (t : TaskParams) (w : BytePtr) (xs old : List Word) :
    List Word :=
  (List.range t.rows).map fun r => E.add (old.getD r 0) (E.dotRow t.fmt
    ((readBytes (w.add (r * rowBytes t.fmt t.cols)) (rowBytes t.fmt t.cols)).val μ) xs)

@[simp] theorem length_dotOuts {E : FloatOps} {μ : Loc → Word} {t : TaskParams} {w : BytePtr}
    {xs old : List Word} : (dotOuts E μ t w xs old).length = t.rows := by simp [dotOuts]

/-- **A tile** adds to every output the product of its row and its column. -/
theorem performs_streamDot {E : FloatOps} {pos : Loc} {μ : Loc → Word} {t : TaskParams}
    {w : BytePtr} {ds es : ℕ → List ℕ} {xs old : ℕ → List Word} (hw : w.obj = 0)
    (hxs : ∀ p < t.columns, (xs p).length = t.cols)
    (hold : ∀ p < t.columns, (old p).length = t.rows) :
    Performs (constAt pos) μ (execStreamDot E t w)
      (∑ p ∈ Finset.range t.columns, ready (ds p) (t.inCol p) (xs p))
      (∑ p ∈ Finset.range t.columns, idle (es p) (t.out p 0) (old p)) fun id =>
        ∑ p ∈ Finset.range t.columns, idle [id] (t.out p 0) (dotOuts E μ t w (xs p) (old p)) := by
  intro F A B hF hinit hK hheap hAB hP hX
  obtain ⟨hread, -, hA⟩ := (holds_sum fun p F A => eq_span_of_ready).mp hP
  obtain ⟨hown, hdisj, hB⟩ := (holds_sum fun p F A => eq_span_of_idle).mp hX
  set n := t.columns
  have hout (p r : ℕ) : t.out p r = (t.out p 0).add r := (Loc.add_add _ _ _).symm
  have hspan {p r : ℕ} (hp : p < n) (hr : r < t.rows) :
      t.out p r ∈ (t.out p 0).span (old p).length := by
    rw [hout p r]
    exact Loc.add_mem_span (hr.trans_eq (hold p hp).symm)
  have hmem {p r : ℕ} (hp : p < n) (hr : r < t.rows) : t.out p r ∈ B := hB ▸ ⟨p, hp, hspan hp hr⟩
  have hcol {p : ℕ} (hp : p < n) : (t.inCol p).span t.cols ⊆ A := by
    rw [hA, ← hxs p hp]
    exact fun l hl => ⟨p, hp, hl⟩
  have hconst {l : Loc} (hl : l.obj = 0) : l ∈ F.const := hK ▸ .inl hl
  -- rounds read the weights, the columns and their own outputs
  let given : Set Loc := {l | l.obj = 0} ∪ A
  have hgiven {l : Loc} (hl : l ∈ B) : l ∉ given := by
    rintro (h | h)
    · exact Set.disjoint_left.mp hF.apart (hheap (.inr hl)) (hconst h)
    · exact Set.disjoint_left.mp hAB h hl
  have hcell (r : ℕ) {p : ℕ} (hp : p < n) :
      (dotOut E t.fmt (w.add (r * rowBytes t.fmt t.cols)) t.cols (t.inCol p) (t.out p r)).Bounded
        (given ∪ {t.out p r}) {t.out p r} :=
    bounded_dotOut E (fun l hl => .inl (.inl (hl.trans hw)))
      ((hcol hp).trans (Set.subset_union_right.trans Set.subset_union_left)) (.inr rfl)
  have hall : (execStreamDot E t w).Bounded (given ∪ B)
      {l | ∃ r < t.rows, l ∈ {l | ∃ p < n, l ∈ ({t.out p r} : Set Loc)}} := by
    rw [execStreamDot_eq]
    refine .forRange fun r hr => .forRange fun p hp => (hcell r hp).mono ?_ rfl
    exact Set.union_subset_union_right _ (Set.singleton_subset_iff.mpr (hmem hp hr))
  have hfinal {p r : ℕ} (hp : p < n) (hr : r < t.rows) :
      (execStreamDot E t w).final F.after (t.out p r) =
        (dotOuts E μ t w (xs p) (old p)).getD r 0 := by
    have hx : (t.inCol p).contents t.cols F.after = xs p := by
      rw [← hxs p hp]
      exact Loc.contents_eq fun i hi => ((hread p hp).2 _ (Loc.add_mem_span hi)).1.trans
        Loc.fill_add
    have hy : F.after (t.out p r) = (old p).getD r 0 := by
      rw [((hown p hp).2 _ (hspan hp hr)).1, hout p r, Loc.fill_add]
    have hrow : (readBytes (w.add (r * rowBytes t.fmt t.cols)) (rowBytes t.fmt t.cols)).val
        F.after = (readBytes (w.add (r * rowBytes t.fmt t.cols)) (rowBytes t.fmt t.cols)).val μ :=
      val_readBytes_congr fun l hl =>
        (hF.after_const (hconst (hl.trans hw))).trans (congrFun hinit l)
    rw [execStreamDot_eq, MemProg.final_forRange₂_apart (fun r _ p hp => hcell r hp) ?_ hr hp rfl,
      final_dotOut, hx, hy, hrow]
    · simp [dotOuts, hr]
    · intro r hr p hp k hk q hq hne
      rw [Set.disjoint_singleton_left, Set.union_assoc, Set.union_self]
      rintro (h | h)
      · exact hgiven (hmem hp hr) h
      · have h : t.out p r = t.out q k := h
        by_cases hpq : p = q
        · subst hpq
          have hoff := congrArg Loc.off h
          exact hne ⟨by simpa [TaskParams.out] using hoff, rfl⟩
        · exact Set.disjoint_left.mp (hdisj p hp q hq hpq) (hspan hp hr) (h ▸ hspan hq hk)
  refine ⟨(hall.reads _).trans ?_, ((hall.writes _).le).trans ?_, fun id => ⟨B, subset_rfl, ?_⟩⟩
  · rintro l ((hl | hl) | hl)
    · exact .inr (.inl hl)
    · exact .inl (.inl hl)
    · exact .inl (.inr hl)
  · rintro _ ⟨r, hr, p, hp, rfl⟩
    exact hmem hp hr
  · rw [hB]
    refine Takes.sum (fun p hp => ?_) hdisj
    rw [idle, length_dotOuts, hold p hp]
    refine takes_owned ?_
    rintro _ ⟨r, hr, rfl⟩
    rw [Loc.fill_add, ← hout p r, hfinal hp hr]

/-! ## The tiles of a dot -/

variable {rows rowsz : UInt32} {deps : List ℕ} {tile : UInt32 → UInt32 → TaskParams} {m : ℕ}
  {P : Assn Loc Word} {y : ℕ → Loc} {es : ℕ → List ℕ} {old out : ℕ → List Word}

/-- The tasks `deps` are over once `ds` are, when there is a row. -/
def pastRows (rows : ℕ) (deps ds : List ℕ) : Assn Loc Word := if rows = 0 then 0 else past deps ds

/-- A column up to row `r` is done, the rest is not. -/
def partDone (es ds : List ℕ) (y : Loc) (old out : List Word) (r : ℕ) : Assn Loc Word :=
  idle ds y (out.take r) + idle es (y.add r) (old.drop r)

theorem partDone_zero {es ds : List ℕ} {y : Loc} {old out : List Word} :
    partDone es ds y old out 0 = idle es y old := by simp [partDone, Loc.add]

theorem partDone_of_le {es ds : List ℕ} {y : Loc} {old out : List Word} {r : ℕ}
    (hold : old.length ≤ r) (hout : out.length ≤ r) :
    partDone es ds y old out r = idle ds y out := by
  rw [partDone, List.take_of_length_le hout, List.drop_of_length_le hold, idle_nil, add_zero]

theorem idle_take_drop {ds : List ℕ} {x : Loc} {v : List Word} (k : ℕ) :
    idle ds x v = idle ds x (v.take k) + idle ds (x.add k) (v.drop k) := by
  by_cases hk : k ≤ v.length
  · conv_lhs => rw [← List.take_append_drop k v, idle_append, List.length_take_of_le hk]
  · rw [List.take_of_length_le (by omega), List.drop_of_length_le (by omega), idle_nil, add_zero]

/-- The next rows of a column. -/
theorem partDone_next {es ds : List ℕ} {y : Loc} {old out : List Word} {r k : ℕ} :
    partDone es ds y old out r = idle es (y.add r) ((old.drop r).take k) +
      (idle ds y (out.take r) + idle es (y.add (r + k)) (old.drop (r + k))) := by
  rw [partDone, idle_take_drop (v := old.drop r) k, Loc.add_add, List.drop_drop]
  abel

theorem partDone_add {es ds : List ℕ} {y : Loc} {old out : List Word} {r k : ℕ}
    (hr : r ≤ out.length) :
    idle ds (y.add r) ((out.drop r).take k) +
        (idle ds y (out.take r) + idle es (y.add (r + k)) (old.drop (r + k))) =
      partDone es ds y old out (r + k) := by
  rw [partDone, List.take_add, idle_append, List.length_take_of_le hr]
  abel

/-- What the tiles of `r` rows from `r0` on take and leave. -/
def TileDoes (S : Setting) (t : TaskParams) (P : Assn Loc Word) (m : ℕ) (y : ℕ → Loc)
    (es : ℕ → List ℕ) (old out : ℕ → List Word) (r0 r : ℕ) : Prop :=
  Performs (constAt S.D.pos) S.μ (execTaskScalar S.N.E t) P
    (∑ p ∈ Finset.range m, idle (es p) ((y p).add r0) (((old p).drop r0).take r)) fun id =>
      ∑ p ∈ Finset.range m, idle [id] ((y p).add r0) (((out p).drop r0).take r)

theorem pastRows_le {n k : ℕ} {ds ds' : List ℕ} (hn : n ≤ k) (hds : ds' ⊆ ds) :
    pastRows k deps ds' ≤ pastRows n deps ds := by
  rw [pastRows, pastRows]
  split_ifs with hk hn0
  · exact le_rfl
  · omega
  · exact le_zero _
  · exact past_le (List.Subset.refl _) hds

/-- One tile, and the rows behind it. -/
theorem triple_tile {t : TaskParams} {r0 k : ℕ} {tiles : List ℕ} {f : ℕ → Build (List ℕ)}
    {Q : List ℕ → Assn Loc Word} (hP : P.Reads deps fun _ => P) (hes : ∀ p < m, es p ⊆ deps)
    (hout : ∀ p < m, r0 ≤ (out p).length) (htile : TileDoes S t P m y es old out r0 k)
    (hf : ∀ id, S.model.Triple (P + (pastRows (r0 + k) deps (tiles ++ [id]) +
      ∑ p ∈ Finset.range m, partDone (es p) (tiles ++ [id]) (y p) (old p) (out p) (r0 + k)))
        (f id) Q) :
    S.model.Triple (P + (pastRows r0 deps tiles +
        ∑ p ∈ Finset.range m, partDone (es p) tiles (y p) (old p) (out p) r0))
      (addWith t deps >>= f) Q := by
  have hread : (P + 0).Reads deps fun id => P + past deps [id] :=
    hP.add (reads_past (List.Subset.refl _))
  have hown : (∑ p ∈ Finset.range m, idle (es p) ((y p).add r0)
      (((old p).drop r0).take k)).Owns deps := Owns.sum fun p hp => owns_idle (hes p hp)
  rw [TileDoes, ← add_zero P] at htile
  refine (triple_addWith hread hown htile).seq (K := ∑ p ∈ Finset.range m, (idle tiles (y p)
    ((out p).take r0) + idle (es p) ((y p).add (r0 + k)) ((old p).drop (r0 + k)))) ?_ fun id =>
      (hf id).pre ?_
  · simp only [partDone_next (k := k), Finset.sum_add_distrib]
    calc P + (pastRows r0 deps tiles + _) ≤ P + (0 + _) :=
          add_le_add_right (add_le_add_left (le_zero _) _) _
      _ = _ := by abel
  · rw [add_assoc, add_assoc, ← Finset.sum_add_distrib]
    refine add_le_add_right (add_le_add ?_ (Finset.sum_le_sum fun p hp => ?_)) _
    · rw [pastRows]
      split_ifs
      · exact le_zero _
      · exact past_le (List.Subset.refl _) (List.subset_append_right _ _)
    · rw [← partDone_add (hout p (Finset.mem_range.mp hp))]
      exact add_le_add (idle_le (List.subset_append_right _ _))
        (add_le_add_left (idle_le (List.subset_append_left _ _)) _)

/-- The rounds of the tile loop from row `r0` on. -/
theorem triple_tileLoop (hP : P.Reads deps fun _ => P) (hes : ∀ p < m, es p ⊆ deps)
    (hold : ∀ p < m, (old p).length = rows.toNat) (hout : ∀ p < m, (out p).length = rows.toNat)
    (hwrap : NoWrap rows.toNat rowsz.toNat)
    (htile : ∀ r0 r : UInt32, r0.toNat + r.toNat ≤ rows.toNat →
      TileDoes S (tile r0 r) P m y es old out r0.toNat r.toNat)
    (fuel k : ℕ) (r0 : UInt32) (tiles : List ℕ) (hr0 : r0.toNat = k * rowsz.toNat) :
    S.model.Triple (P + (pastRows r0.toNat deps tiles +
        ∑ p ∈ Finset.range m, partDone (es p) tiles (y p) (old p) (out p) r0.toNat))
      (tileLoop tile rows rowsz deps fuel r0 tiles) fun tiles =>
        P + (pastRows rows.toNat deps tiles + ∑ p ∈ Finset.range m, idle tiles (y p) (out p)) := by
  induction fuel generalizing k r0 tiles with
  | zero => exact fun _ _ _ _ _ => trivial
  | succ fuel ih =>
    rw [tileLoop]
    by_cases hr : r0 < rows
    · rw [if_pos hr]
      have hlt : r0.toNat < rows.toNat := UInt32.lt_iff_toNat_lt.mp hr
      set r := if rows - r0 < rowsz then rows - r0 else rowsz with hrdef
      have hsub : (rows - r0).toNat = rows.toNat - r0.toNat :=
        UInt32.toNat_sub_of_le _ _ (UInt32.le_of_lt hr)
      have hrlen : r.toNat = min (rows.toNat - r0.toNat) rowsz.toNat := by
        rw [hrdef]
        split_ifs with hlast
        · rw [UInt32.lt_iff_toNat_lt, hsub] at hlast
          omega
        · rw [UInt32.lt_iff_toNat_lt, hsub] at hlast
          omega
      have hnext : (r0 + rowsz).toNat = r0.toNat + rowsz.toNat := by
        have := hwrap k (hr0 ▸ hlt)
        rw [Nat.succ_mul, ← hr0] at this
        rw [UInt32.toNat_add, Nat.mod_eq_of_lt this]
      have htake {l : List Word} (hl : l.length = rows.toNat) :
          (l.drop r0.toNat).take r.toNat = (l.drop r0.toNat).take rowsz.toNat := by
        rw [hrlen, ← List.length_drop.trans (congrArg (· - r0.toNat) hl), Nat.min_comm,
          ← List.take_eq_take_min]
      have hdoes := htile r0 r (by omega)
      rw [TileDoes, Finset.sum_congr rfl fun p hp => by rw [htake (hold p (Finset.mem_range.mp hp))],
        funext fun id => Finset.sum_congr rfl fun p hp => by
          rw [htake (hout p (Finset.mem_range.mp hp))]] at hdoes
      have hprog : (add (tile r0 r) >>= fun id => dependOn id deps >>= fun _ =>
          tileLoop tile rows rowsz deps fuel (r0 + rowsz) (tiles ++ [id])) =
            (addWith (tile r0 r) deps >>= fun id =>
              tileLoop tile rows rowsz deps fuel (r0 + rowsz) (tiles ++ [id])) := by
        simp only [addWith, bind_assoc, pure_bind]
      change S.model.Triple _ (add (tile r0 r) >>= fun id => dependOn id deps >>= fun _ =>
        tileLoop tile rows rowsz deps fuel (r0 + rowsz) (tiles ++ [id])) _
      rw [hprog]
      refine triple_tile hP hes (fun p hp => (hlt.trans_eq (hout p hp).symm).le) hdoes fun id => ?_
      rw [← hnext]
      exact ih (k + 1) _ _ (by rw [hnext, hr0, Nat.succ_mul])
    · rw [if_neg hr]
      have hle : rows.toNat ≤ r0.toNat := UInt32.le_iff_toNat_le.mp (UInt32.not_lt.mp hr)
      refine .pure (add_le_add_right (add_le_add (pastRows_le hle (List.Subset.refl _))
        (Finset.sum_le_sum fun p hp => ?_)) _)
      have hp := Finset.mem_range.mp hp
      rw [partDone_of_le ((hold p hp).trans_le hle) ((hout p hp).trans_le hle)]

/-- **The tiles of a dot**, and the id that covers them. -/
theorem triple_addTiles (hP : P.Reads deps fun _ => P) (hes : ∀ p < m, es p ⊆ deps)
    (hold : ∀ p < m, (old p).length = rows.toNat) (hout : ∀ p < m, (out p).length = rows.toNat)
    (hwrap : NoWrap rows.toNat rowsz.toNat)
    (htile : ∀ r0 r : UInt32, r0.toNat + r.toNat ≤ rows.toNat →
      TileDoes S (tile r0 r) P m y es old out r0.toNat r.toNat) :
    S.model.Triple (P + ∑ p ∈ Finset.range m, idle (es p) (y p) (old p))
      (addTiles tile rows rowsz deps) fun id =>
        P + (pastRows rows.toNat deps [id] + ∑ p ∈ Finset.range m, idle [id] (y p) (out p)) := by
  have hloop := triple_tileLoop hP hes hold hout hwrap htile (2 ^ 32) 0 0 [] (by simp)
  refine (hloop.pre (le_of_eq ?_)).bind fun tiles => ?_
  · simp [pastRows, partDone_zero]
  · have hsig : S.model.Triple (P + (pastRows rows.toNat deps tiles +
        ∑ p ∈ Finset.range m, idle tiles (y p) (out p))) (fanIn tiles) fun id =>
          P + (pastRows rows.toNat deps [id] + ∑ p ∈ Finset.range m, idle [id] (y p) (out p)) := by
      have hpast : (pastRows rows.toNat deps tiles).Reads tiles
          fun id => pastRows rows.toNat deps [id] := by
        unfold pastRows
        split_ifs
        · exact reads_zero
        · exact reads_past_self
      exact (triple_fanIn (hpast.add (Reads.sum fun p _ => reads_idle_self (List.Subset.refl _)))).last
        (add_comm _ _).le fun id => (add_comm _ _).le
    rcases tiles with - | ⟨t, - | ⟨t', rest⟩⟩
    · exact hsig
    · exact .pure le_rfl
    · exact hsig

/-! ## Dots -/

/-- A matrix in the model file, cut into tiles of `rowsz` rows. -/
structure WTensor.Cut (w : WTensor) (rowsz : UInt32) : Prop where
  obj : w.p.obj = 0
  loaded : w.Loaded
  bytes : w.rows.toNat * w.rowBytes.toNat < 2 ^ 64
  noWrap : NoWrap w.rows.toNat rowsz.toNat

/-- Where the matrix of a dot lies when the slot of the expert holds `id`. -/
def DotArgs.base (a : DotArgs) (id : Word) : BytePtr :=
  match a.idSlot with
  | none => a.w.p
  | some _ => a.w.p.add (id.toNat * a.w.estride.toNat)

/-- The slot of the expert, when there is one, holds `id`. -/
def DotArgs.slotHas (a : DotArgs) (ds : List ℕ) (id : Word) : Assn Loc Word :=
  match a.idSlot with
  | none => 0
  | some s => ready ds s [id]

theorem Performs.get_ready {K : Set Loc} {μ : Loc → Word} {X : Assn Loc Word} {ds : List ℕ}
    {s : Loc} {id : Word} {k : Word → Exec Unit} {Y : ℕ → Assn Loc Word}
    (h : Performs K μ (k id) P X Y) :
    Performs K μ (.bind (.get s) k) (ready ds s [id] + P) X Y := by
  have hs : ready ds s [id] = filled ds {s} (s.fill [id]) := by
    rw [ready]
    congr
    ext l
    simp [Loc.span]
  rw [hs]
  refine Performs.get_filled ?_
  simpa [Loc.fill] using h

section
variable {a : DotArgs} {t : TaskParams} {r0 r : ℕ} {id : Word} {ds : ℕ → List ℕ} {di : List ℕ}
  {v : ℕ → List Word}

/-- A tile leaves its rows of the product. -/
theorem dotOuts_rows (hL : S.Laid) (ht : IsTile a t ⟨r0, r, 0, m⟩) (hw : a.w.Loaded)
    {base : BytePtr} {x : List Word} (hobj : base.obj = 0) (hx : x.length = a.w.cols.toNat)
    (hr : r0 + r ≤ a.w.rows.toNat) :
    dotOuts S.N.E S.μ t (base.add (r0 * a.w.rowBytes.toNat)) x
        (((List.replicate a.w.rows.toNat 0).drop r0).take r) =
      ((Pass.dot S.N a.w base x).drop r0).take r := by
  have hlen : (Pass.dot S.N a.w base x).length = a.w.rows.toNat := by simp [Pass.dot]
  apply List.ext_getElem
  · rw [length_dotOuts, ht.rows, List.length_take, List.length_drop, hlen]
    simp only
    omega
  · intro i hi hi'
    have hcol : (readWords ⟨0, 0⟩ a.w.cols.toNat).val (bufs [x]) = x := by
      rw [val_readWords, ← hx]
      exact Loc.contents_eq fun i _ => by simp [bufs, Loc.add]
    have hrow (n : ℕ) : (readBytes (base.add ((r0 + i) * a.w.rowBytes.toNat)) n).val S.N.file =
        (readBytes (base.add ((r0 + i) * a.w.rowBytes.toNat)) n).val S.μ :=
      val_readBytes_congr fun l hl => (hL.file l (hl.trans hobj)).symm
    have hbase : (base.add (r0 * a.w.rowBytes.toNat)).add (i * a.w.rowBytes.toNat) =
        base.add ((r0 + i) * a.w.rowBytes.toNat) := by rw [BytePtr.add_add, Nat.add_mul]
    simp only [dotOuts, Pass.dot, List.getElem_map, List.getElem_take, List.getElem_drop,
      List.getElem_range, hcol, hrow, ht.fmt, ht.cols, ← hw.rowBytes_eq, hbase]
    congr 1
    simp

/-- **A tile of a dot.** -/
theorem tileDoes_of_isTile (hL : S.Laid) (ht : IsTile a t ⟨r0, r, 0, m⟩) (hw : a.w.Loaded)
    (hobj : a.w.p.obj = 0) (hr : r0 + r ≤ a.w.rows.toNat)
    (hv : ∀ p < m, (v p).length = a.w.cols.toNat) :
    TileDoes S t (a.slotHas di id + ∑ p ∈ Finset.range m, ready (ds p) (a.x.col p) (v p)) m a.y.col
      es (fun _ => List.replicate a.w.rows.toNat 0)
      (fun p => Pass.dot S.N a.w (a.base id) (v p)) r0 r := by
  have hcolumns : t.columns = m := ht.columns
  have hplace {p : ℕ} (hp : p < m) : t.out p 0 = (a.y.col p).add r0 := by
    simpa using ht.out p hp 0
  have hbase : (a.base id).obj = 0 := by
    rw [DotArgs.base]
    cases a.idSlot <;> exact hobj
  -- the weights at the rows of the tile
  have hdot : Performs (constAt S.D.pos) S.μ
      (execStreamDot S.N.E t ((a.base id).add (r0 * a.w.rowBytes.toNat)))
      (∑ p ∈ Finset.range m, ready (ds p) (a.x.col p) (v p))
      (∑ p ∈ Finset.range m, idle (es p) ((a.y.col p).add r0)
        (((List.replicate a.w.rows.toNat 0).drop r0).take r)) fun id' =>
      ∑ p ∈ Finset.range m, idle [id'] ((a.y.col p).add r0)
        (((Pass.dot S.N a.w (a.base id) (v p)).drop r0).take r) := by
    have h := @performs_streamDot S.N.E S.D.pos S.μ t ((a.base id).add (r0 * a.w.rowBytes.toNat))
      ds es v (fun _ => ((List.replicate a.w.rows.toNat 0).drop r0).take r) hbase
      (fun p hp => (hv p (hp.trans_eq hcolumns)).trans ht.cols.symm)
      (fun p _ => by simp [ht.rows]; omega)
    rw [hcolumns] at h
    convert h using 4 with p hp p hp id' p hp
    · simpa using (ht.inCol p (Finset.mem_range.mp hp)).symm
    · exact (hplace (Finset.mem_range.mp hp)).symm
    · exact (hplace (Finset.mem_range.mp hp)).symm
    · exact (dotOuts_rows hL ht hw hbase (hv p (Finset.mem_range.mp hp)) hr).symm
  rw [TileDoes, DotArgs.slotHas]
  cases hidx : a.idSlot with
  | none =>
    have hexec : execTaskScalar S.N.E t = execStreamDot S.N.E t t.w := by
      rw [execTaskScalar, ht.kind, hidx]
      rfl
    have hweights : t.w = (a.base id).add (r0 * a.w.rowBytes.toNat) := by
      rw [ht.w, DotArgs.base, hidx]
    rw [hexec, hweights, zero_add]
    exact hdot
  | some s =>
    have hexec : execTaskScalar S.N.E t = MemProg.bind (.get s) fun u =>
        execStreamDot S.N.E t (t.w.add (u.toNat * t.aux2)) := by
      rw [execTaskScalar, ht.kind, idxW, ht.aux, hidx]
      rfl
    have hweights : t.w.add (id.toNat * t.aux2) = (a.base id).add (r0 * a.w.rowBytes.toNat) := by
      rw [ht.w, ht.aux2, DotArgs.base, hidx]
      simp only [Option.isSome_some, if_true, BytePtr.add_add]
      rw [Nat.add_comm]
    rw [hexec]
    refine Performs.get_ready ?_
    rw [hweights]
    exact hdot

end

section
variable {o : BuildOpts} {w : WTensor} {x y : Loc} {v : List Word} {dx dy di ds : List ℕ} {id : Word}

theorem reads_slotHas {a : DotArgs} (h : di ⊆ ds) :
    (a.slotHas di id).Reads ds fun _ => a.slotHas di id := by
  rw [DotArgs.slotHas]
  cases a.idSlot with
  | none => exact reads_zero
  | some s => exact reads_ready h

/-- **A dot of one column**, of the expert in the slot when there is one. -/
theorem triple_addDot (hL : S.Laid) {idSlot : Option Loc} (hw : w.Cut rowsz)
    (hv : v.length = w.cols.toNat) (hdx : dx ⊆ deps) (hdy : dy ⊆ deps) (hdi : di ⊆ deps) :
    S.model.Triple
      (DotArgs.slotHas ⟨w, ⟨x, 0⟩, ⟨y, 0⟩, idSlot⟩ di id + ready dx x v +
        idle dy y (List.replicate w.rows.toNat 0))
      (addDot o w x y deps rowsz idSlot) fun i =>
        DotArgs.slotHas ⟨w, ⟨x, 0⟩, ⟨y, 0⟩, idSlot⟩ di id + ready dx x v +
          (pastRows w.rows.toNat deps [i] +
            idle [i] y (Pass.dot S.N w (DotArgs.base ⟨w, ⟨x, 0⟩, ⟨y, 0⟩, idSlot⟩ id) v)) := by
  let a : DotArgs := ⟨w, ⟨x, 0⟩, ⟨y, 0⟩, idSlot⟩
  have hx : a.x.col 0 = x := Cols.col_zero _
  have hy : a.y.col 0 = y := Cols.col_zero _
  have hP : (a.slotHas di id + ready dx x v).Reads deps fun _ => a.slotHas di id + ready dx x v :=
    (reads_slotHas hdi).add (reads_ready hdx)
  have h := @triple_addTiles S w.rows rowsz deps (dotTile o w x y idSlot) 1 _ a.y.col (fun _ => dy)
    (fun _ => List.replicate w.rows.toNat 0) (fun _ => Pass.dot S.N w (a.base id) v) hP (fun _ _ => hdy) (fun _ _ => List.length_replicate)
    (fun _ _ => by simp [Pass.dot]) hw.noWrap fun r0 r hr => by
      have htile := isTile_dotTile (a := a) o hw.bytes 0 r0 r hr
      rw [hx, hy] at htile
      have hdoes := @tileDoes_of_isTile S _ (fun _ => dy) _ _ _ _ id (fun _ => dx) di (fun _ => v)
        hL htile hw.loaded hw.obj hr fun _ _ => hv
      simpa only [Finset.sum_range_one, hx] using hdoes
  simp only [Finset.sum_range_one, hy] at h
  exact h

/-- A dot of one column with no expert. -/
theorem triple_addDot_plain (hL : S.Laid) (hw : w.Cut rowsz) (hv : v.length = w.cols.toNat)
    (hdx : dx ⊆ deps) (hdy : dy ⊆ deps) :
    S.model.Triple (ready dx x v + idle dy y (List.replicate w.rows.toNat 0))
      (addDot o w x y deps rowsz none) fun i =>
        ready dx x v + idle [i] y (Pass.dot S.N w w.p v) := by
  have h := @triple_addDot S rowsz deps o w x y v dx dy [] 0 hL none hw hv hdx hdy
    (List.nil_subset deps)
  simp only [DotArgs.slotHas, DotArgs.base, zero_add] at h
  exact h.post fun i => add_le_add_right (add_le_right _ _) _

end

section
variable {o : BuildOpts} {w : WTensor} {x y : Cols} {v : ℕ → List Word} {dx dy : ℕ → List ℕ}

/-- **A dot over all columns.** -/
theorem triple_addDotM (hL : S.Laid) (hm : m ≠ 0) (hw : w.Cut rowsz)
    (hv : ∀ p < m, (v p).length = w.cols.toNat) (hdx : ∀ p < m, dx p ⊆ deps)
    (hdy : ∀ p < m, dy p ⊆ deps) :
    S.model.Triple (∑ p ∈ Finset.range m, ready (dx p) (x.col p) (v p) +
        ∑ p ∈ Finset.range m, idle (dy p) (y.col p) (List.replicate w.rows.toNat 0))
      (addDotM o w x y m deps rowsz) fun i =>
        ∑ p ∈ Finset.range m, ready (dx p) (x.col p) (v p) +
          ∑ p ∈ Finset.range m, idle [i] (y.col p) (Pass.dot S.N w w.p (v p)) := by
  rw [addDotM]
  split_ifs with hoff hone
  · -- one dot after the other
    rw [← Finset.sum_add_distrib, ← add_zero (Finset.sum _ _)]
    refine Triple.mapM_bind (Q := fun p i => ready (dx p) (x.col p) (v p) +
      idle [i] (y.col p) (Pass.dot S.N w w.p (v p))) (fun p hp => ?_) fun sigs hsigs => ?_
    · simpa only [add_zero] using
        triple_addDot_plain (o := o) hL hw (hv p hp) (hdx p hp) (hdy p hp)
    · rw [add_zero, Finset.sum_add_distrib]
      refine (triple_fanIn (Reads.sum fun p hp => reads_idle_self ?_)).last (add_comm _ _).le
        fun i => (add_comm _ _).le
      rw [List.getD_eq_getElem _ _ (hp.trans_eq hsigs.symm)]
      simp
  · subst hone
    simp only [Finset.sum_range_one, Cols.col_zero]
    exact triple_addDot_plain hL hw (hv 0 Nat.one_pos) (hdx 0 Nat.one_pos) (hdy 0 Nat.one_pos)
  · let a : DotArgs := ⟨w, x, y, none⟩
    have hread : (∑ p ∈ Finset.range m, ready (dx p) (x.col p) (v p)).Reads deps
        fun _ => ∑ p ∈ Finset.range m, ready (dx p) (x.col p) (v p) :=
      Reads.sum fun p hp => reads_ready (hdx p hp)
    have h := @triple_addTiles S w.rows rowsz deps (dotTileM o w x y m) m _ y.col dy
      (fun _ => List.replicate w.rows.toNat 0) (fun p => Pass.dot S.N w w.p (v p)) hread hdy
      (fun _ _ => List.length_replicate) (fun _ _ => by simp [Pass.dot]) hw.noWrap
      fun r0 r hr => by
        have hdoes := @tileDoes_of_isTile S _ dy _ _ _ _ 0 dx [] v hL
          (isTile_dotTileM (a := a) o rfl hw.bytes hm r0 r hr) hw.loaded hw.obj hr hv
        rwa [DotArgs.slotHas, zero_add] at hdoes
    exact h.post fun i => add_le_add_right (add_le_right _ _) _

/-- **A stage**: the result for a position covers its column. -/
theorem triple_stageDot (hL : S.Laid) (hw : w.Cut rowsz) {pdeps : ℕ → ℕ}
    (hv : ∀ p < m, (v p).length = w.cols.toNat) (hdx : ∀ p < m, dx p ⊆ [pdeps p])
    (hdy : ∀ p < m, dy p ⊆ [pdeps p]) :
    S.model.Triple (∑ p ∈ Finset.range m, ready (dx p) (x.col p) (v p) +
        ∑ p ∈ Finset.range m, idle (dy p) (y.col p) (List.replicate w.rows.toNat 0))
      (stageDot o w x y m pdeps rowsz) fun r =>
        ∑ p ∈ Finset.range m, ready (dx p) (x.col p) (v p) +
          ∑ p ∈ Finset.range m, idle [r p] (y.col p) (Pass.dot S.N w w.p (v p)) := by
  rw [stageDot]
  split_ifs with hall
  · have hmem {p : ℕ} (hp : p < m) : [pdeps p] ⊆ (List.range m).map pdeps := by
      simpa using ⟨p, hp, rfl⟩
    exact (triple_addDotM hL (by omega) hw hv
      (fun p hp => List.Subset.trans (hdx p hp) (hmem hp))
      fun p hp => List.Subset.trans (hdy p hp) (hmem hp)).bind fun _ => .pure le_rfl
  · rw [← Finset.sum_add_distrib, ← add_zero (Finset.sum _ _)]
    simp only [← Finset.sum_add_distrib]
    refine (triple_positions (K := 0) (Q := fun p i => ready (dx p) (x.col p) (v p) +
      idle [i] (y.col p) (Pass.dot S.N w w.p (v p))) fun p hp => ?_).post fun r => (add_zero _).le
    simpa only [add_zero] using triple_addDot_plain hL hw (hv p hp) (hdx p hp) (hdy p hp)

end
end FastLlm
