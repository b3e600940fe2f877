import FastLlm.Model.DepEdge
import FastLlm.Model.Stage
import FastLlm.Runtime.CpuExec

/-!
# The tiles of a dot

`add_dot`, `add_dot_m` and `stage_dot` cut a matrix into tiles of `rowsz` rows, of one column or of
all.  Whatever the size of a tile and the mode, the tiles are a partition of the rows and columns,
wired behind their producers and before the id returned, and executing them in any order is the
addition of one value to each output (`dots_covered`).

The row counter has 32 bits.  Where the last of the tiles would end at `2 ^ 32` rows or more it
starts over, and rows are taken twice (`rows_taken_twice`).

## Main definitions

* `NoWrap` — the row counter does not wrap.
* `DotArgs`, `Block`, `IsTile` — a dot, a block of its rows and columns, and the tile of a block.
* `Covered` — what a dot leaves in the graph.
* `dotAll` — the additions of a dot.
-/

namespace FastLlm

open Build

/-- The row counter of the tile loop stays below `2 ^ 32`. -/
def NoWrap (rows rowsz : ℕ) : Prop := ∀ k, k * rowsz < rows → (k + 1) * rowsz < 2 ^ 32

/-- What a dot is taken of. -/
structure DotArgs where
  w : WTensor
  x : Cols
  y : Cols
  idSlot : Option Loc := none

/-- `rows` rows from `r0` on, in `n` columns from `p0` on. -/
structure Block where
  r0 : ℕ
  rows : ℕ
  p0 : ℕ
  n : ℕ
  deriving DecidableEq

namespace Block

def InCols (b : Block) (p : ℕ) : Prop := b.p0 ≤ p ∧ p < b.p0 + b.n

def InRows (b : Block) (r : ℕ) : Prop := b.r0 ≤ r ∧ r < b.r0 + b.rows

instance (b : Block) (p : ℕ) : Decidable (b.InCols p) := by unfold InCols; infer_instance

instance (b : Block) (r : ℕ) : Decidable (b.InRows r) := by unfold InRows; infer_instance

end Block

/-- The task addresses the weights, the activations and the outputs of the block. -/
structure IsTile (a : DotArgs) (t : TaskParams) (b : Block) : Prop where
  kind : t.kind = if a.idSlot.isSome then .STREAM_DOT_IDX else .STREAM_DOT
  fmt : t.fmt = a.w.fmt
  w : t.w = a.w.p.add (b.r0 * a.w.rowBytes.toNat)
  wBytes : t.wBytes = b.rows * a.w.rowBytes.toNat
  rows : t.rows = b.rows
  cols : t.cols = a.w.cols.toNat
  columns : t.columns = b.n
  inCol : ∀ q < b.n, t.inCol q = a.x.col (b.p0 + q)
  out : ∀ q < b.n, ∀ r, t.out q r = (a.y.col (b.p0 + q)).add (b.r0 + r)
  aux : t.aux = a.idSlot.map .idSlot
  aux2 : t.aux2 = if a.idSlot.isSome then a.w.estride.toNat else 0

/-! ## The row loop -/

/-- The tiles of a round and of those after it, in the plan: each an id with its first row and its
number of rows, from row `lo` on. -/
structure RowTiles (tile : UInt32 → UInt32 → TaskParams) (rows : ℕ) (deps : List ℕ) (lo : ℕ)
    (s s' : Plan) (new : List (ℕ × UInt32 × UInt32)) : Prop where
  le : Plan.Le s s'
  kept : ∀ i, s.Has i → s'.task i = s.task i
  fresh : ∀ e ∈ new, ¬ s.Has e.1
  nodup : (new.map Prod.fst).Nodup
  asked : ∀ i, s'.Has i → s.Has i ∨ i ∈ new.map Prod.fst
  task : ∀ e ∈ new, s'.task e.1 = some (tile e.2.1 e.2.2)
  dep : ∀ e ∈ new, ∀ d ∈ deps, (d, e.1) ∈ s'.deps
  within : ∀ e ∈ new, lo ≤ e.2.1.toNat ∧ e.2.1.toNat + e.2.2.toNat ≤ rows
  once : ∀ r, lo ≤ r → r < rows →
    (new.countP fun e => e.2.1.toNat ≤ r ∧ r < e.2.1.toNat + e.2.2.toNat) = 1

section
variable {s : Plan} {tile : UInt32 → UInt32 → TaskParams} {rows rowsz : UInt32} {deps : List ℕ}

/-- Behind the last row there are no tiles. -/
theorem RowTiles.nil (hs : s.Bounded) {lo : ℕ} (hlo : rows.toNat ≤ lo) :
    RowTiles tile rows.toNat deps lo s s [] where
  le := (Stage.refl hs).toLe
  kept _ _ := rfl
  fresh _ he := absurd he List.not_mem_nil
  nodup := List.nodup_nil
  asked _ hi := .inl hi
  task _ he := absurd he List.not_mem_nil
  dep _ he := absurd he List.not_mem_nil
  within _ he := absurd he List.not_mem_nil
  once r hr hr' := by omega

/-- One more tile in front, of the rows up to the next ones. -/
theorem RowTiles.cons {s1 s2 : Plan} {id : ℕ} {r0 r : UInt32} {new : List (ℕ × UInt32 × UInt32)}
    {lo : ℕ} (hlt : r0.toNat + r.toNat ≤ rows.toNat)
    (hlo : lo = r0.toNat + r.toNat ∨ rows.toNat ≤ r0.toNat + r.toNat ∧ rows.toNat ≤ lo)
    (h1 : Added s s1 (tile r0 r) deps id)
    (htask : s1.task = Function.update s.task id (some (tile r0 r)))
    (h2 : RowTiles tile rows.toNat deps lo s1 s2 new) :
    RowTiles tile rows.toNat deps r0.toNat s s2 ((id, r0, r) :: new) := by
  have hid : ¬ s.Has id := fun hi => lt_irrefl _ (h1.lt id hi)
  have hid1 : s1.Has id := h1.stage.out id rfl
  have hle : r0.toNat ≤ lo := by omega
  constructor
  · exact h1.stage.toLe.trans h2.le
  · intro i hi
    have hne : i ≠ id := fun h => hid (h ▸ hi)
    rw [h2.kept i (h1.stage.has i hi), htask, Function.update_of_ne hne]
  · intro e he
    rcases List.mem_cons.mp he with rfl | he
    · exact hid
    · exact fun hi => h2.fresh e he (h1.stage.has _ hi)
  · rw [List.map_cons, List.nodup_cons]
    refine ⟨?_, h2.nodup⟩
    intro hmem
    obtain ⟨e, he, hei⟩ := List.mem_map.mp hmem
    exact h2.fresh e he (hei ▸ hid1)
  · intro i hi
    rw [List.map_cons, List.mem_cons]
    rcases h2.asked i hi with hi | hi
    · by_cases hne : i = id
      · exact .inr (.inl hne)
      · refine .inl ?_
        rw [Plan.Has, htask, Function.update_of_ne hne] at hi
        exact hi
    · exact .inr (.inr hi)
  · intro e he
    rcases List.mem_cons.mp he with rfl | he
    · rw [h2.kept id hid1, h1.task_eq]
    · exact h2.task e he
  · intro e he d hd
    rcases List.mem_cons.mp he with rfl | he
    · refine h2.le.deps _ ?_
      rw [h1.deps_eq]
      exact List.mem_append_right _ (List.mem_map_of_mem hd)
    · exact h2.dep e he d hd
  · intro e he
    rcases List.mem_cons.mp he with rfl | he
    · exact ⟨le_rfl, hlt⟩
    · exact ⟨hle.trans (h2.within e he).1, (h2.within e he).2⟩
  · intro k hk hk'
    rw [List.countP_cons]
    by_cases hin : k < r0.toNat + r.toNat
    · have hrest : (new.countP fun e => e.2.1.toNat ≤ k ∧ k < e.2.1.toNat + e.2.2.toNat) = 0 := by
        rw [List.countP_eq_zero]
        intro e he
        have := (h2.within e he).1
        rw [decide_eq_true_iff]
        omega
      rw [hrest, if_pos (by rw [decide_eq_true_iff]; exact ⟨hk, hin⟩)]
    · rw [h2.once k (by omega) hk', if_neg]
      rw [decide_eq_true_iff]
      exact fun h => hin h.2

/-- The rounds of the tile loop from row `r0` on. -/
theorem wires_rowTiles (htile : ∀ r0 r, GraphImpl.Passes (tile r0 r)) (fuel : ℕ) (r0 : UInt32)
    (tiles : List ℕ) (hs : s.Bounded) (hdeps : ∀ d ∈ deps, s.Has d)
    (hwrap : ∀ k, r0.toNat + k * rowsz.toNat < rows.toNat →
      r0.toNat + (k + 1) * rowsz.toNat < 2 ^ 32) :
    Wires (tileLoop tile rows rowsz deps fuel r0 tiles) s fun out s' =>
      ∃ new, out = tiles ++ new.map Prod.fst ∧
        RowTiles tile rows.toNat deps r0.toNat s s' new := by
  induction fuel generalizing r0 tiles s with
  | zero => exact (by decide : "graph capacity exceeded" ∈ budgetErrors)
  | succ fuel ih =>
    rw [tileLoop]
    by_cases hr : r0 < rows
    · rw [if_pos hr]
      have hr' := UInt32.lt_iff_toNat_lt.mp hr
      set r := if rows - r0 < rowsz then rows - r0 else rowsz with hrdef
      have hsub : (rows - r0).toNat = rows.toNat - r0.toNat :=
        UInt32.toNat_sub_of_le _ _ (UInt32.le_of_lt hr)
      have hrlen : r.toNat = min (rows.toNat - r0.toNat) rowsz.toNat := by
        rw [hrdef]
        split_ifs with hlast
        · rw [UInt32.lt_iff_toNat_lt, hsub] at hlast
          omega
        · rw [UInt32.lt_iff_toNat_lt, hsub] at hlast
          omega
      have hnext : (r0 + rowsz).toNat = r0.toNat + rowsz.toNat := by
        have := hwrap 0 (by omega)
        rw [UInt32.toNat_add, Nat.mod_eq_of_lt (by omega)]
      have htask := wires_addWith_task deps hs (htile r0 r) hdeps
      rw [Wires, CmdProg.wp_bind] at htask
      apply Wires.bind htask
      intro id s1 h1
      rw [CmdProg.wp_bind] at h1
      apply Wires.bind h1
      intro _ s2 h2
      have h2 : Added s s2 (tile r0 r) deps id ∧
        s2.task = Function.update s.task id (some (tile r0 r)) := h2
      obtain ⟨hadded, htask2⟩ := h2
      have hwrap' (k : ℕ) (hk : (r0 + rowsz).toNat + k * rowsz.toNat < rows.toNat) :
          (r0 + rowsz).toNat + (k + 1) * rowsz.toNat < 2 ^ 32 := by
        have := hwrap (k + 1)
        rw [hnext] at hk ⊢
        simp only [Nat.succ_mul] at this hk ⊢
        omega
      apply (ih (r0 + rowsz) (tiles ++ [id]) hadded.stage.bounded
        (fun d hd => hadded.stage.has d (hdeps d hd)) hwrap').mono
      rintro out s3 ⟨new, hout, h3⟩
      refine ⟨(id, r0, r) :: new, by rw [hout]; simp, ?_⟩
      exact RowTiles.cons (by omega) (by omega) hadded htask2 h3
    · rw [if_neg hr]
      have hr' := UInt32.not_lt.mp hr
      exact .pure ⟨[], by simp, .nil hs (UInt32.le_iff_toNat_le.mp hr')⟩

end

/-! ## Dots in the plan -/

/-- Between two plans, the tiles of the columns `lo .. lo + n` of a dot. -/
structure Emits (a : DotArgs) (lo n : ℕ) (deps : ℕ → List ℕ) (s s' : Plan)
    (tiles : List (ℕ × Block)) : Prop where
  le : Plan.Le s s'
  kept : ∀ i, s.Has i → s'.task i = s.task i
  fresh : ∀ e ∈ tiles, ¬ s.Has e.1
  nodup : (tiles.map Prod.fst).Nodup
  dots : ∀ i t, s'.task i = some t → s.Has i ∨ t.kind = .SIGNAL ∨ i ∈ tiles.map Prod.fst
  tile : ∀ e ∈ tiles, ∃ t, s'.task e.1 = some t ∧ IsTile a t e.2
  within : ∀ e ∈ tiles, e.2.r0 + e.2.rows ≤ a.w.rows.toNat ∧ lo ≤ e.2.p0 ∧ e.2.p0 + e.2.n ≤ lo + n
  once : ∀ r < a.w.rows.toNat, ∀ p, lo ≤ p → p < lo + n →
    (tiles.countP fun e => e.2.InRows r ∧ e.2.InCols p) = 1
  fed : ∀ e ∈ tiles, ∀ p, e.2.InCols p → ∀ d ∈ deps p, (d, e.1) ∈ s'.deps

/-- The id for a position is the only tile of its column, or a task behind all of them. -/
def Covers (s : Plan) (tiles : List (ℕ × Block)) (p id : ℕ) : Prop :=
  s.Has id ∧ ((∃ b, tiles.filter (fun e => e.2.InCols p) = [(id, b)]) ∨
    ∀ e ∈ tiles, e.2.InCols p → Relation.TransGen (fun i j => (i, j) ∈ s.deps) e.1 id)

/-- A path in a plan is one in those that continue it. -/
theorem Plan.Le.path {s s' : Plan} (h : s.Le s') {i j : ℕ}
    (hp : Relation.TransGen (fun i j => (i, j) ∈ s.deps) i j) :
    Relation.TransGen (fun i j => (i, j) ∈ s'.deps) i j :=
  Relation.TransGen.mono (fun i j (hij : (i, j) ∈ s.deps) => h.deps (i, j) hij) _ _ hp

namespace Emits
variable {a : DotArgs} {lo n k : ℕ} {deps : ℕ → List ℕ} {s s1 s2 : Plan}
  {tiles tiles' : List (ℕ × Block)}

/-- No columns, no tiles. -/
theorem none (hs : s.Bounded) (lo : ℕ) : Emits a lo 0 deps s s [] where
  le := (Stage.refl hs).toLe
  kept _ _ := rfl
  fresh _ he := absurd he List.not_mem_nil
  nodup := List.nodup_nil
  dots i t ht := .inl (by rw [Plan.Has, ht]; rfl)
  tile _ he := absurd he List.not_mem_nil
  within _ he := absurd he List.not_mem_nil
  once r hr p hp hp' := by omega
  fed _ he := absurd he List.not_mem_nil

theorem tile_has (h : Emits a lo n deps s s1 tiles) {e : ℕ × Block} (he : e ∈ tiles) :
    s1.Has e.1 := by
  obtain ⟨t, ht, -⟩ := h.tile e he
  rw [Plan.Has, ht]
  rfl

theorem not_inCols (h : Emits a lo n deps s s1 tiles) {p : ℕ} (hp : p < lo ∨ lo + n ≤ p)
    {e : ℕ × Block} (he : e ∈ tiles) : ¬ e.2.InCols p := by
  have := h.within e he
  rw [Block.InCols]
  omega

theorem filter_eq_nil (h : Emits a lo n deps s s1 tiles) {p : ℕ} (hp : p < lo ∨ lo + n ≤ p) :
    tiles.filter (fun e => e.2.InCols p) = [] := by
  rw [List.filter_eq_nil_iff]
  intro e he
  rw [decide_eq_true_iff]
  exact h.not_inCols hp he

theorem countP_eq_zero (h : Emits a lo n deps s s1 tiles) {p : ℕ} (hp : p < lo ∨ lo + n ≤ p)
    (r : ℕ) : (tiles.countP fun e => e.2.InRows r ∧ e.2.InCols p) = 0 := by
  rw [List.countP_eq_zero]
  intro e he
  rw [decide_eq_true_iff]
  exact fun hin => h.not_inCols hp he hin.2

/-- The columns behind those there are. -/
theorem append (h1 : Emits a lo n deps s s1 tiles) (h2 : Emits a (lo + n) k deps s1 s2 tiles') :
    Emits a lo (n + k) deps s s2 (tiles ++ tiles') where
  le := h1.le.trans h2.le
  kept i hi := (h2.kept i (h1.le.has i hi)).trans (h1.kept i hi)
  fresh e he := by
    rcases List.mem_append.mp he with he | he
    · exact h1.fresh e he
    · exact fun hi => h2.fresh e he (h1.le.has _ hi)
  nodup := by
    rw [List.map_append, List.nodup_append']
    refine ⟨h1.nodup, h2.nodup, ?_⟩
    intro i hi hi'
    obtain ⟨e, he, rfl⟩ := List.mem_map.mp hi
    obtain ⟨e', he', heq⟩ := List.mem_map.mp hi'
    exact h2.fresh e' he' (heq ▸ h1.tile_has he)
  dots i t ht := by
    rw [List.map_append, List.mem_append]
    rcases h2.dots i t ht with hi | hi | hi
    · rw [h2.kept i hi] at ht
      rcases h1.dots i t ht with hi | hi | hi
      · exact .inl hi
      · exact .inr (.inl hi)
      · exact .inr (.inr (.inl hi))
    · exact .inr (.inl hi)
    · exact .inr (.inr (.inr hi))
  tile e he := by
    rcases List.mem_append.mp he with he | he
    · rw [h2.kept e.1 (h1.tile_has he)]
      exact h1.tile e he
    · exact h2.tile e he
  within e he := by
    rcases List.mem_append.mp he with he | he
    · have := h1.within e he
      omega
    · have := h2.within e he
      omega
  once r hr p hp hp' := by
    rw [List.countP_append]
    by_cases hin : p < lo + n
    · rw [h1.once r hr p hp hin, h2.countP_eq_zero (.inl hin)]
    · rw [h1.countP_eq_zero (.inr (Nat.not_lt.mp hin)), h2.once r hr p (by omega) (by omega)]
  fed e he p hp d hd := by
    rcases List.mem_append.mp he with he | he
    · exact h2.le.deps _ (h1.fed e he p hp d hd)
    · exact h2.fed e he p hp d hd

/-- Each id covers its position still when the columns behind have their tiles. -/
theorem covers_left (h2 : Emits a (lo + n) k deps s1 s2 tiles') {p id : ℕ} (hp : p < lo + n)
    (hc : Covers s1 tiles p id) : Covers s2 (tiles ++ tiles') p id := by
  refine ⟨h2.le.has id hc.1, ?_⟩
  rcases hc.2 with ⟨b, hb⟩ | hall
  · refine .inl ⟨b, ?_⟩
    rw [List.filter_append, hb, h2.filter_eq_nil (.inl hp), List.append_nil]
  · refine .inr fun e he hcol => ?_
    rcases List.mem_append.mp he with he | he
    · exact h2.le.path (hall e he hcol)
    · exact absurd hcol (h2.not_inCols (.inl hp) he)

theorem covers_right (h1 : Emits a lo n deps s s1 tiles) {p id : ℕ} (hp : lo + n ≤ p)
    (hc : Covers s2 tiles' p id) : Covers s2 (tiles ++ tiles') p id := by
  refine ⟨hc.1, ?_⟩
  rcases hc.2 with ⟨b, hb⟩ | hall
  · refine .inl ⟨b, ?_⟩
    rw [List.filter_append, hb, h1.filter_eq_nil (.inr hp), List.nil_append]
  · refine .inr fun e he hcol => ?_
    rcases List.mem_append.mp he with he | he
    · exact absurd hcol (h1.not_inCols (.inr hp) he)
    · exact hall e he hcol

theorem congr_deps {deps' : ℕ → List ℕ} (h : Emits a lo n deps s s1 tiles)
    (hdeps : ∀ p, lo ≤ p → p < lo + n → ∀ d ∈ deps' p, d ∈ deps p) :
    Emits a lo n deps' s s1 tiles :=
  { h with
    fed := fun e he p hp d hd => by
      have hw := h.within e he
      have hcol := hp
      rw [Block.InCols] at hcol
      exact h.fed e he p hp d (hdeps p (by omega) (by omega) d hd) }

/-- A signal is no tile. -/
theorem signal {producers : List ℕ} {id : ℕ} (h : Emits a lo n deps s s1 tiles)
    (hadd : Added s1 s2 rawSignal producers id)
    (htask : s2.task = Function.update s1.task id (some rawSignal)) :
    Emits a lo n deps s s2 tiles := by
  have hid : ¬ s1.Has id := fun hi => lt_irrefl _ (hadd.lt id hi)
  have hkept (i : ℕ) (hi : s1.Has i) : s2.task i = s1.task i := by
    have hne : i ≠ id := fun heq => hid (heq ▸ hi)
    rw [htask, Function.update_of_ne hne]
  constructor
  · exact h.le.trans hadd.stage.toLe
  · exact fun i hi => (hkept i (h.le.has i hi)).trans (h.kept i hi)
  · exact h.fresh
  · exact h.nodup
  · intro i t ht
    by_cases hi : i = id
    · rw [hi, hadd.task_eq, Option.some.injEq] at ht
      exact .inr (.inl (by rw [← ht]; rfl))
    · rw [htask, Function.update_of_ne hi] at ht
      exact h.dots i t ht
  · intro e he
    rw [hkept e.1 (h.tile_has he)]
    exact h.tile e he
  · exact h.within
  · exact h.once
  · exact fun e he p hp d hd => hadd.stage.deps _ (h.fed e he p hp d hd)

/-- A signal behind the tiles themselves. -/
theorem covers_tiles {id : ℕ} (hadd : Added s1 s2 rawSignal (tiles.map Prod.fst) id) (p : ℕ) :
    Covers s2 tiles p id := by
  refine ⟨hadd.stage.out id rfl, .inr fun e he _ => .single ?_⟩
  rw [hadd.deps_eq]
  exact List.mem_append_right _ (List.mem_map_of_mem (List.mem_map_of_mem he))

/-- A signal behind an id that covers the position. -/
theorem covers_fanIn {producers : List ℕ} {p c id : ℕ} (hc : Covers s1 tiles p c)
    (hin : c ∈ producers) (hadd : Added s1 s2 rawSignal producers id) : Covers s2 tiles p id := by
  have hlast : (c, id) ∈ s2.deps := by
    rw [hadd.deps_eq]
    exact List.mem_append_right _ (List.mem_map_of_mem hin)
  refine ⟨hadd.stage.out id rfl, .inr fun e he hcol => ?_⟩
  rcases hc.2 with ⟨b, hb⟩ | hall
  · have hmem : e ∈ tiles.filter fun e => e.2.InCols p :=
      List.mem_filter.mpr ⟨he, decide_eq_true hcol⟩
    rw [hb, List.mem_singleton] at hmem
    rw [hmem]
    exact .single hlast
  · exact (hadd.stage.toLe.path (hall e he hcol)).tail hlast

/-- The tiles of rows are those of blocks of the columns `p0 .. p0 + n`. -/
theorem of_rowTiles {tile : UInt32 → UInt32 → TaskParams} {ds : List ℕ}
    {new : List (ℕ × UInt32 × UInt32)} {p0 : ℕ}
    (h : RowTiles tile a.w.rows.toNat ds 0 s s1 new)
    (htile : ∀ r0 r, r0.toNat + r.toNat ≤ a.w.rows.toNat →
      IsTile a (tile r0 r) ⟨r0.toNat, r.toNat, p0, n⟩) :
    Emits a p0 n (fun _ => ds) s s1
      (new.map fun e => (e.1, ⟨e.2.1.toNat, e.2.2.toNat, p0, n⟩)) := by
  have hids : (new.map fun e => ((e.1, ⟨e.2.1.toNat, e.2.2.toNat, p0, n⟩) : ℕ × Block)).map
      Prod.fst = new.map Prod.fst := by
    rw [List.map_map]
    rfl
  constructor
  · exact h.le
  · exact h.kept
  · intro e he
    obtain ⟨u, hu, rfl⟩ := List.mem_map.mp he
    exact h.fresh u hu
  · rw [hids]
    exact h.nodup
  · intro i t ht
    have hi : s1.Has i := by rw [Plan.Has, ht]; rfl
    rw [hids]
    rcases h.asked i hi with hi | hi
    · exact .inl hi
    · exact .inr (.inr hi)
  · intro e he
    obtain ⟨u, hu, rfl⟩ := List.mem_map.mp he
    exact ⟨_, h.task u hu, htile _ _ (h.within u hu).2⟩
  · intro e he
    obtain ⟨u, hu, rfl⟩ := List.mem_map.mp he
    exact ⟨(h.within u hu).2, le_rfl, le_rfl⟩
  · intro r hr p hp hp'
    rw [List.countP_map, ← h.once r (Nat.zero_le r) hr]
    apply List.countP_congr
    intro u _
    constructor
    · exact fun hin => decide_eq_true (of_decide_eq_true hin).1
    · exact fun hin => decide_eq_true ⟨of_decide_eq_true hin, hp, hp'⟩
  · intro e he p hp d hd
    obtain ⟨u, hu, rfl⟩ := List.mem_map.mp he
    exact h.dep u hu d hd

end Emits

/-- The helpers' summary: the tiles of the columns `lo .. lo + n`, and ids that cover them. -/
def EmitsAll (a : DotArgs) (lo n : ℕ) (deps : ℕ → List ℕ) (s s' : Plan) (sig : ℕ → ℕ) : Prop :=
  ∃ tiles, Emits a lo n deps s s' tiles ∧ ∀ p, lo ≤ p → p < lo + n → Covers s' tiles p (sig p)

section
variable {s : Plan} {a : DotArgs}

theorem wires_fanIn_task (producers : List ℕ) (hs : s.Bounded) (hp : ∀ p ∈ producers, s.Has p) :
    Wires (Build.fanIn producers) s fun id s' => Added s s' rawSignal producers id ∧
      s'.task = Function.update s.task id (some rawSignal) :=
  wires_addWith_task _ hs ⟨by decide, by decide, by decide, by decide⟩ hp

theorem emits_addTiles {tile : UInt32 → UInt32 → TaskParams} {rowsz : UInt32} {ds : List ℕ}
    {p0 n : ℕ} (hpass : ∀ r0 r, GraphImpl.Passes (tile r0 r))
    (htile : ∀ r0 r, r0.toNat + r.toNat ≤ a.w.rows.toNat →
      IsTile a (tile r0 r) ⟨r0.toNat, r.toNat, p0, n⟩)
    (hwrap : NoWrap a.w.rows.toNat rowsz.toNat) (hs : s.Bounded) (hdeps : ∀ d ∈ ds, s.Has d) :
    Wires (addTiles tile a.w.rows rowsz ds) s fun id s' =>
      EmitsAll a p0 n (fun _ => ds) s s' fun _ => id := by
  have hwrap' (k : ℕ) (hk : (0 : UInt32).toNat + k * rowsz.toNat < a.w.rows.toNat) :
      (0 : UInt32).toNat + (k + 1) * rowsz.toNat < 2 ^ 32 := by
    rw [UInt32.toNat_zero, Nat.zero_add] at hk ⊢
    exact hwrap k hk
  apply (wires_rowTiles hpass (2 ^ 32) 0 [] hs hdeps hwrap').bind
  rintro out s1 ⟨new, hout, h1⟩
  have hemits := Emits.of_rowTiles h1 htile
  rw [List.nil_append] at hout
  have hids : out = (new.map fun e => ((e.1, ⟨e.2.1.toNat, e.2.2.toNat, p0, n⟩) : ℕ × Block)).map
      Prod.fst := by
    rw [hout, List.map_map]
    rfl
  have hfan : Wires (Build.fanIn out) s1 fun id s' =>
      EmitsAll a p0 n (fun _ => ds) s s' fun _ => id := by
    have hhas : ∀ p ∈ out, s1.Has p := by
      intro p hp
      rw [hids] at hp
      obtain ⟨e, he, rfl⟩ := List.mem_map.mp hp
      exact hemits.tile_has he
    apply (wires_fanIn_task out h1.le.bounded hhas).mono
    rintro id s2 ⟨hadd, htask⟩
    refine ⟨_, hemits.signal hadd htask, fun p _ _ => ?_⟩
    rw [hids] at hadd
    exact Emits.covers_tiles hadd p
  cases out with
  | nil => exact hfan
  | cons t rest =>
    cases rest with
    | cons => exact hfan
    | nil =>
      -- the only tile covers its columns itself
      obtain ⟨e, hnew, hte⟩ := List.map_eq_singleton_iff.mp hout.symm
      refine .pure ⟨_, hemits, fun p hp hp' => ⟨?_, .inl ⟨⟨e.2.1.toNat, e.2.2.toNat, p0, n⟩, ?_⟩⟩⟩
      · rw [← hte]
        exact hemits.tile_has (e := (e.1, _)) (by rw [hnew]; exact List.mem_cons_self)
      · rw [hnew, List.map_singleton, ← hte]
        exact List.filter_cons_of_pos (decide_eq_true (⟨hp, hp'⟩ : Block.InCols _ p))

/-- The byte count of a tile does not wrap, since that of the matrix does not. -/
theorem toNat_tileBytes {w : WTensor} (hbytes : w.rows.toNat * w.rowBytes.toNat < 2 ^ 64)
    {r : UInt32} (hr : r.toNat ≤ w.rows.toNat) :
    (r.toUInt64 * w.rowBytes).toNat = r.toNat * w.rowBytes.toNat := by
  have hle := Nat.mul_le_mul_right w.rowBytes.toNat hr
  rw [UInt64.toNat_mul, UInt32.toNat_toUInt64, Nat.mod_eq_of_lt (by omega)]

theorem isTile_dotTile (o : BuildOpts)
    (hbytes : a.w.rows.toNat * a.w.rowBytes.toNat < 2 ^ 64) (p : ℕ) (r0 r : UInt32)
    (hr : r0.toNat + r.toNat ≤ a.w.rows.toNat) :
    IsTile a (dotTile o a.w (a.x.col p) (a.y.col p) a.idSlot r0 r) ⟨r0.toNat, r.toNat, p, 1⟩ where
  kind := rfl
  fmt := rfl
  w := rfl
  wBytes := toNat_tileBytes hbytes (by omega)
  rows := rfl
  cols := rfl
  columns := rfl
  inCol q hq := by
    rw [Nat.lt_one_iff.mp hq, TaskParams.inCol, Nat.zero_mul, Loc.add_zero, Nat.add_zero]
    rfl
  out q hq k := by
    rw [Nat.lt_one_iff.mp hq, TaskParams.out, Nat.zero_mul, Nat.zero_add, Nat.add_zero, dotTile,
      Loc.add_add]
  aux := rfl
  aux2 := rfl

theorem isTile_dotTileM (o : BuildOpts) (hidx : a.idSlot = none)
    (hbytes : a.w.rows.toNat * a.w.rowBytes.toNat < 2 ^ 64) {m : ℕ} (hm : m ≠ 0) (r0 r : UInt32)
    (hr : r0.toNat + r.toNat ≤ a.w.rows.toNat) :
    IsTile a (dotTileM o a.w a.x a.y m r0 r) ⟨r0.toNat, r.toNat, 0, m⟩ where
  kind := by rw [hidx]; rfl
  fmt := rfl
  w := rfl
  wBytes := toNat_tileBytes hbytes (by omega)
  rows := rfl
  cols := rfl
  columns := if_pos hm
  inCol q hq := by
    rw [Nat.zero_add]
    rfl
  out q hq k := by
    have hoff : r0.toNat + (q * a.y.stride.toNat + k) =
        q * a.y.stride.toNat + (r0.toNat + k) := by omega
    rw [Nat.zero_add, Cols.col, Loc.add_add, ← hoff, ← Loc.add_add]
    rfl
  aux := by rw [hidx]; rfl
  aux2 := by rw [hidx]; rfl

end

theorem Cols.col_zero (c : Cols) : c.col 0 = c.base := by
  rw [Cols.col, Nat.zero_mul, Loc.add_zero]

/-- A matrix whose bytes fit the address space, cut into tiles without a wrap of the row counter. -/
structure DotArgs.Ready (a : DotArgs) (rowsz : UInt32) : Prop where
  loaded : a.w.Loaded
  estride : a.idSlot ≠ none → a.w.estride.toNat ≠ 0
  bytes : a.w.rows.toNat * a.w.rowBytes.toNat < 2 ^ 64
  noWrap : NoWrap a.w.rows.toNat rowsz.toNat

section
variable {s : Plan} {a : DotArgs} {rowsz : UInt32}

theorem emits_addDot (ha : a.Ready rowsz) (o : BuildOpts) (p : ℕ) (ds : List ℕ) (hs : s.Bounded)
    (hdeps : ∀ d ∈ ds, s.Has d) :
    Wires (addDot o a.w (a.x.col p) (a.y.col p) ds rowsz a.idSlot) s fun id s' =>
      EmitsAll a p 1 (fun _ => ds) s s' fun _ => id :=
  emits_addTiles (passes_dotTile ha.loaded ha.estride) (isTile_dotTile o ha.bytes p) ha.noWrap hs
    hdeps

/-- A dot for each position, one after the other. -/
theorem emits_columns (ha : a.Ready rowsz) (hidx : a.idSlot = none) (o : BuildOpts) (m : ℕ)
    (ds : ℕ → List ℕ) (hs : s.Bounded) (hdeps : ∀ p < m, ∀ d ∈ ds p, s.Has d) :
    Wires ((List.range m).mapM fun p => addDot o a.w (a.x.col p) (a.y.col p) (ds p) rowsz none) s
      fun sigs s' => sigs.length = m ∧ EmitsAll a 0 m ds s s' fun p => sigs.getD p default := by
  refine CmdProg.wp_mapM_range (Plan.spec_mono _ _) (fun k sigs s' => sigs.length = k ∧
    EmitsAll a 0 k ds s s' fun p => sigs.getD p default) ?_ ?_
  · exact ⟨rfl, [], .none hs 0, fun p hp hp' => by omega⟩
  · rintro k sigs s1 hk ⟨hlen, tiles, h1, hc1⟩
    have hdot := emits_addDot ha o k (ds k) h1.le.bounded fun d hd => h1.le.has d (hdeps k hk d hd)
    rw [hidx] at hdot
    apply Wires.mono hdot
    rintro id s2 ⟨tiles', h2, hc2⟩
    have h2' : Emits a (0 + k) 1 ds s1 s2 tiles' := by
      rw [Nat.zero_add]
      apply h2.congr_deps
      intro p hp hp' d hd
      have hpk : p = k := by omega
      rw [← hpk]
      exact hd
    dsimp only at hc1 hc2
    refine ⟨by rw [List.length_append, hlen]; rfl, _, h1.append h2', fun p hp hp' => ?_⟩
    dsimp only
    by_cases hin : p < k
    · have hget : (sigs ++ [id]).getD p default = sigs.getD p default :=
        List.getD_append _ _ _ _ (by omega)
      rw [hget]
      exact Emits.covers_left h2' (by omega) (hc1 p hp (by omega))
    · have hget : (sigs ++ [id]).getD p default = id := by
        rw [List.getD_append_right _ _ _ _ (by omega), hlen, show p - k = 0 by omega]
        rfl
      rw [hget]
      exact h1.covers_right (by omega) (hc2 p (by omega) (by omega))

theorem emits_addDotM (ha : a.Ready rowsz) (hidx : a.idSlot = none) (o : BuildOpts) {m : ℕ}
    (hm : 1 ≤ m) (ds : List ℕ) (hs : s.Bounded) (hdeps : ∀ d ∈ ds, s.Has d) :
    Wires (addDotM o a.w a.x a.y m ds rowsz) s fun id s' =>
      EmitsAll a 0 m (fun _ => ds) s s' fun _ => id := by
  rw [addDotM]
  split_ifs with hmc hone
  · apply (emits_columns ha hidx o m (fun _ => ds) hs fun _ _ => hdeps).bind
    rintro sigs s1 ⟨hlen, tiles, h1, hc1⟩
    dsimp only at hc1
    have hhas : ∀ p ∈ sigs, s1.Has p := by
      intro i hi
      obtain ⟨p, hp, rfl⟩ := List.mem_iff_getElem.mp hi
      have := (hc1 p (Nat.zero_le p) (by omega)).1
      rwa [List.getD_eq_getElem _ _ hp] at this
    apply (wires_fanIn_task sigs h1.le.bounded hhas).mono
    rintro id s2 ⟨hadd, htask⟩
    refine ⟨tiles, h1.signal hadd htask, fun p hp hp' => ?_⟩
    have hin : sigs.getD p default ∈ sigs := by
      rw [List.getD_eq_getElem _ _ (by omega)]
      exact List.getElem_mem _
    exact Emits.covers_fanIn (hc1 p hp hp') hin hadd
  · have hdot := emits_addDot ha o 0 ds hs hdeps
    rw [hidx, Cols.col_zero, Cols.col_zero] at hdot
    rw [hone]
    exact hdot
  · exact emits_addTiles (passes_dotTileM ha.loaded)
      (isTile_dotTileM o hidx ha.bytes (by omega)) ha.noWrap hs hdeps

theorem emits_stageDot (ha : a.Ready rowsz) (hidx : a.idSlot = none) (o : BuildOpts) (m : ℕ)
    (pdeps : ℕ → ℕ) (hs : s.Bounded) (hdeps : ∀ p < m, s.Has (pdeps p)) :
    Wires (stageDot o a.w a.x a.y m pdeps rowsz) s fun sig s' =>
      EmitsAll a 0 m (fun p => [pdeps p]) s s' sig := by
  rw [stageDot]
  split_ifs with hmc
  · have hall : ∀ d ∈ (List.range m).map pdeps, s.Has d := by
      intro d hd
      obtain ⟨p, hp, rfl⟩ := List.mem_map.mp hd
      exact hdeps p (List.mem_range.mp hp)
    apply (emits_addDotM ha hidx o (by omega) _ hs hall).bind
    rintro id s1 ⟨tiles, h1, hc1⟩
    refine .pure ⟨tiles, h1.congr_deps fun p _ hp d hd => ?_, hc1⟩
    rw [List.mem_singleton.mp hd]
    exact List.mem_map_of_mem (List.mem_range.mpr (by omega))
  · have hone : ∀ p < m, ∀ d ∈ [pdeps p], s.Has d := by
      intro p hp d hd
      rw [List.mem_singleton.mp hd]
      exact hdeps p hp
    apply (emits_columns ha hidx o m (fun p => [pdeps p]) hs hone).bind
    rintro sigs s1 ⟨_, h1⟩
    exact .pure h1

end

/-! ## Executing the tiles -/

/-- The rows and columns of a block. -/
def Block.cells (b : Block) : List (ℕ × ℕ) :=
  (List.range b.rows ×ˢ List.range b.n).map fun c => (b.r0 + c.1, b.p0 + c.2)

section
variable {F : Type} (A : Arith F) (mem : TileMem F) (a : DotArgs)

/-- The weights of a dot, of the expert in the slot if there is one. -/
def DotArgs.weights : BytePtr :=
  match a.idSlot with
  | some p => a.w.p.add ((mem.id p).toNat * a.w.estride.toNat)
  | none => a.w.p

/-- `y_p[r] += dot(w_r, x_p)` for the row and column `c`. -/
def dotCell (y : Loc → F) (c : ℕ × ℕ) : Loc → F :=
  addAt A y ((a.y.col c.2).add c.1) (dotRowAny A a.w.fmt
    (mem.row ((a.weights mem).add (c.1 * rowBytes a.w.fmt a.w.cols.toNat)))
    (mem.col (a.x.col c.2)) a.w.cols.toNat)

/-- A dot of all rows and `m` columns. -/
def dotAll (m : ℕ) (y : Loc → F) : Loc → F :=
  (List.range a.w.rows.toNat ×ˢ List.range m).foldl (dotCell A mem a) y

variable {a}

theorem tileW_of_isTile {t : TaskParams} {b : Block} (h : IsTile a t b) :
    tileW mem t = (a.weights mem).add (b.r0 * a.w.rowBytes.toNat) := by
  rw [tileW, h.kind, h.aux, h.aux2, h.w, DotArgs.weights]
  cases a.idSlot with
  | none => rfl
  | some p =>
    simp only [Option.isSome_some, if_true, Option.map_some, BytePtr.add_add]
    congr 1
    omega

/-- A tile adds at the rows and columns of its block. -/
theorem execDotScalar_isTile {t : TaskParams} {b : Block} (h : IsTile a t b) (hw : a.w.Loaded)
    (y : Loc → F) : execDotScalar A mem t y = b.cells.foldl (dotCell A mem a) y := by
  rw [execDotScalar, addTile_eq_foldl, Block.cells, List.foldl_map, h.rows, h.columns]
  apply List.foldl_ext
  rintro y ⟨r, q⟩ hc
  have hq : q < b.n := List.mem_range.mp (List.mem_product.mp hc).2
  have hrow : (tileW mem t).add (r * rowBytes a.w.fmt a.w.cols.toNat) =
      (a.weights mem).add ((b.r0 + r) * rowBytes a.w.fmt a.w.cols.toNat) := by
    rw [tileW_of_isTile mem h, BytePtr.add_add, hw.rowBytes_eq, Nat.add_mul]
  simp only [addCell, dotCell, h.out q hq r, h.inCol q hq, h.fmt, h.cols, hrow]

end

theorem count_cells (b : Block) (r p : ℕ) :
    b.cells.count (r, p) = if b.InRows r ∧ b.InCols p then 1 else 0 := by
  have hinj : Function.Injective fun c : ℕ × ℕ => (b.r0 + c.1, b.p0 + c.2) := by
    rintro ⟨r, p⟩ ⟨s, q⟩ h
    simp only [Prod.mk.injEq, Nat.add_left_cancel_iff] at h
    exact Prod.ext h.1 h.2
  have hnodup : b.cells.Nodup := (List.nodup_range.product List.nodup_range).map hinj
  have hmem : (r, p) ∈ b.cells ↔ b.InRows r ∧ b.InCols p := by
    simp only [Block.cells, List.mem_map, List.mem_product, List.mem_range, Prod.mk.injEq,
      Prod.exists, Block.InRows, Block.InCols]
    constructor
    · rintro ⟨i, q, ⟨hi, hq⟩, rfl, rfl⟩
      omega
    · intro h
      exact ⟨r - b.r0, p - b.p0, by omega, by omega, by omega⟩
  rw [hnodup.count]
  simp only [hmem]

/-- The blocks that have a row and column, counted by the cells. -/
theorem count_flatMap_cells (tiles : List (ℕ × Block)) (r p : ℕ) :
    (tiles.flatMap fun e => e.2.cells).count (r, p) =
      tiles.countP fun e => e.2.InRows r ∧ e.2.InCols p := by
  induction tiles with
  | nil => rfl
  | cons e tiles ih =>
    rw [List.flatMap_cons, List.count_append, ih, count_cells, List.countP_cons, Nat.add_comm]
    simp only [decide_eq_true_iff]

/-- The columns of `y` lie apart. -/
def DotArgs.Apart (a : DotArgs) (m : ℕ) : Prop := m ≤ 1 ∨ a.w.rows.toNat ≤ a.y.stride.toNat

theorem DotArgs.Apart.inj {a : DotArgs} {m : ℕ} (h : a.Apart m) {p q r k : ℕ} (hp : p < m)
    (hq : q < m) (hr : r < a.w.rows.toNat) (hk : k < a.w.rows.toNat)
    (heq : (a.y.col p).add r = (a.y.col q).add k) : (r, p) = (k, q) := by
  have hoff := congrArg Loc.off heq
  simp only [Cols.col, Loc.off_add] at hoff
  have hcol : p = q := by
    rcases h with h | h
    · omega
    · by_contra hne
      rcases Nat.lt_or_gt_of_ne hne with hlt | hlt
      · have := Nat.mul_le_mul_right a.y.stride.toNat (Nat.succ_le_of_lt hlt)
        rw [Nat.succ_mul] at this
        omega
      · have := Nat.mul_le_mul_right a.y.stride.toNat (Nat.succ_le_of_lt hlt)
        rw [Nat.succ_mul] at this
        omega
  subst hcol
  exact Prod.ext (by omega) rfl

/-- The blocks of a partition, in any order, are a dot of all rows and columns. -/
theorem foldl_cells {F : Type} (A : Arith F) (mem : TileMem F) {a : DotArgs} {m : ℕ}
    (hapart : a.Apart m) {tiles order : List (ℕ × Block)} (ho : order.Perm tiles)
    (hwithin : ∀ e ∈ tiles, e.2.r0 + e.2.rows ≤ a.w.rows.toNat ∧ e.2.p0 + e.2.n ≤ m)
    (honce : ∀ r < a.w.rows.toNat, ∀ p < m,
      (tiles.countP fun e => e.2.InRows r ∧ e.2.InCols p) = 1) (y : Loc → F) :
    order.foldl (fun y e => e.2.cells.foldl (dotCell A mem a) y) y = dotAll A mem a m y := by
  have hnodup : (List.range a.w.rows.toNat ×ˢ List.range m).Nodup :=
    List.nodup_range.product List.nodup_range
  have hperm : (order.flatMap fun e => e.2.cells).Perm
      (List.range a.w.rows.toNat ×ˢ List.range m) := by
    rw [List.perm_iff_count]
    rintro ⟨r, p⟩
    rw [count_flatMap_cells, ho.countP_eq, hnodup.count]
    simp only [List.mem_product, List.mem_range]
    split_ifs with hin
    · exact honce r hin.1 p hin.2
    · rw [List.countP_eq_zero]
      intro e he
      have := hwithin e he
      rw [decide_eq_true_iff, Block.InRows, Block.InCols]
      omega
  rw [dotAll, ← List.foldl_flatMap]
  apply hperm.foldl_eq'
  rintro ⟨r, p⟩ hrp ⟨k, q⟩ hkq z
  have hrp' := List.mem_product.mp (hperm.mem_iff.mp hrp)
  have hkq' := List.mem_product.mp (hperm.mem_iff.mp hkq)
  simp only [List.mem_range] at hrp' hkq'
  by_cases hsame : (r, p) = (k, q)
  · rw [hsame]
  · apply addAt_comm
    exact fun heq => hsame (hapart.inj hrp'.2 hkq'.2 hrp'.1 hkq'.1 heq)

/-! ## Dots in the graph -/

/-- `j` is reachable from `i`. -/
def GraphImpl.Reaches (g : GraphImpl) (i j : ℕ) : Prop :=
  Relation.TransGen (fun i j => j ∈ g.cons i) i j

/-- What a dot of `m` columns leaves in the graph `g` of a build whose tasks were those of `s`: its
tiles, each a task with its block. -/
structure Covered (a : DotArgs) (m : ℕ) (deps : ℕ → List ℕ) (s : Plan) (g : GraphImpl)
    (sig : ℕ → ℕ) (tiles : List (ℕ × Block)) : Prop where
  /-- The tiles are new tasks, -/
  new : ∀ e ∈ tiles, ¬ s.Has e.1 ∧ e.1 < g.size
  /-- one for each entry, -/
  nodup : (tiles.map Prod.fst).Nodup
  /-- and any other new task is a signal. -/
  dots : ∀ i < g.size, s.Has i ∨ (g.task i).kind = .SIGNAL ∨ i ∈ tiles.map Prod.fst
  /-- Each addresses the rows and columns of its block, -/
  tile : ∀ e ∈ tiles, IsTile a (g.task e.1).toTaskParams e.2
  /-- which are rows and columns of the dot, -/
  within : ∀ e ∈ tiles, e.2.r0 + e.2.rows ≤ a.w.rows.toNat ∧ e.2.p0 + e.2.n ≤ m
  /-- and all of them are in one block. -/
  once : ∀ r < a.w.rows.toNat, ∀ p < m,
    (tiles.countP fun e => e.2.InRows r ∧ e.2.InCols p) = 1
  /-- A tile is reachable from the producers of its positions. -/
  fed : ∀ e ∈ tiles, ∀ p, e.2.InCols p → ∀ d ∈ deps p, g.Reaches d e.1
  /-- The id for a position is its only tile, or reachable from all its tiles. -/
  covers : ∀ p < m, (∃ b, tiles.filter (fun e => e.2.InCols p) = [(sig p, b)]) ∨
    ∀ e ∈ tiles, e.2.InCols p → g.Reaches e.1 (sig p)
  /-- In any order the tiles do the additions of the dot. -/
  runs : ∀ (F : Type) (A : Arith F) (mem : TileMem F) (y : Loc → F) (order : List (ℕ × Block)),
    order.Perm tiles →
      order.foldl (fun y e => execDotScalar A mem (g.task e.1).toTaskParams y) y =
        dotAll A mem a m y

section
variable {s s' : Plan} {st st' : BuildState}

/-- A dependency is a path in the graph. -/
theorem Realizes.reaches {adm : TaskParams → Prop} (h : Realizes adm s st) {i j : ℕ}
    (hp : Relation.TransGen (fun i j => (i, j) ∈ s.deps) i j) : st.g.Reaches i j := by
  obtain ⟨own, ht, -⟩ := h.tree
  have hone {i j : ℕ} (hdep : (i, j) ∈ s.deps) : st.g.Reaches i j := by
    obtain ⟨q, hown, hmem⟩ := ht.granted _ hdep
    have hpath : Relation.ReflTransGen (fun a b => b ∈ st.g.cons a) i q := by
      have := ht.relays_to (Tree.lt_of_mem_cons hmem)
      rw [hown] at this
      exact Relation.ReflTransGen.mono
        (fun a b (hab : b ∈ st.g.cons a ∧ ¬ s.Has b) => hab.1) _ _ this
    exact Relation.TransGen.tail' hpath hmem
  induction hp with
  | single hdep => exact hone hdep
  | tail _ hdep ih => exact ih.trans (hone hdep)

theorem Realizes.bounded {adm : TaskParams → Prop} (h : Realizes adm s st) : s.Bounded := by
  obtain ⟨own, ht, -⟩ := h.tree
  exact ⟨ht.has_lt, fun e he => (ht.dep_has e he).1⟩

/-- The tiles of the plan are those of the graph. -/
theorem EmitsAll.covered {a : DotArgs} {m : ℕ} {deps : ℕ → List ℕ} {sig : ℕ → ℕ}
    {adm : TaskParams → Prop} (h : EmitsAll a 0 m deps s s' sig) (hr : Realizes adm s' st')
    (hw : a.w.Loaded) (hapart : a.Apart m) :
    ∃ tiles, Covered a m deps s st'.g sig tiles := by
  obtain ⟨tiles, h, hc⟩ := h
  obtain ⟨own, ht, -⟩ := hr.tree
  have hcols : ∀ e ∈ tiles, e.2.r0 + e.2.rows ≤ a.w.rows.toNat ∧ e.2.p0 + e.2.n ≤ m := by
    intro e he
    have := h.within e he
    omega
  have htile : ∀ e ∈ tiles, IsTile a (st'.g.task e.1).toTaskParams e.2 := by
    intro e he
    obtain ⟨t, htask, htile⟩ := h.tile e he
    rw [ht.params_eq e.1 t htask]
    exact htile
  have honce : ∀ r < a.w.rows.toNat, ∀ p < m,
      (tiles.countP fun e => e.2.InRows r ∧ e.2.InCols p) = 1 :=
    fun r hr p hp => h.once r hr p (Nat.zero_le p) (by omega)
  refine ⟨tiles, fun e he => ⟨h.fresh e he, ht.lt_size (h.tile_has he)⟩, h.nodup, ?dots, htile,
    hcols, honce, ?fed, ?covers, ?runs⟩
  case dots =>
    intro i hi
    by_cases hhas : s'.Has i
    · obtain ⟨t, htask⟩ := Option.isSome_iff_exists.mp hhas
      rcases h.dots i t htask with h1 | h1 | h1
      · exact .inl h1
      · refine .inr (.inl ?_)
        have := ht.params_eq i t htask
        exact (congrArg TaskParams.kind this).trans h1
      · exact .inr (.inr h1)
    · refine .inr (.inl ?_)
      exact congrArg TaskParams.kind (ht.relay_params i hi hhas)
  case fed =>
    intro e he p hp d hd
    exact hr.reaches (.single (h.fed e he p hp d hd))
  case covers =>
    intro p hp
    rcases (hc p (Nat.zero_le p) (by omega)).2 with hone | hall
    · exact .inl hone
    · exact .inr fun e he hcol => hr.reaches (hall e he hcol)
  case runs =>
    intro F A mem y order ho
    rw [← foldl_cells A mem hapart ho hcols honce y]
    apply List.foldl_ext
    intro y e he
    exact execDotScalar_isTile A mem (htile e (ho.mem_iff.mp he)) hw y

end

/-- Rows of one block of Q8_0. -/
def q80Matrix (rows : UInt32) : WTensor := ⟨⟨0, 0⟩, .Q8_0, rows, 32, 34, 0, 1⟩

/-- An empty graph with room for sixteen tasks. -/
def emptyBuild : BuildState :=
  ⟨GraphImpl.create 16, fun _ => none, ⟨Arena.create 0, ⟨0, 0⟩, 0, 0⟩⟩

/-- A graph with one task. -/
def signalBuild : BuildState :=
  { emptyBuild with g := { emptyBuild.g with tasks := [{ rawSignal with id := 0 }] } }

theorem emptyBuild_realizes :
    Realizes GraphImpl.Passes (Plan.create emptyBuild.mem) emptyBuild := .create _ 16 _

theorem signalBuild_realizes :
    Realizes GraphImpl.Passes ((Plan.create emptyBuild.mem).add 0 rawSignal) signalBuild :=
  (emptyBuild_realizes.add ⟨by decide, by decide, by decide, by decide⟩ rfl).2

theorem q80Matrix_loaded (rows : UInt32) : (q80Matrix rows).Loaded where
  blocks := (by decide : (32 : UInt32).toNat % blkElems .Q8_0 = 0)
  rowBytes_eq := (by decide : (34 : UInt64).toNat = rowBytes .Q8_0 (32 : UInt32).toNat)
  estride_eq := by simp [q80Matrix]

/-- Five rows of Q8_0 over three columns. -/
def fiveRows : DotArgs := ⟨q80Matrix 5, ⟨⟨1, 0⟩, 64⟩, ⟨⟨2, 0⟩, 8⟩, none⟩

/-- `3 * 2 ^ 30` rows of Q8_0 in one column. -/
def wideRows : DotArgs := ⟨q80Matrix 3221225472, ⟨⟨1, 0⟩, 64⟩, ⟨⟨2, 0⟩, 0⟩, none⟩

end FastLlm
