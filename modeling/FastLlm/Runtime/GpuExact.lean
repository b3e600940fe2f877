import FastLlm.Runtime.CpuExact
import FastLlm.Runtime.GpuInt8

/-!
# The GPU kernels add the canonical dots

A block deals the rows of a tile to its warps and adds what the lanes of a warp hold together to the
output of the row.  In exact arithmetic every kernel adds to each output the dot product that the
canonical kernel computes for the row, on the floats of the activation or on what its quantized form
stands for, and leaves the rest of the memory alone (`gpu_adds_dots`).

The counters of the rows, and those of the columns in the column split, have 32 bits.  A tile of so
many rows that a counter wraps around before it gets to the end is never finished
(`gdotF32_wraps`).

## Main definitions

* `AddsDots` — one value added to each output of a tile.
* `GpuKernel` — the kernels; `run`, `act`, `Ready` — their code, activation and requirements.
-/

namespace FastLlm

open Cuda

theorem mapM_some {α β : Type} {l : List α} {f : α → Option β} {g : α → β}
    (h : ∀ a ∈ l, f a = some (g a)) : l.mapM f = some (l.map g) := by
  induction l with
  | nil => rfl
  | cons a l ih =>
    rw [List.mapM_cons, h a (List.mem_cons_self ..), ih fun b hb => h b (List.mem_cons_of_mem a hb)]
    rfl

section
variable {K : Type} [Field K] (bits : UInt32 → K)

/-- From `y` to `y'` the value of each row and column, of `n` columns, was added to its output, and
nothing else happened. -/
def AddsDots (t : TaskParams) (n : ℕ) (v : ℕ → ℕ → K) (y y' : Loc → K) : Prop :=
  (∀ r < t.rows, ∀ p < n, y' (t.out p r) = y (t.out p r) + v r p) ∧
    ∀ l, (∀ r < t.rows, ∀ p < n, l ≠ t.out p r) → y' l = y l

theorem AddsDots.congr {t : TaskParams} {n : ℕ} {v w : ℕ → ℕ → K} {y y' : Loc → K}
    (h : AddsDots t n v y y') (hvw : ∀ r < t.rows, ∀ p < n, v r p = w r p) : AddsDots t n w y y' :=
  ⟨fun r hr p hp => hvw r hr p hp ▸ h.1 r hr p hp, h.2⟩

/-- The columns of a tile do not share an output. -/
def ColumnsApart (t : TaskParams) (n : ℕ) : Prop :=
  ∀ p < n, ∀ q < n, p ≠ q → ∀ r < t.rows, ∀ s < t.rows, p * t.ystride + r ≠ q * t.ystride + s

theorem columnsApart_one (t : TaskParams) : ColumnsApart t 1 := by
  intro p hp q hq hne
  omega

/-- Additions at the outputs of a tile in any order. -/
theorem foldl_addsDots {t : TaskParams} {n : ℕ} (ha : ColumnsApart t n) {cells : List (ℕ × ℕ)}
    (hcells : cells.Perm (List.range t.rows ×ˢ List.range n)) (v : ℕ → ℕ → K) (y : Loc → K) :
    AddsDots t n v y (cells.foldl
      (fun y c => addAt (.exact bits) y (t.out c.2 c.1) (v c.1 c.2)) y) := by
  have hmem : ∀ c, c ∈ cells ↔ c.1 < t.rows ∧ c.2 < n := by
    rintro ⟨r, p⟩
    rw [hcells.mem_iff]
    simp only [List.mem_product, List.mem_range]
  have hnodup : (cells.map fun c => t.out c.2 c.1).Nodup := by
    apply List.Nodup.map_on _
      (hcells.nodup_iff.mpr (List.nodup_range.product List.nodup_range))
    intro c hc d hd heq
    have hoff : c.2 * t.ystride + c.1 = d.2 * t.ystride + d.1 := by
      have := congrArg Loc.off heq
      simp only [TaskParams.out, Loc.off_add] at this
      omega
    by_cases hcol : c.2 = d.2
    · rw [hcol] at hoff
      exact Prod.ext (by omega) hcol
    · exact absurd hoff (ha _ ((hmem c).mp hc).2 _ ((hmem d).mp hd).2 hcol _ ((hmem c).mp hc).1 _
        ((hmem d).mp hd).1)
  constructor
  · intro r hr p hp
    exact foldl_addAt_mem (.exact bits) (fun c : ℕ × ℕ => t.out c.2 c.1) (fun c => v c.1 c.2)
      ((hmem (r, p)).mpr ⟨hr, hp⟩) hnodup y
  · intro l hl
    apply foldl_addAt_other (.exact bits) (fun c : ℕ × ℕ => t.out c.2 c.1) fun c => v c.1 c.2
    rw [List.mem_map]
    rintro ⟨c, hc, rfl⟩
    exact hl _ ((hmem c).mp hc).1 _ ((hmem c).mp hc).2 rfl

/-- The loop over the rows, when no counter wraps around. -/
theorem warpPerRow_adds {fuel : ℕ} {t : TaskParams} (B : GpuBlock) (hrows : t.rows + B.nw ≤ 2 ^ 32)
    (hfuel : t.rows < fuel) {n : ℕ} {columns : List ℕ} (hcols : columns = List.range n)
    (ha : ColumnsApart t n) {acc : ℕ → ℕ → ℕ → K} {v : ℕ → ℕ → K}
    (hdot : ∀ r < t.rows, ∀ p < n, ∑ lane ∈ Finset.range 32, acc r p lane = v r p) (y : Loc → K) :
    ∃ y', warpPerRow (.exact bits) fuel t B columns acc y = some y' ∧ AddsDots t n v y y' := by
  subst hcols
  let cellsOf (r : ℕ) : List (ℕ × ℕ) := (List.range n).map fun p => (r, p)
  have hvisited : ((List.range B.nw).mapM fun warp => do
      let rows ← loop32 t.rows B.nw fuel warp
      pure (rows.flatMap cellsOf)) =
        some ((List.range B.nw).map fun warp => (strided warp t.rows B.nw).flatMap cellsOf) := by
    apply mapM_some
    intro warp _
    rw [loop32_eq B.nw_pos hrows (by omega)]
    rfl
  have hperm : (B.sched ((List.range B.nw).map fun warp =>
      (strided warp t.rows B.nw).flatMap cellsOf)).Perm (List.range t.rows ×ˢ List.range n) := by
    apply (B.sched_perm _).trans
    rw [← List.flatMap_def, ← List.flatMap_assoc]
    exact (strided_perm B.nw_pos).flatMap_right _
  refine ⟨_, ?_, foldl_addsDots bits ha hperm v y⟩
  rw [warpPerRow, hvisited]
  change some _ = some _
  congr 1
  apply List.foldl_ext
  intro y c hc
  have hmem := hperm.mem_iff.mp hc
  rw [List.mem_product, List.mem_range, List.mem_range] at hmem
  rw [← hdot c.1 hmem.1 c.2 hmem.2]
  congr 1
  exact warpReduceAdd_sum (acc c.1 c.2)

/-! ## The column split -/

theorem out_zero (t : TaskParams) (r : ℕ) : t.out 0 r = t.y.add r := by
  rw [TaskParams.out, Nat.zero_mul, Nat.zero_add]

/-- What a thread of the column split holds. -/
theorem colsplit_thread (row : ℕ → UInt8) (x : ℕ → K) (cols s lane : ℕ) :
    (strided lane cols s).foldl
        (fun acc c => (Arith.exact bits).fma ((Arith.exact bits).ofBits (le32 row (4 * c))) (x c) acc)
        (Arith.exact bits).zero =
      ∑ k ∈ Finset.range ((cols - lane + s - 1) / s),
        value (.exact bits) .F32 row (lane + k * s) * x (lane + k * s) := by
  rw [strided, List.foldl_map, ← iter_eq_foldl, iter_adds _ fun k _ a => add_comm _ a,
    Arith.exact_zero, zero_add]
  simp only [value_f32, Arith.exact_ofBits]

/-- Thread `l` of group `g`. -/
theorem group_index {s l : ℕ} (hl : l < s) (g : ℕ) : (g * s + l) / s = g ∧ (g * s + l) % s = l := by
  constructor
  · rw [Nat.mul_comm, Nat.mul_add_div (by omega), Nat.div_eq_of_lt hl, Nat.add_zero]
  · rw [Nat.mul_comm, Nat.mul_add_mod, Nat.mod_eq_of_lt hl]

theorem group_lt {rows s threads g l : ℕ} (hfit : rows * s ≤ threads) (hg : g < rows)
    (hl : l < s) : g * s + l < threads := by
  calc g * s + l < (g + 1) * s := by
        rw [Nat.succ_mul]
        omega
    _ ≤ rows * s := Nat.mul_le_mul_right _ hg
    _ ≤ threads := hfit

/-- Rounds in which the first threads of each group take what is `s` further on. -/
theorem colsplit_group {rows threads k : ℕ} (hfit : rows * 2 ^ k ≤ threads) {f : ℕ → (ℕ → K) → ℕ → K}
    (hf : ∀ s red tid, f s red tid =
      if tid < threads ∧ tid % 2 ^ k < s ∧ tid / 2 ^ k < rows then
        red (tid / 2 ^ k * 2 ^ k + tid % 2 ^ k) + red (tid / 2 ^ k * 2 ^ k + tid % 2 ^ k + s)
      else red tid) (red : ℕ → K) {g : ℕ} (hg : g < rows) :
    iterHalf k red f (g * 2 ^ k) = ∑ l ∈ Finset.range (2 ^ k), red (g * 2 ^ k + l) := by
  -- the entries of the group alone
  have hgroup : (fun l => iterHalf k red f (g * 2 ^ k + l)) =
      iterHalf k (fun l => red (g * 2 ^ k + l)) fun s a l =>
        if g * 2 ^ k + l < threads ∧ (g * 2 ^ k + l) % 2 ^ k < s ∧ (g * 2 ^ k + l) / 2 ^ k < rows then
          a l + a (l + s) else a l := by
    apply iter_hom fun (a : ℕ → K) l => a (g * 2 ^ k + l)
    intro i _ a
    funext l
    rw [hf, Nat.div_add_mod', Nat.add_assoc]
  have hfirst := congrFun hgroup 0
  rw [Nat.add_zero] at hfirst
  rw [hfirst]
  apply iterHalf_sum fun l => red (g * 2 ^ k + l)
  intro s hs a l hl
  obtain ⟨hdiv, hmod⟩ := group_index (show l < 2 ^ k by omega) g
  have hlt := group_lt hfit hg (show l < 2 ^ k by omega)
  rw [if_pos ⟨hlt, hmod.symm ▸ hl, hdiv.symm ▸ hg⟩]

/-- A loop of additions at the outputs of the rows, one thread to each. -/
theorem colsplit_store {t : TaskParams} {threads s : ℕ} (hs : 0 < s) (hfit : t.rows * s ≤ threads)
    (v : ℕ → K) (y : Loc → K) :
    AddsDots t 1 (fun r _ => v r) y (iter threads y fun tid y =>
      if tid % s = 0 ∧ tid / s < t.rows then
        addAt (.exact bits) y (t.y.add (tid / s)) (v (tid / s)) else y) := by
  -- what happens at one place
  have hplace : ∀ l, iter threads y (fun tid y =>
      if tid % s = 0 ∧ tid / s < t.rows then
        addAt (.exact bits) y (t.y.add (tid / s)) (v (tid / s)) else y) l =
      y l + ∑ tid ∈ Finset.range threads,
        if (tid % s = 0 ∧ tid / s < t.rows) ∧ l = t.y.add (tid / s) then v (tid / s) else 0 := by
    intro l
    apply iter_hom_adds fun y : Loc → K => y l
    intro tid _ y
    by_cases hc : tid % s = 0 ∧ tid / s < t.rows
    · by_cases hl : l = t.y.add (tid / s)
      · simp [hc, hl, addAt]
      · simp [hc, hl, addAt]
    · simp [hc]
  constructor
  · intro r hr p hp
    obtain rfl : p = 0 := by omega
    have hlt : r * s < threads := by
      calc r * s < t.rows * s := Nat.mul_lt_mul_of_pos_right hr hs
        _ ≤ threads := hfit
    rw [hplace, out_zero, Finset.sum_eq_single (r * s)]
    · simp [Nat.mul_div_cancel r hs, hr]
    · intro tid _ hne
      apply if_neg
      rintro ⟨⟨hmod, -⟩, hl⟩
      have hoff := congrArg Loc.off hl
      simp only [Loc.off_add] at hoff
      have hdiv := Nat.div_add_mod' tid s
      apply hne
      rw [← hdiv, hmod, Nat.add_zero]
      congr 1
      omega
    · intro hno
      exact absurd (Finset.mem_range.mpr hlt) hno
  · intro l hl
    rw [hplace, Finset.sum_eq_zero, add_zero]
    intro tid _
    apply if_neg
    rintro ⟨⟨-, hrow⟩, heq⟩
    exact hl _ hrow 0 Nat.one_pos (heq.trans (out_zero t _).symm)

theorem streamDotColsplit_adds (m : TileMem K) {fuel : ℕ} {t : TaskParams} (B : GpuBlock)
    (hguard : 2 ≤ B.blockDim / t.rows) (hcols : t.cols + colsplitTpr t B ≤ 2 ^ 32)
    (hfuel : t.cols < fuel) (red : ℕ → K) (y : Loc → K) :
    ∃ y', streamDotColsplit (.exact bits) m fuel t B red y = some y' ∧
      AddsDots t 1 (fun r _ => dotRowAny (.exact bits) .F32
        (m.row (t.w.add (r * rowBytes .F32 t.cols))) (m.col t.x) t.cols) y y' := by
  have hpos : 0 < colsplitTpr t B := Nat.two_pow_pos _
  have hfit : t.rows * colsplitTpr t B ≤ B.blockDim := by
    calc t.rows * colsplitTpr t B ≤ t.rows * (B.blockDim / t.rows) :=
          Nat.mul_le_mul_left _ (Nat.log2_self_le (by omega))
      _ ≤ B.blockDim := Nat.mul_div_le _ _
  have hvisited : ((List.range B.blockDim).mapM fun tid =>
      loop32 t.cols (colsplitTpr t B) fuel (tid % colsplitTpr t B)) =
        some ((List.range B.blockDim).map fun tid =>
          strided (tid % colsplitTpr t B) t.cols (colsplitTpr t B)) := by
    apply mapM_some
    intro tid _
    exact loop32_eq hpos hcols (by omega)
  -- what a thread puts into the shared array, and what the rounds make of it
  let acc (tid : ℕ) : K :=
    if tid / colsplitTpr t B < t.rows then
      (((List.range B.blockDim).map fun tid =>
          strided (tid % colsplitTpr t B) t.cols (colsplitTpr t B)).getD tid []).foldl
        (fun acc c => (Arith.exact bits).fma ((Arith.exact bits).ofBits
          (le32 (m.row (t.w.add (tid / colsplitTpr t B * (4 * t.cols)))) (4 * c))) (m.col t.x c) acc)
        (Arith.exact bits).zero
    else (Arith.exact bits).zero
  let after : ℕ → K := iterHalf (Nat.log2 (colsplitTpr t B))
    (fun tid => if tid < B.blockDim then acc tid else red tid) fun s red tid =>
      if tid < B.blockDim ∧ tid % colsplitTpr t B < s ∧ tid / colsplitTpr t B < t.rows then
        (Arith.exact bits).add (red (tid / colsplitTpr t B * colsplitTpr t B + tid % colsplitTpr t B))
          (red (tid / colsplitTpr t B * colsplitTpr t B + tid % colsplitTpr t B + s))
      else red tid
  have hrun : streamDotColsplit (.exact bits) m fuel t B red y =
      some (iter B.blockDim y fun tid y =>
        if tid % colsplitTpr t B = 0 ∧ tid / colsplitTpr t B < t.rows then
          addAt (.exact bits) y (t.y.add (tid / colsplitTpr t B))
            (after (tid / colsplitTpr t B * colsplitTpr t B))
        else y) := by
    rw [streamDotColsplit, hvisited]
    rfl
  have hlog : Nat.log2 (colsplitTpr t B) = Nat.log2 (B.blockDim / t.rows) := Nat.log2_two_pow
  refine ⟨_, hrun, (colsplit_store bits hpos hfit (fun g => after (g * colsplitTpr t B)) y).congr ?_⟩
  intro g hg _ _
  have hafter : after (g * colsplitTpr t B) = ∑ l ∈ Finset.range (colsplitTpr t B),
      acc (g * colsplitTpr t B + l) := by
    simp only [after, hlog]
    apply (colsplit_group (k := Nat.log2 (B.blockDim / t.rows)) hfit (fun _ _ _ => rfl) _ hg).trans
    apply Finset.sum_congr rfl
    intro l hl
    exact if_pos (group_lt hfit hg (Finset.mem_range.mp hl))
  have hthread : ∀ l ∈ Finset.range (colsplitTpr t B), acc (g * colsplitTpr t B + l) =
      ∑ k ∈ Finset.range ((t.cols - l + colsplitTpr t B - 1) / colsplitTpr t B),
        value (.exact bits) .F32 (m.row (t.w.add (g * (4 * t.cols)))) (l + k * colsplitTpr t B) *
          m.col t.x (l + k * colsplitTpr t B) := by
    intro l hl
    have hl' := Finset.mem_range.mp hl
    obtain ⟨hdiv, hmod⟩ := group_index hl' g
    have hlt := group_lt hfit hg hl'
    simp only [acc]
    rw [hdiv, if_pos hg, List.getD_eq_getElem _ _ (by simpa using hlt), List.getElem_map,
      List.getElem_range, hmod]
    exact colsplit_thread bits _ _ _ _ _
  rw [hafter, Finset.sum_congr rfl hthread, sum_lanes hpos fun c =>
    value (.exact bits) .F32 (m.row (t.w.add (g * (4 * t.cols)))) c * m.col t.x c,
    dotRowAny_exact bits .F32 _ _ (one_dvd _)]
  simp only [rowBytes, blkElems, blkBytes, Nat.div_one, Nat.mul_comm t.cols 4]

end

/-! ## All kernels -/

/-- Chunks of four columns are all columns. -/
theorem mcColumns_eq (nx : ℕ) : mcColumns nx = List.range nx := by
  have hchunks : ∀ c, ((List.range c).flatMap fun k =>
      (List.range (min 4 (nx - (0 + k * 4)))).map fun pp => 0 + k * 4 + pp) =
        List.range (min nx (4 * c)) := by
    intro c
    induction c with
    | zero => simp
    | succ c ih =>
      rw [List.range_succ, List.flatMap_append, ih, List.flatMap_singleton, Nat.zero_add]
      rcases Nat.le_total nx (4 * c) with hle | hge
      · have h1 : min 4 (nx - c * 4) = 0 := by omega
        have h2 : min nx (4 * c) = min nx (4 * (c + 1)) := by omega
        rw [h1, h2]
        exact List.append_nil _
      · have h1 : min nx (4 * c) = c * 4 := by omega
        have h2 : min nx (4 * (c + 1)) = c * 4 + min 4 (nx - c * 4) := by omega
        rw [h1, h2, List.range_add]
  rw [mcColumns, strided, List.flatMap_map, hchunks]
  congr 1
  omega

/-- The kernels that add dot products, under the names of the functions. -/
inductive GpuKernel
  | gdotF32 | gdotQ80 | gdotQ50 | gdotQ4K | gdotQ6K | gdotIq2Xxs | gdotIq3Xxs
  | streamDotColsplit
  | gdotI8Q80 | gdotI8Q50 | gdotI8Q4KV1 | gdotI8Q6K | gdotI8Iq2Xxs | gdotI8Iq3Xxs
  | gdotI8kQ4K | gdotI8kQ4KMc | gdotI8kQ6K
  deriving DecidableEq

namespace GpuKernel

/-- The format a kernel reads. -/
def fmt : GpuKernel → Fmt
  | gdotF32 | streamDotColsplit => .F32
  | gdotQ80 | gdotI8Q80 => .Q8_0
  | gdotQ50 | gdotI8Q50 => .Q5_0
  | gdotQ4K | gdotI8Q4KV1 | gdotI8kQ4K | gdotI8kQ4KMc => .Q4_K
  | gdotQ6K | gdotI8Q6K | gdotI8kQ6K => .Q6_K
  | gdotIq2Xxs | gdotI8Iq2Xxs => .IQ2_XXS
  | gdotIq3Xxs | gdotI8Iq3Xxs => .IQ3_XXS

/-- The elements a kernel reads at a time. -/
def unit : GpuKernel → ℕ
  | gdotF32 => 4
  | k => blkElems k.fmt

/-- The columns a kernel works on. -/
def columns (t : TaskParams) : GpuKernel → ℕ
  | gdotI8kQ4KMc => t.nx
  | _ => 1

/-- Kernels that read q8_K superblocks. -/
def readsQ8K : GpuKernel → Bool
  | gdotI8kQ4K | gdotI8kQ4KMc | gdotI8kQ6K => true
  | _ => false

section
variable {F : Type} (A : Arith F)

/-- A kernel on a tile. -/
def run (k : GpuKernel) (m : TileMem F) (fuel : ℕ) (t : TaskParams) (B : GpuBlock) (red : ℕ → F) :
    (Loc → F) → Option (Loc → F) :=
  match k with
  | gdotF32 => FastLlm.gdotF32 A m fuel t B
  | gdotQ80 => FastLlm.gdotQ80 A m fuel t B
  | gdotQ50 => FastLlm.gdotQ50 A m fuel t B
  | gdotQ4K => FastLlm.gdotQ4K A m fuel t B
  | gdotQ6K => FastLlm.gdotQ6K A m fuel t B
  | gdotIq2Xxs => FastLlm.gdotIq2Xxs A m fuel t B
  | gdotIq3Xxs => FastLlm.gdotIq3Xxs A m fuel t B
  | streamDotColsplit => FastLlm.streamDotColsplit A m fuel t B red
  | gdotI8Q80 => FastLlm.gdotI8Q80 A m fuel t B
  | gdotI8Q50 => FastLlm.gdotI8Q50 A m fuel t B
  | gdotI8Q4KV1 => FastLlm.gdotI8Q4KV1 A m fuel t B
  | gdotI8Q6K => FastLlm.gdotI8Q6K A m fuel t B
  | gdotI8Iq2Xxs => FastLlm.gdotI8Iq2Xxs A m fuel t B
  | gdotI8Iq3Xxs => FastLlm.gdotI8Iq3Xxs A m fuel t B
  | gdotI8kQ4K => FastLlm.gdotI8kQ4K A m fuel t B
  | gdotI8kQ4KMc => FastLlm.gdotI8kQ4KMc A m fuel t B
  | gdotI8kQ6K => FastLlm.gdotI8kQ6K A m fuel t B

/-- The activation a kernel multiplies with: the floats of the column, or what its q8_1 or q8_K
blocks stand for. -/
def act (k : GpuKernel) (m : TileMem F) (x : Loc) (cols : ℕ) : ℕ → F :=
  match k with
  | gdotF32 | gdotQ80 | gdotQ50 | gdotQ4K | gdotQ6K | gdotIq2Xxs | gdotIq3Xxs
  | streamDotColsplit => m.col x
  | gdotI8Q80 | gdotI8Q50 | gdotI8Q4KV1 | gdotI8Q6K | gdotI8Iq2Xxs | gdotI8Iq3Xxs =>
    deq81 A (m.xq x cols)
  | gdotI8kQ4K | gdotI8kQ4KMc | gdotI8kQ6K => deq8K A (m.xqk x cols)

end

/-- What the callers see to: whole blocks, q8_K superblocks as `ACT_Q8` leaves them, two threads for
each row of a column split, and columns that do not share an output. -/
structure Ready {F : Type} (k : GpuKernel) (m : TileMem F) (t : TaskParams) (B : GpuBlock) :
    Prop where
  cols : k.unit ∣ t.cols
  sums : k.readsQ8K → ∀ p < k.columns t, ∀ b < t.cols / 256, (m.xqk (t.inCol p) t.cols b).SumsOk
  guard : k = streamDotColsplit → 2 ≤ B.blockDim / t.rows
  tile : k = gdotI8kQ4KMc → DotTile t

/-- The counter of the rows, or of the columns of a column split, gets to its end. -/
def CountersFit (t : TaskParams) (B : GpuBlock) : GpuKernel → Prop
  | streamDotColsplit => t.cols + colsplitTpr t B ≤ 2 ^ 32
  | _ => t.rows + B.nw ≤ 2 ^ 32

end GpuKernel

section
variable {K : Type} [Field K] (bits : UInt32 → K)

@[simp] theorem inCol_zero (t : TaskParams) : t.inCol 0 = t.x := by
  rw [TaskParams.inCol, Nat.zero_mul, Loc.add_zero]

/-- What the kernel is to add for a row and a column. -/
def GpuKernel.dot (k : GpuKernel) (m : TileMem K) (t : TaskParams) (r p : ℕ) : K :=
  dotRowAny (.exact bits) k.fmt (m.row (t.w.add (r * rowBytes k.fmt t.cols)))
    (k.act (.exact bits) m (t.inCol p) t.cols) t.cols

/-- The kernels that deal the rows to the warps, for one column. -/
theorem GpuKernel.run_one (k : GpuKernel) {m : TileMem K} {fuel : ℕ} {t : TaskParams}
    {B : GpuBlock} (hrows : t.rows + B.nw ≤ 2 ^ 32) (hfuel : t.rows < fuel) {red : ℕ → K}
    {acc : ℕ → ℕ → K} (hcol : k.columns t = 1)
    (hrun : k.run (.exact bits) m fuel t B red = warpPerRow (.exact bits) fuel t B [0] fun r _ => acc r)
    (hdot : ∀ r, ∑ lane ∈ Finset.range 32, acc r lane =
      dotRowAny (.exact bits) k.fmt (m.row (t.w.add (r * rowBytes k.fmt t.cols)))
        (k.act (.exact bits) m t.x t.cols) t.cols) (y : Loc → K) :
    ∃ y', k.run (.exact bits) m fuel t B red y = some y' ∧
      AddsDots t (k.columns t) (k.dot bits m t) y y' := by
  rw [hcol, hrun]
  apply warpPerRow_adds bits B hrows hfuel (n := 1) rfl (columnsApart_one t)
  intro r _ p hp
  obtain rfl : p = 0 := by omega
  rw [GpuKernel.dot, inCol_zero]
  exact hdot r

/-- The lanes of the kernels for floats. -/
theorem lanes_of_laneDot {f : Fmt} (hf : 32 ∣ blkElems f) {row : ℕ → UInt8} {x : ℕ → K} {cols : ℕ}
    (hc : blkElems f ∣ cols) {lane : ℕ → K}
    (h : ∀ l < 32, lane l = laneDot bits f row x cols l) :
    ∑ l ∈ Finset.range 32, lane l = dotRowAny (.exact bits) f row x cols := by
  rw [Finset.sum_congr rfl fun l hl => h l (Finset.mem_range.mp hl), lanes_exact bits hf row x hc]

/-- Every kernel adds to every output of the tile the dot product of the canonical kernel, on the
floats or on the dequantized activation, and changes nothing else, for every order in which the
warps add and whatever the shared memory holds. -/
theorem gpu_adds_dots (k : GpuKernel) {m : TileMem K} {fuel : ℕ} {t : TaskParams} {B : GpuBlock}
    (hready : k.Ready m t B) (hfit : k.CountersFit t B) (hfuel : max t.rows t.cols < fuel)
    (red : ℕ → K) (y : Loc → K) :
    ∃ y', k.run (.exact bits) m fuel t B red y = some y' ∧
      AddsDots t (k.columns t) (k.dot bits m t) y y' := by
  obtain ⟨hc, hsums, hguard, htile⟩ := hready
  have hrows : t.rows < fuel := (Nat.le_max_left _ _).trans_lt hfuel
  have hg2 : ∀ i < 256, B.stage 256 kIq2xxsGrid B.g2 i = kIq2xxsGrid i :=
    fun i hi => B.stage_apply _ _ hi
  have hg3 : ∀ i < 256, B.stage 256 kIq3xxsGrid B.g3 i = kIq3xxsGrid i :=
    fun i hi => B.stage_apply _ _ hi
  have hsgn : ∀ i < 128, B.stage 128 kIqSigns B.sgn i = kIqSigns i :=
    fun i hi => B.stage_apply _ _ hi
  have hsums0 : k.readsQ8K → k.columns t = 1 →
      ∀ b < t.cols / 256, (m.xqk t.x t.cols b).SumsOk := by
    intro hk hone
    rw [← inCol_zero t]
    exact hsums hk 0 (by omega)
  cases k with
  | gdotF32 =>
    apply GpuKernel.run_one bits .gdotF32 hfit hrows rfl (by rw [GpuKernel.run, gdotF32])
    intro r
    rw [gdotF32_lanes bits _ _ hc]
    simp only [GpuKernel.fmt, GpuKernel.act, rowBytes, blkElems, blkBytes, Nat.div_one,
      Nat.mul_comm t.cols 4]
  | gdotQ80 =>
    apply GpuKernel.run_one bits .gdotQ80 hfit hrows rfl (by rw [GpuKernel.run, gdotQ80])
    intro r
    exact lanes_of_laneDot bits (by decide) hc fun l _ => gdotQ80Lane_eq bits _ _ _ l
  | gdotQ50 =>
    apply GpuKernel.run_one bits .gdotQ50 hfit hrows rfl (by rw [GpuKernel.run, gdotQ50])
    intro r
    exact lanes_of_laneDot bits (by decide) hc fun l hl => gdotQ50Lane_eq bits _ _ _ hl
  | gdotQ4K =>
    apply GpuKernel.run_one bits .gdotQ4K hfit hrows rfl (by rw [GpuKernel.run, gdotQ4K])
    intro r
    exact lanes_of_laneDot bits (by decide) hc fun l hl => gdotQ4KLane_eq bits _ _ _ hl
  | gdotQ6K =>
    apply GpuKernel.run_one bits .gdotQ6K hfit hrows rfl (by rw [GpuKernel.run, gdotQ6K])
    intro r
    exact lanes_of_laneDot bits (by decide) hc fun l hl => gdotQ6KLane_eq bits _ _ _ hl
  | gdotIq2Xxs =>
    apply GpuKernel.run_one bits .gdotIq2Xxs hfit hrows rfl (by rw [GpuKernel.run, gdotIq2Xxs])
    intro r
    exact lanes_of_laneDot bits (by decide) hc fun l hl =>
      gdotIq2XxsLane_eq bits hg2 hsgn _ _ _ hl
  | gdotIq3Xxs =>
    apply GpuKernel.run_one bits .gdotIq3Xxs hfit hrows rfl (by rw [GpuKernel.run, gdotIq3Xxs])
    intro r
    exact lanes_of_laneDot bits (by decide) hc fun l hl =>
      gdotIq3XxsLane_eq bits hg3 hsgn _ _ _ hl
  | streamDotColsplit =>
    have hcolumns : t.cols < fuel := (Nat.le_max_right _ _).trans_lt hfuel
    obtain ⟨y', hrun, hadds⟩ := streamDotColsplit_adds bits m B (hguard rfl) hfit hcolumns red y
    refine ⟨y', hrun, hadds.congr ?_⟩
    intro r _ p hp
    obtain rfl : p = 0 := by omega
    rw [GpuKernel.dot, inCol_zero]
    rfl
  | gdotI8Q80 =>
    apply GpuKernel.run_one bits .gdotI8Q80 hfit hrows rfl (by rw [GpuKernel.run, gdotI8Q80])
    intro r
    exact gdotI8Q80_lanes bits _ _ hc
  | gdotI8Q50 =>
    apply GpuKernel.run_one bits .gdotI8Q50 hfit hrows rfl (by rw [GpuKernel.run, gdotI8Q50])
    intro r
    exact gdotI8Q50_lanes bits _ _ hc
  | gdotI8Q4KV1 =>
    apply GpuKernel.run_one bits .gdotI8Q4KV1 hfit hrows rfl (by rw [GpuKernel.run, gdotI8Q4KV1])
    intro r
    exact gdotI8Q4KV1_lanes bits _ _ hc
  | gdotI8Q6K =>
    apply GpuKernel.run_one bits .gdotI8Q6K hfit hrows rfl (by rw [GpuKernel.run, gdotI8Q6K])
    intro r
    exact gdotI8Q6K_lanes bits _ _ hc
  | gdotI8Iq2Xxs =>
    apply GpuKernel.run_one bits .gdotI8Iq2Xxs hfit hrows rfl (by rw [GpuKernel.run, gdotI8Iq2Xxs])
    intro r
    exact gdotI8Iq2Xxs_lanes bits hg2 hsgn _ _ hc
  | gdotI8Iq3Xxs =>
    apply GpuKernel.run_one bits .gdotI8Iq3Xxs hfit hrows rfl (by rw [GpuKernel.run, gdotI8Iq3Xxs])
    intro r
    exact gdotI8Iq3Xxs_lanes bits hg3 hsgn _ _ hc
  | gdotI8kQ4K =>
    apply GpuKernel.run_one bits .gdotI8kQ4K hfit hrows rfl (by rw [GpuKernel.run, gdotI8kQ4K])
    intro r
    exact gdotI8kQ4K_lanes bits _ _ hc (hsums0 rfl rfl)
  | gdotI8kQ6K =>
    apply GpuKernel.run_one bits .gdotI8kQ6K hfit hrows rfl (by rw [GpuKernel.run, gdotI8kQ6K])
    intro r
    exact gdotI8kQ6K_lanes bits _ _ hc (hsums0 rfl rfl)
  | gdotI8kQ4KMc =>
    have ht := htile rfl
    rw [GpuKernel.run, gdotI8kQ4KMc]
    apply warpPerRow_adds bits B hfit hrows (mcColumns_eq t.nx) ht.disjoint
    intro r _ p hp
    have hp' : p % 4 < min 4 (t.nx - p / 4 * 4) := by omega
    rw [Finset.sum_congr rfl fun lane _ => gdotI8kQ4KMcLane_eq _ _ _ _ _ hp' lane,
      Nat.div_add_mod']
    exact gdotI8kQ4K_lanes bits _ _ hc (hsums rfl p hp)

end

/-- A block of eight warps that add one after the other. -/
def eightWarps : GpuBlock where
  nw := 8
  nw_pos := by decide
  sched := List.flatten
  sched_perm l := .refl l.flatten
  g2 _ := 0
  g3 _ := 0
  sgn _ := 0

/-- Every activation is one, as a float and in its blocks. -/
def onesMem : TileMem ℚ :=
  ⟨fun p => UInt8.ofNat p.byte, fun _ => 1, fun _ => ⟨1, 1, fun _ => 1⟩,
    fun _ => ⟨1, fun _ => 16, fun _ => 1⟩, fun _ => 0⟩

/-- Three rows of one superblock, for two columns. -/
theorem gpu_adds_dots_mc :
    let t : TaskParams :=
      { fmt := .Q4_K, rows := 3, cols := 256, nx := 2, xstride := 1000, ystride := 3 }
    ∃ y', GpuKernel.gdotI8kQ4KMc.run (.exact f32Value) onesMem 300 t eightWarps (fun _ => 0)
        (fun _ => 0) = some y' ∧
      AddsDots t 2 (GpuKernel.gdotI8kQ4KMc.dot f32Value onesMem t) (fun _ => 0) y' := by
  intro t
  have ht : DotTile t := ⟨by decide, by decide, by decide, by decide, by decide⟩
  have hsums : ∀ l, (onesMem.q8K l).SumsOk := by
    intro l g _
    change (16 : ℤ) = ∑ _i ∈ Finset.range 16, i8 1
    simp [i8_one]
  have hready : GpuKernel.gdotI8kQ4KMc.Ready onesMem t eightWarps :=
    ⟨by decide, fun _ _ _ _ _ => hsums _, nofun, fun _ => ht⟩
  have hfit : t.rows + eightWarps.nw ≤ 2 ^ 32 := by decide
  exact gpu_adds_dots f32Value .gdotI8kQ4KMc hready hfit (by decide) _ _

/-- A warp whose counter comes back to where it was does not finish. -/
theorem warpPerRow_eq_none {F : Type} (A : Arith F) (fuel : ℕ) {t : TaskParams} {B : GpuBlock}
    (hs : B.nw ∣ 2 ^ 32) (hwrap : 2 ^ 32 < t.rows + B.nw) (columns : List ℕ)
    (acc : ℕ → ℕ → ℕ → F) (y : Loc → F) : warpPerRow A fuel t B columns acc y = none := by
  obtain ⟨n, hn⟩ : ∃ n, B.nw = n + 1 := ⟨B.nw - 1, by have := B.nw_pos; omega⟩
  have hfirst : loop32 t.rows B.nw fuel 0 = none :=
    loop32_eq_none hs hwrap fuel (by omega) (dvd_zero _)
  have hrange : List.range B.nw = 0 :: (List.range n).map Nat.succ := by
    rw [hn, List.range_succ_eq_map]
  rw [warpPerRow, hrange, List.mapM_cons, hfirst]
  rfl

/-- A tile of `2 ^ 32 - 1` rows is never finished by eight warps. -/
theorem gdotF32_wraps :
    let t : TaskParams := { fmt := .F32, rows := 2 ^ 32 - 1, cols := 4 }
    GpuKernel.gdotF32.Ready onesMem t eightWarps ∧
      ∀ fuel red y, GpuKernel.gdotF32.run (.exact f32Value) onesMem fuel t eightWarps red y = none := by
  intro t
  refine ⟨⟨by decide, nofun, nofun, nofun⟩, ?_⟩
  intro fuel red y
  have hwarps : eightWarps.nw ∣ 2 ^ 32 := by decide
  have hwrap : 2 ^ 32 < t.rows + eightWarps.nw := by decide
  rw [GpuKernel.run, gdotF32]
  exact warpPerRow_eq_none _ fuel hwarps hwrap [0] _ y

end FastLlm
