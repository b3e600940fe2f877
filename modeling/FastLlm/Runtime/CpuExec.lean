import FastLlm.Runtime.FastDot
import FastLlm.Runtime.ShadowCache
import FastLlm.Runtime.ShadowDot
import FastLlm.Runtime.Task
import Mathlib.Data.List.ProdSigma

/-!
# Tiles on the CPU

`exec_task_scalar` and `exec_task_cpu` on a dot product tile, in the portable build: the resolution
of an expert, the choice of a kernel, and the loops over rows and columns.  A tile reads weights,
activations and an expert slot, and adds to its outputs; the two are kept apart.

Whatever kernel is chosen, a tile is the addition of one value to each of its outputs, in some
order (`execDotCpu_eq`).  The value depends on the row and on the column alone, so that a tile of
several columns is the tiles of its columns, executed in any order (`execDot_columns`).

## Main definitions

* `TileMem` — what a tile reads.
* `RegSpan`, `flShadowFind` — the registered shadows.
* `CpuConfig`, `execDotScalar`, `execDotCpu` — the executors.
* `addTile`, `cpuDot` — a tile as additions, and the value it adds.
* `DotTile` — the tiles the graph is built of; `column` — one column of a tile.
-/

namespace FastLlm

theorem BytePtr.add_add (p : BytePtr) (a b : ℕ) : (p.add a).add b = p.add (a + b) := by
  simp only [BytePtr.add, Nat.add_assoc]

/-- What a tile reads, by address. -/
structure TileMem (F : Type) where
  byte : BytePtr → UInt8
  f32 : Loc → F
  q81 : Loc → BlkQ81
  q8K : Loc → BlkQ8K F
  id : Loc → UInt32

namespace TileMem
variable {F : Type} (m : TileMem F)

/-- The bytes from `w` on. -/
def row (w : BytePtr) : ℕ → UInt8 := fun i => m.byte (w.add i)

/-- The floats from `x` on. -/
def col (x : Loc) : ℕ → F := fun i => m.f32 (x.add i)

/-- `fl_xq_of`. -/
def xq (x : Loc) (cols : ℕ) : ℕ → BlkQ81 := fun b => m.q81 (x.add (xqOf cols / 4 + b * 9))

/-- `fl_xqk_of`. -/
def xqk (x : Loc) (cols : ℕ) : ℕ → BlkQ8K F := fun b => m.q8K (x.add (xqkOf cols / 4 + b * 73))

end TileMem

/-- The weights of a tile: of a `STREAM_DOT_IDX` those of the expert in its slot, as `fl_idx_w`
finds them. -/
def tileW {F : Type} (m : TileMem F) (t : TaskParams) : BytePtr :=
  match t.kind, t.aux with
  | .STREAM_DOT_IDX, some (.idSlot p) => t.w.add ((m.id p).toNat * t.aux2)
  | _, _ => t.w

/-- `t.nx ? t.nx : 1`. -/
def TaskParams.columns (t : TaskParams) : ℕ := if t.nx ≠ 0 then t.nx else 1

/-- `y[p * ystride + r]`. -/
def TaskParams.out (t : TaskParams) (p r : ℕ) : Loc := t.y.add (p * t.ystride + r)

/-- `x + p * xstride`. -/
def TaskParams.inCol (t : TaskParams) (p : ℕ) : Loc := t.x.add (p * t.xstride)

/-! ## Registered shadows -/

/-- A registered span, with the address of its packed bytes. -/
structure RegSpan extends ShadowSpan where
  base : BytePtr

/-- Addresses ascend from allocation to allocation. -/
def BytePtr.lt (p q : BytePtr) : Bool := p.obj < q.obj || (p.obj == q.obj && p.byte < q.byte)

/-- `base <= p && p < end`. -/
def RegSpan.contains (s : RegSpan) (p : BytePtr) : Bool :=
  !p.lt s.base && p.lt (s.base.add s.packed.length)

/-- `fl_shadow_find`, in a registry sorted by base. -/
def flShadowFind (spans : List RegSpan) (w : BytePtr) : Option RegSpan :=
  (spans.takeWhile fun s => !w.lt s.base).getLast?.filter fun s => s.contains w

/-- `fl_shadow_row`. -/
def flShadowRow (s : RegSpan) (w : BytePtr) : ℕ → UInt8 :=
  off (ptr s.shadow) ((w.byte - s.base.byte) / s.packedRowBytes * s.shadowRowBytes)

/-! ## The executors -/

/-- What `exec_task_cpu` depends on besides the task. -/
structure CpuConfig where
  fast : Bool
  i8Mask : UInt32
  i8kMask : UInt32
  /-- `fl_mc_legacy()`. -/
  mcLegacy : Bool
  /-- `fl_shadow_enabled()`. -/
  shadowEnabled : Bool
  spans : List RegSpan

/-- `(mask >> (int)fmt) & 1u`. -/
def maskBit (mask : UInt32) (f : Fmt) : Bool := (mask >>> UInt32.ofNat f.code) &&& 1 ≠ 0

section
variable {F : Type} (A : Arith F)

/-- `y[p * ystride + r] += v(r, p)` for every row and column. -/
def addTile (t : TaskParams) (v : ℕ → ℕ → F) (y : Loc → F) : Loc → F :=
  iter t.rows y fun r y => iter t.columns y fun p y => addAt A y (t.out p r) (v r p)

/-- `exec_task_scalar` on a dot product tile. -/
def execDotScalar (m : TileMem F) (t : TaskParams) : (Loc → F) → Loc → F :=
  let w := tileW m t
  let rb := rowBytes t.fmt t.cols
  addTile A t fun r p => dotRowAny A t.fmt (m.row (w.add (r * rb))) (m.col (t.inCol p)) t.cols

/-- The loop of `exec_task_cpu` that dequantizes each chunk of a row once for all columns. -/
def execDotShared (m : TileMem F) (t : TaskParams) (y : Loc → F) : Loc → F :=
  let w := tileW m t
  let rb := rowBytes t.fmt t.cols
  iter t.rows y fun r y =>
    let row := m.row (w.add (r * rb))
    let acc := iterStep 0 t.cols 256 (fun _ => A.zero) fun e acc =>
      let n := chunkLen t.cols e
      let buf := dequantChunk A t.fmt row e n fun _ => A.zero
      iter t.columns acc fun p acc =>
        addAt A acc p (dotRowFast A buf (off (m.col (t.inCol p)) e) n)
    iter t.columns y fun p y => addAt A y (t.out p r) (acc p)

/-- `exec_task_cpu` on a dot product tile. -/
def execDotCpu (c : CpuConfig) (m : TileMem F) (t : TaskParams) (y : Loc → F) : Loc → F :=
  if ¬ c.fast then execDotScalar A m t y
  else
    let w := tileW m t
    let rb := rowBytes t.fmt t.cols
    let row (r : ℕ) := m.row (w.add (r * rb))
    -- the q8_K appendix takes precedence
    if (t.fmt = .Q4_K ∨ t.fmt = .Q6_K) ∧ maskBit c.i8kMask t.fmt then
      let xk (p : ℕ) := m.xqk (t.inCol p) t.cols
      match if t.fmt = .Q4_K ∧ c.shadowEnabled then flShadowFind c.spans w else none with
      | some sp =>
        let s0 := flShadowRow sp w
        addTile A t (fun r p =>
          dotI8kQ4KShadow A (off s0 (r * sp.shadowRowBytes)) (xk p) t.cols) y
      | none => addTile A t (fun r p => dotI8kAny A t.fmt (row r) (xk p) t.cols) y
    else if t.fmt ≠ .F32 ∧ maskBit c.i8Mask t.fmt then
      let xq (p : ℕ) := m.xq (t.inCol p) t.cols
      match if t.fmt = .Q5_0 ∧ c.shadowEnabled then flShadowFind c.spans w else none with
      | some sp =>
        let s0 := flShadowRow sp w
        addTile A t (fun r p =>
          dotI8Q50Shadow A (off s0 (r * sp.shadowRowBytes)) (xq p) t.cols) y
      | none => addTile A t (fun r p => dotI8Any A t.fmt (row r) (xq p) t.cols) y
    else if t.columns > 1 ∧ ¬ c.mcLegacy ∧ t.fmt ≠ .F32 ∧ t.fmt ≠ .Q8_0 then
      execDotShared A m t y
    else
      addTile A t (fun r p =>
        let x := m.col (t.inCol p)
        match t.fmt with
        | .F32 => dotRowFast A (fun e => A.ofBits (le32 (row r) (4 * e))) x t.cols
        | .Q8_0 => dotRowFastQ80 A (row r) x t.cols
        | _ => dotRowFastDequant A t.fmt (row r) x t.cols) y

/-! ## A tile as additions -/

/-- The value that `exec_task_cpu` adds for a row and a column. -/
def cpuDot (c : CpuConfig) (m : TileMem F) (t : TaskParams) (r : ℕ) (x : Loc) : F :=
  let w := tileW m t
  let row := m.row (w.add (r * rowBytes t.fmt t.cols))
  if ¬ c.fast then dotRowAny A t.fmt row (m.col x) t.cols
  else if (t.fmt = .Q4_K ∨ t.fmt = .Q6_K) ∧ maskBit c.i8kMask t.fmt then
    match if t.fmt = .Q4_K ∧ c.shadowEnabled then flShadowFind c.spans w else none with
    | some sp =>
      dotI8kQ4KShadow A (off (flShadowRow sp w) (r * sp.shadowRowBytes)) (m.xqk x t.cols) t.cols
    | none => dotI8kAny A t.fmt row (m.xqk x t.cols) t.cols
  else if t.fmt ≠ .F32 ∧ maskBit c.i8Mask t.fmt then
    match if t.fmt = .Q5_0 ∧ c.shadowEnabled then flShadowFind c.spans w else none with
    | some sp =>
      dotI8Q50Shadow A (off (flShadowRow sp w) (r * sp.shadowRowBytes)) (m.xq x t.cols) t.cols
    | none => dotI8Any A t.fmt row (m.xq x t.cols) t.cols
  else
    match t.fmt with
    | .F32 => dotRowFast A (fun e => A.ofBits (le32 row (4 * e))) (m.col x) t.cols
    | .Q8_0 => dotRowFastQ80 A row (m.col x) t.cols
    | _ => dotRowFastDequant A t.fmt row (m.col x) t.cols

/-- Additions at places of their own, seen from one place. -/
theorem iter_addAt (n : ℕ) (a : ℕ → F) (v : ℕ → F) (k : ℕ) :
    iter n a (fun i a => addAt A a i (v i)) k = if k < n then A.add (a k) (v k) else a k :=
  iter_modify n a (fun i b => A.add b (v i)) k

/-- Sharing the buffer among the columns does not change what a column gets. -/
theorem execDotShared_eq (m : TileMem F) (t : TaskParams) (y : Loc → F) :
    execDotShared A m t y = addTile A t (fun r p =>
      dotRowFastDequant A t.fmt (m.row ((tileW m t).add (r * rowBytes t.fmt t.cols)))
        (m.col (t.inCol p)) t.cols) y := by
  rw [execDotShared, addTile]
  apply iter_congr
  intro r _ y
  apply iter_congr
  intro p hp y
  congr 1
  rw [dotRowFastDequant, iterStep, iterStep]
  apply iter_hom (fun acc : ℕ → F => acc p)
  intro k _ acc
  rw [iter_addAt, if_pos hp]

/-- A tile adds `cpuDot` to each of its outputs. -/
theorem execDotCpu_eq (c : CpuConfig) (m : TileMem F) (t : TaskParams) (y : Loc → F) :
    execDotCpu A c m t y = addTile A t (fun r p => cpuDot A c m t r (t.inCol p)) y := by
  unfold execDotCpu cpuDot execDotScalar
  dsimp only
  split_ifs with hfast hk hs hi hs hmc
  · cases flShadowFind c.spans (tileW m t) <;> rfl
  · rfl
  · cases flShadowFind c.spans (tileW m t) <;> rfl
  · rfl
  · obtain ⟨-, -, h1, h2⟩ := hmc
    rw [execDotShared_eq]
    congr 1
    funext r p
    split
    · contradiction
    · contradiction
    · rfl
  · rfl
  · rfl

end

/-! ## Columns -/

/-- A dot product tile as the graph holds it: its columns are a positive number, and no two of
them share an output. -/
structure DotTile (t : TaskParams) : Prop where
  kind : t.kind = .STREAM_DOT ∨ t.kind = .STREAM_DOT_IDX
  nx_pos : 1 ≤ t.nx
  nx_le : t.nx ≤ kMaxDotCols
  cols : blkElems t.fmt ∣ t.cols
  disjoint : ∀ p < t.nx, ∀ q < t.nx, p ≠ q → ∀ r < t.rows, ∀ s < t.rows,
    p * t.ystride + r ≠ q * t.ystride + s

/-- Column `p` of a tile, as a tile of its own. -/
def TaskParams.column (t : TaskParams) (p : ℕ) : TaskParams :=
  { t with nx := 1, x := t.x.add (p * t.xstride), y := t.y.add (p * t.ystride) }

namespace DotTile
variable {t : TaskParams} (ht : DotTile t)
include ht

theorem columns_eq : t.columns = t.nx := by
  have := ht.nx_pos
  rw [TaskParams.columns, if_pos (by omega)]

/-- Every row of every column has an output of its own. -/
theorem out_inj {p q r s : ℕ} (hp : p < t.nx) (hq : q < t.nx) (hr : r < t.rows) (hs : s < t.rows)
    (h : t.out p r = t.out q s) : p = q ∧ r = s := by
  have hoff : p * t.ystride + r = q * t.ystride + s := by
    have := congrArg Loc.off h
    simp only [TaskParams.out, Loc.off_add] at this
    omega
  by_cases hpq : p = q
  · subst hpq
    exact ⟨rfl, by omega⟩
  · exact absurd hoff (ht.disjoint p hp q hq hpq r hr s hs)

end DotTile

section
variable {F : Type} (A : Arith F)

/-- The addition of a tile at the row and column `c`. -/
def addCell (t : TaskParams) (v : ℕ → ℕ → F) (y : Loc → F) (c : ℕ × ℕ) : Loc → F :=
  addAt A y (t.out c.2 c.1) (v c.1 c.2)

theorem foldl_product {α β γ : Type} (l : List α) (l' : List β) (f : γ → α × β → γ) (a : γ) :
    (l ×ˢ l').foldl f a = l.foldl (fun a i => l'.foldl (fun a j => f a (i, j)) a) a := by
  change (l.flatMap fun i => l'.map (Prod.mk i)).foldl f a = _
  rw [List.foldl_flatMap]
  simp only [List.foldl_map]

/-- A tile as the additions at its outputs, row by row. -/
theorem addTile_eq_foldl (t : TaskParams) (v : ℕ → ℕ → F) (y : Loc → F) :
    addTile A t v y =
      (List.range t.rows ×ˢ List.range t.columns).foldl (addCell A t v) y := by
  rw [foldl_product, addTile, iter_eq_foldl]
  congr 1
  funext y r
  exact iter_eq_foldl _ _ _

/-- The tile of one column adds at the outputs of this column. -/
theorem addTile_column (t : TaskParams) {v v' : ℕ → ℕ → F} {p : ℕ} (hv : ∀ r, v' r 0 = v r p)
    (y : Loc → F) :
    addTile A (t.column p) v' y =
      (List.range t.rows).foldl (fun y r => addCell A t v y (r, p)) y := by
  rw [addTile, iter_eq_foldl]
  congr 1
  funext y r
  change iter 1 y _ = _
  rw [iter_one, hv]
  simp only [addCell, TaskParams.out, TaskParams.column, Loc.add_add, Nat.zero_mul, Nat.zero_add]

@[simp] theorem inCol_column (t : TaskParams) (p : ℕ) : (t.column p).inCol 0 = t.inCol p := by
  simp only [TaskParams.inCol, TaskParams.column, Nat.zero_mul, Loc.add_zero]

/-- The order of the additions of a tile does not matter. -/
theorem addTile_columns {t : TaskParams} (ht : DotTile t) {v : ℕ → ℕ → F} {v' : ℕ → ℕ → ℕ → F}
    (hv : ∀ p r, v' p r 0 = v r p) {order : List ℕ} (ho : order.Perm (List.range t.nx))
    (y : Loc → F) :
    addTile A t v y = order.foldl (fun y p => addTile A (t.column p) (v' p) y) y := by
  have hcols : order.foldl (fun y p => addTile A (t.column p) (v' p) y) y =
      ((order ×ˢ List.range t.rows).map Prod.swap).foldl (addCell A t v) y := by
    rw [List.foldl_map, foldl_product]
    congr 1
    funext y p
    exact addTile_column A t (hv p) y
  have hnodup : order.Nodup := ho.nodup_iff.mpr List.nodup_range
  have hperm : (List.range t.rows ×ˢ List.range t.nx).Perm
      ((order ×ˢ List.range t.rows).map Prod.swap) := by
    rw [List.perm_ext_iff_of_nodup (List.nodup_range.product List.nodup_range)
      ((hnodup.product List.nodup_range).map Prod.swap_injective)]
    rintro ⟨r, p⟩
    simp [ho.mem_iff, and_comm]
  rw [addTile_eq_foldl, ht.columns_eq, hcols]
  apply hperm.foldl_eq'
  rintro ⟨r, p⟩ hrp ⟨s, q⟩ hsq z
  simp only [List.mem_product, List.mem_range] at hrp hsq
  by_cases hsame : (r, p) = (s, q)
  · rw [hsame]
  · apply addAt_comm
    intro hout
    obtain ⟨h1, h2⟩ := ht.out_inj hrp.2 hsq.2 hrp.1 hsq.1 hout
    exact hsame (Prod.ext h2 h1)

/-- A tile of several columns does what the tiles of its columns do in any order, whatever the
float operations are: in the canonical executor, and in the CPU executor with any kernels. -/
theorem execDot_columns (c : CpuConfig) (m : TileMem F) {t : TaskParams} (ht : DotTile t)
    {order : List ℕ} (ho : order.Perm (List.range t.nx)) (y : Loc → F) :
    execDotScalar A m t y = order.foldl (fun y p => execDotScalar A m (t.column p) y) y ∧
      execDotCpu A c m t y = order.foldl (fun y p => execDotCpu A c m (t.column p) y) y := by
  constructor
  · apply addTile_columns A ht _ ho
    intro p r
    rw [inCol_column]
    rfl
  · simp only [execDotCpu_eq]
    apply addTile_columns A ht _ ho
    intro p r
    rw [inCol_column]
    rfl

end

/-- Three rows and two columns of Q5_0, the second column first. -/
theorem execDot_columns_two :
    let A : Arith ℚ := .exact fun w => w.toNat
    let m : TileMem ℚ := ⟨fun p => UInt8.ofNat p.byte, fun l => l.off, fun _ => ⟨1, 1, fun _ => 1⟩,
      fun _ => ⟨1, fun _ => 16, fun _ => 1⟩, fun _ => 0⟩
    let t : TaskParams :=
      { fmt := .Q5_0, rows := 3, cols := 32, nx := 2, xstride := 100, ystride := 3 }
    let c : CpuConfig := ⟨true, 0, 0, false, false, []⟩
    execDotScalar A m t (fun _ => 0) =
        [1, 0].foldl (fun y p => execDotScalar A m (t.column p) y) (fun _ => 0) ∧
      execDotCpu A c m t (fun _ => 0) =
        [1, 0].foldl (fun y p => execDotCpu A c m (t.column p) y) (fun _ => 0) := by
  intro A m t c
  have ht : DotTile t := ⟨by decide, by decide, by decide, by decide, by decide⟩
  exact execDot_columns A c m ht (by decide) _

end FastLlm
