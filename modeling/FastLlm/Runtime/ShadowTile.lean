import FastLlm.Runtime.NeonExact
import FastLlm.Runtime.NeonExec

/-!
# Tiles on shadows

A tile whose rows lie in a registered span is executed on the shadow of its rows.  Where the span
is of the plain layout and holds what the builder makes of the packed rows, row `r` of the tile
finds its own shadow (`RegSpan.Covers.q4k`, `RegSpan.Covers.q50`), and the tile adds what it adds
without any registered span (`execDotCpu_shadow`).

## Main definitions

* `RegSpan.Plain` — a span of rows, and their shadow.
* `RegSpan.Covers` — the rows of a tile lie in the span.
-/

namespace FastLlm

/-- The span found is registered, and contains the pointer. -/
theorem flShadowFind_some {spans : List RegSpan} {w : BytePtr} {s : RegSpan}
    (h : flShadowFind spans w = some s) : s ∈ spans ∧ s.contains w := by
  rw [flShadowFind, Option.filter_eq_some_iff] at h
  obtain ⟨hlast, hcon⟩ := h
  have hmem := List.mem_of_getLast? hlast
  exact ⟨(List.takeWhile_sublist _).subset hmem, hcon⟩

section
variable {F : Type}

/-- A span of `n` rows of `cols` elements, with the plain layout, that holds what the builder of
the format makes of the packed rows. -/
structure RegSpan.Plain (s : RegSpan) (m : TileMem F) (f : Fmt) (cols n : ℕ) : Prop where
  smmla : s.smmla = false
  packed_row_bytes : s.packedRowBytes = rowBytes f cols
  shadow_row_bytes : s.shadowRowBytes = shadowRowBytes f cols
  length_packed : s.packed.length = n * rowBytes f cols
  q4k : f = .Q4_K → s.shadow = buildRowsQ4k (m.row s.base) n cols
  q50 : f = .Q5_0 → s.shadow = buildRowsQ50 (m.row s.base) n cols

/-- The rows of a tile, as its expert is resolved, lie in a plain span. -/
def RegSpan.Covers (s : RegSpan) (m : TileMem F) (t : TaskParams) : Prop :=
  ∃ n k, s.Plain m t.fmt t.cols n ∧ tileW m t = s.base.add (k * rowBytes t.fmt t.cols) ∧
    k + t.rows ≤ n

/-- Byte `i` of block `b` of row `r`, in a list of rows of equal blocks. -/
theorem getD_rows {n nb k : ℕ} {f : ℕ → ℕ → List UInt8} (hlen : ∀ r b, (f r b).length = k)
    {r b i : ℕ} (hr : r < n) (hb : b < nb) (hi : i < k) :
    ((List.range n).flatMap fun r => (List.range nb).flatMap (f r)).getD
      (r * (nb * k) + (b * k + i)) 0 = (f r b).getD i 0 := by
  have hrow (r : ℕ) : ((List.range nb).flatMap (f r)).length = nb * k :=
    length_flatMap_range (hlen r)
  have hlt : b * k + i < nb * k := by
    have := Nat.mul_le_mul_right k (Nat.succ_le_of_lt hb)
    rw [Nat.succ_mul] at this
    omega
  rw [getD_flatMap_range hrow hr hlt, getD_flatMap_range (hlen r) hb hi]

namespace RegSpan
variable {s : RegSpan} {m : TileMem F} {t : TaskParams}

/-- A span that contains a pointer has rows that are not empty. -/
theorem Plain.rowBytes_pos {f : Fmt} {cols n : ℕ} (hp : s.Plain m f cols n) {w : BytePtr}
    (hw : s.contains w) : 0 < rowBytes f cols := by
  by_contra h0
  have hlen : s.packed.length = 0 := by rw [hp.length_packed, Nat.eq_zero_of_not_pos h0, Nat.mul_zero]
  simp only [contains, hlen, BytePtr.add, Nat.add_zero, Bool.and_eq_true, Bool.not_eq_true'] at hw
  exact absurd (hw.1.symm.trans hw.2) (by decide)

/-- The shadow of row `r` of a tile, in the span. -/
theorem flShadowRow_apply {n k : ℕ} (hp : s.Plain m t.fmt t.cols n) (hw : s.contains (tileW m t))
    (hk : tileW m t = s.base.add (k * rowBytes t.fmt t.cols)) (r i : ℕ) :
    off (flShadowRow s (tileW m t)) (r * s.shadowRowBytes) i =
      s.shadow.getD ((k + r) * shadowRowBytes t.fmt t.cols + i) 0 := by
  have hindex : ((tileW m t).byte - s.base.byte) / s.packedRowBytes = k := by
    rw [hk, hp.packed_row_bytes, BytePtr.add, Nat.add_sub_cancel_left,
      Nat.mul_div_cancel _ (hp.rowBytes_pos hw)]
  rw [flShadowRow, hindex, hp.shadow_row_bytes, off_apply, off_apply, ptr, Nat.add_mul,
    Nat.add_assoc]

/-- The packed bytes of row `r` of a tile, in the span. -/
theorem row_apply {k : ℕ} (hk : tileW m t = s.base.add (k * rowBytes t.fmt t.cols)) (r i : ℕ) :
    m.row ((tileW m t).add (r * rowBytes t.fmt t.cols)) i =
      m.row s.base ((k + r) * rowBytes t.fmt t.cols + i) := by
  rw [hk, TileMem.row, TileMem.row, BytePtr.add_add, BytePtr.add_add, Nat.add_mul, Nat.add_assoc]

/-- Row `r` of a Q4_K tile finds its shadow. -/
theorem Covers.q4k (hc : s.Covers m t) (hw : s.contains (tileW m t)) (hf : t.fmt = .Q4_K) {r : ℕ}
    (hr : r < t.rows) :
    IsShadowQ4K (m.row ((tileW m t).add (r * rowBytes t.fmt t.cols)))
      (off (flShadowRow s (tileW m t)) (r * s.shadowRowBytes)) t.cols := by
  obtain ⟨n, k, hp, hk, hn⟩ := hc
  intro sb hsb i hi
  have hrb : rowBytes t.fmt t.cols = t.cols / 256 * 144 := by rw [hf]; rfl
  have hsrb : shadowRowBytes t.fmt t.cols = t.cols / 256 * 280 := by rw [hf]; rfl
  rw [flShadowRow_apply hp hw hk, hp.q4k hf, hsrb, buildRowsQ4k,
    getD_rows (fun _ _ => length_q4kBlock _) (by omega) hsb hi]
  congr 2
  funext j
  rw [off_apply, row_apply hk, hrb, blockAt, Nat.add_assoc]

/-- Row `r` of a Q5_0 tile finds its shadow. -/
theorem Covers.q50 (hc : s.Covers m t) (hw : s.contains (tileW m t)) (hf : t.fmt = .Q5_0) {r : ℕ}
    (hr : r < t.rows) :
    IsShadowQ50 (m.row ((tileW m t).add (r * rowBytes t.fmt t.cols)))
      (off (flShadowRow s (tileW m t)) (r * s.shadowRowBytes)) t.cols := by
  obtain ⟨n, k, hp, hk, hn⟩ := hc
  intro b hb i hi
  have hrb : rowBytes t.fmt t.cols = t.cols / 32 * 22 := by rw [hf]; rfl
  have hsrb : shadowRowBytes t.fmt t.cols = t.cols / 32 * 40 := by rw [hf]; rfl
  rw [flShadowRow_apply hp hw hk, hp.q50 hf, hsrb, buildRowsQ50,
    getD_rows (fun _ _ => length_q50Block _) (by omega) hb hi]
  congr 2
  funext j
  rw [off_apply, row_apply hk, hrb, blockAt, Nat.add_assoc]

end RegSpan

/-! ## The executors -/

section
variable (A : Arith F)

/-- Every registered span that the tile starts in is a plain one that its rows lie in. -/
def ShadowsTile (spans : List RegSpan) (m : TileMem F) (t : TaskParams) : Prop :=
  ∀ s ∈ spans, s.contains (tileW m t) → s.Covers m t

variable {m : TileMem F} {t : TaskParams}

theorem addTile_rows {v v' : ℕ → ℕ → F} (h : ∀ r < t.rows, ∀ p, v r p = v' r p) (y : Loc → F) :
    addTile A t v y = addTile A t v' y := by
  apply iter_congr
  intro r hr y
  simp only [h r hr]

/-- A row of a Q4_K tile on its shadow. -/
theorem dotI8k_shadow {spans : List RegSpan} (hs : ShadowsTile spans m t) {s : RegSpan}
    (hfind : flShadowFind spans (tileW m t) = some s) (hf : t.fmt = .Q4_K) {r : ℕ}
    (hr : r < t.rows) (xk : ℕ → BlkQ8K F) :
    dotI8kQ4KShadow A (off (flShadowRow s (tileW m t)) (r * s.shadowRowBytes)) xk t.cols =
      dotI8kQ4K A (m.row ((tileW m t).add (r * rowBytes t.fmt t.cols))) xk t.cols := by
  obtain ⟨hmem, hw⟩ := flShadowFind_some hfind
  exact dotI8kQ4KShadow_eq A ((hs s hmem hw).q4k hw hf hr) xk

/-- A row of a Q5_0 tile on its shadow. -/
theorem dotI8_shadow {spans : List RegSpan} (hs : ShadowsTile spans m t) {s : RegSpan}
    (hfind : flShadowFind spans (tileW m t) = some s) (hf : t.fmt = .Q5_0) {r : ℕ}
    (hr : r < t.rows) (xq : ℕ → BlkQ81) :
    dotI8Q50Shadow A (off (flShadowRow s (tileW m t)) (r * s.shadowRowBytes)) xq t.cols =
      dotI8Q50 A (m.row ((tileW m t).add (r * rowBytes t.fmt t.cols))) xq t.cols := by
  obtain ⟨hmem, hw⟩ := flShadowFind_some hfind
  exact dotI8Q50Shadow_eq A ((hs s hmem hw).q50 hw hf hr) xq

/-- The configuration with no span registered. -/
def CpuConfig.noShadows (c : CpuConfig) : CpuConfig := { c with shadowEnabled := false, spans := [] }

/-- The value added for a row is the one added without shadows. -/
theorem cpuDot_noShadows (c : CpuConfig) (hs : ShadowsTile c.spans m t) {r : ℕ} (hr : r < t.rows)
    (x : Loc) : cpuDot A c m t r x = cpuDot A c.noShadows m t r x := by
  unfold cpuDot
  simp only [CpuConfig.noShadows, Bool.false_eq_true, and_false, if_false]
  split_ifs with hfast hk hsh hi hsh
  · cases hfind : flShadowFind c.spans (tileW m t) with
    | none => rfl
    | some s =>
      dsimp only
      rw [dotI8k_shadow A hs hfind hsh.1 hr, hsh.1, dotI8kAny]
  · rfl
  · cases hfind : flShadowFind c.spans (tileW m t) with
    | none => rfl
    | some s =>
      dsimp only
      rw [dotI8_shadow A hs hfind hsh.1 hr, hsh.1, dotI8Any]
  · rfl
  · rfl
  · rfl

/-- The configuration with no span registered. -/
def NeonConfig.noShadows (c : NeonConfig) : NeonConfig :=
  { c with shadowEnabled := false, spans := [] }

theorem execI8kNeon_noShadows (c : NeonConfig) (hs : ShadowsTile c.spans m t)
    (scratch : ℕ → UInt8) (y : Loc → F) :
    execI8kNeon A c m t scratch y = execI8kNeon A c.noShadows m t scratch y := by
  unfold execI8kNeon
  simp only [NeonConfig.noShadows, Bool.false_eq_true, and_false, if_false]
  by_cases hmc : t.columns > 1 ∧ ¬ c.mcLegacy
  · rw [if_pos hmc, if_pos hmc]
  · rw [if_neg hmc, if_neg hmc]
    by_cases hsh : t.fmt = .Q4_K ∧ c.shadowEnabled
    · rw [if_pos hsh]
      cases hfind : flShadowFind c.spans (tileW m t) with
      | none => rfl
      | some s =>
        obtain ⟨hmem, hw⟩ := flShadowFind_some hfind
        obtain ⟨n, k, hp, -⟩ := hs s hmem hw
        simp only [hp.smmla, Bool.false_eq_true, false_and, and_false, if_false]
        apply addTile_rows
        intro r hr p
        rw [dotI8kQ4KShadowNeon_eq, dotI8k_shadow A hs hfind hsh.1 hr, hsh.1, dotRowI8kNeon,
          dotI8kQ4KNeon_eq]
    · rw [if_neg hsh]

theorem execI8Neon_noShadows (c : NeonConfig) (hs : ShadowsTile c.spans m t) (y : Loc → F) :
    execI8Neon A c m t y = execI8Neon A c.noShadows m t y := by
  unfold execI8Neon
  simp only [NeonConfig.noShadows, Bool.false_eq_true, and_false, if_false]
  split_ifs with hv2 hmc hsh
  · rfl
  · rfl
  · cases hfind : flShadowFind c.spans (tileW m t) with
    | none => rfl
    | some s =>
      dsimp only
      apply addTile_rows
      intro r hr p
      rw [dotI8Q50ShadowNeon_eq, dotI8_shadow A hs hfind hsh.1 hr, hsh.1]
      rfl
  · rfl

/-- A tile whose rows lie in a plain span, registered with the shadow that the builder makes of
them, adds to its outputs exactly what it adds with no span registered: in the portable executor
and in both branches of the one for Arm, for every activation and any interpretation of the float
operations. -/
theorem execDot_shadow (c : NeonConfig) (hs : ShadowsTile c.spans m t) (y : Loc → F) :
    execDotCpu A c.toCpuConfig m t y = execDotCpu A c.noShadows.toCpuConfig m t y ∧
      (∀ scratch, execI8kNeon A c m t scratch y = execI8kNeon A c.noShadows m t scratch y) ∧
      execI8Neon A c m t y = execI8Neon A c.noShadows m t y := by
  refine ⟨?portable, fun scratch => ?i8k, ?i8⟩
  case portable =>
    rw [execDotCpu_eq, execDotCpu_eq]
    apply addTile_rows
    intro r hr p
    exact cpuDot_noShadows A c.toCpuConfig hs hr (t.inCol p)
  case i8k => exact execI8kNeon_noShadows A c hs scratch y
  case i8 => exact execI8Neon_noShadows A c hs y

end

end

/-- The third of three experts of two rows each, in one span. -/
theorem execDot_shadow_expert :
    let A : Arith ℚ := .exact fun w => w.toNat
    let m : TileMem ℚ := ⟨fun p => UInt8.ofNat (7 * p.byte), fun l => l.off,
      fun l => ⟨0x3C00, 0, fun i => UInt8.ofNat (l.off + i)⟩, fun _ => ⟨1, fun _ => 0, fun _ => 1⟩,
      fun _ => 2⟩
    let t : TaskParams :=
      { kind := .STREAM_DOT_IDX, fmt := .Q5_0, rows := 2, cols := 64, nx := 2, xstride := 100,
        ystride := 2, w := ⟨1, 0⟩, aux := some (.idSlot ⟨2, 0⟩), aux2 := 88 }
    let s : RegSpan :=
      { packed := (List.range 264).map fun i => UInt8.ofNat (7 * i)
        shadow := buildRowsQ50 (m.row ⟨1, 0⟩) 6 64
        packedRowBytes := 44, shadowRowBytes := 80, fmt := .Q5_0, smmla := false, base := ⟨1, 0⟩ }
    let c : NeonConfig := ⟨⟨true, 4, 0, false, true, [s]⟩, true, true⟩
    flShadowFind c.spans (tileW m t) = some s ∧
      execDotCpu A c.toCpuConfig m t (fun _ => 0) =
        execDotCpu A c.noShadows.toCpuConfig m t fun _ => 0 := by
  intro A m t s c
  have hlen : s.packed.length = 264 := by simp [s]
  have hs : ShadowsTile c.spans m t := by
    intro s' hs' _
    obtain rfl := List.mem_singleton.mp hs'
    have hp : s.Plain m t.fmt t.cols 6 :=
      { smmla := rfl, packed_row_bytes := by decide, shadow_row_bytes := by decide
        length_packed := by rw [hlen]; decide
        q4k := nofun, q50 := fun _ => rfl }
    exact ⟨6, 4, hp, by decide, by decide⟩
  have hw : tileW m t = ⟨1, 176⟩ := by decide
  have hfind : flShadowFind [s] (tileW m t) = some s := by
    simp [flShadowFind, RegSpan.contains, hw, BytePtr.lt, BytePtr.add, s]
  exact ⟨hfind, (execDot_shadow A c hs _).1⟩

end FastLlm
