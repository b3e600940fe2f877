import FastLlm.Lib.WriteApart
import FastLlm.Model.Stage

/-!
# The layout of quantized columns

A buffer of `m` columns keeps each with its two appendices, `buf_alloc_cols` apart.  Quantizing a
column writes the words of its appendices and reads its floats (`bounded_execActQ8`).  When the
columns do not overlap, the quantizations write apart, and it does not matter in which order they
run and how often.

The distance is computed in bytes and stored in 32 bits as a number of floats.  From 2³² floats on
it loses its top bit, and the second column starts inside the first (`actQ8_apart_iff`).

## Main definitions

* `Loc.within` — the words inside a range of bytes.
* `Cols.floats`, `Cols.q81`, `Cols.q8K`, `Cols.bytes` — the regions of a column.
* `Cols.Quantizes` — the layout law of a buffer.
-/

namespace FastLlm

open Build

/-- The words inside the `k` bytes at byte offset `o` from `x`. -/
def Loc.within (x : Loc) (o k : ℕ) : Set Loc :=
  {l | l.obj = x.obj ∧ 4 * x.off + o ≤ 4 * l.off ∧ 4 * l.off + 4 ≤ 4 * x.off + o + k}

theorem Loc.mem_within {x l : Loc} {o k : ℕ} : l ∈ x.within o k ↔
    l.obj = x.obj ∧ 4 * x.off + o ≤ 4 * l.off ∧ 4 * l.off + 4 ≤ 4 * x.off + o + k := Iff.rfl

theorem Loc.within_subset {x : Loc} {o k o' k' : ℕ} (h : o' ≤ o) (h' : o + k ≤ o' + k') :
    x.within o k ⊆ x.within o' k' := by
  rintro l ⟨hobj, hlo, hhi⟩
  exact ⟨hobj, by omega, by omega⟩

theorem Loc.within_disjoint {x : Loc} {o k o' k' : ℕ} (h : o + k ≤ o') :
    Disjoint (x.within o k) (x.within o' k') := by
  rw [Set.disjoint_left]
  rintro l ⟨-, -, hhi⟩ ⟨-, hlo, -⟩
  omega

/-! ## The footprint of a quantization -/

section
variable (E : FloatOps) {R : Set Loc}

theorem bounded_readWords {x : Loc} {n : ℕ} (h : ∀ i < n, x.add i ∈ R) :
    (readWords x n).Bounded R ∅ := by
  induction n with
  | zero => exact .pure []
  | succ n ih =>
    have hget := MemProg.Bounded.get (V := Word) (h n (Nat.lt_succ_self n))
    refine ((ih fun i hi => h i (Nat.lt_succ_of_lt hi)).bind fun ws =>
      hget.bind fun w => .pure (ws ++ [w])).mono subset_rfl ?_
    simp

theorem bounded_quantBlock {q : List Word → ℕ → Word} {x o : Loc} {n k : ℕ}
    (h : ∀ i < n, x.add i ∈ R) :
    (quantBlock q x n o k).Bounded R {l | ∃ i < k, l = o.add i} := by
  refine ((bounded_readWords h).bind fun xs =>
    .forRange fun i _ => MemProg.Bounded.put (o.add i) (q xs i)).mono subset_rfl ?_
  rw [Set.empty_union]
  rfl

/-- Blocks of `k` words, one after the other. -/
theorem blocks_eq_within {x : Loc} {o n k : ℕ} (ho : 4 ∣ o) (hk : 0 < k) :
    {l | ∃ b < n, ∃ i < k, l = ((x.add (o / 4)).add (b * k)).add i} =
      x.within o (n * (4 * k)) := by
  obtain ⟨o, rfl⟩ := ho
  rw [Nat.mul_div_cancel_left o (by norm_num)]
  ext l
  rw [Loc.mem_within]
  constructor
  · rintro ⟨b, hb, i, hi, rfl⟩
    have : (b + 1) * k ≤ n * k := Nat.mul_le_mul_right k hb
    rw [Nat.add_mul, Nat.one_mul] at this
    simp only [Loc.obj_add, Loc.off_add, Nat.mul_left_comm n 4]
    exact ⟨trivial, by omega, by omega⟩
  · rintro ⟨hobj, hlo, hhi⟩
    rw [Nat.mul_left_comm] at hhi
    have hd := Nat.div_add_mod (l.off - (x.off + o)) k
    refine ⟨(l.off - (x.off + o)) / k, Nat.div_lt_of_lt_mul (by rw [Nat.mul_comm]; omega),
      (l.off - (x.off + o)) % k, Nat.mod_lt _ hk, ?_⟩
    rw [Nat.mul_comm] at hd
    obtain ⟨obj, off⟩ := l
    simp only [Loc.add, Loc.mk.injEq] at hobj ⊢
    exact ⟨hobj, by simp only at hd hlo; omega⟩

/-- `n` blocks of `k` floats of the column, quantized to blocks of `w` words at `o`. -/
theorem bounded_quantBlocks {q : List Word → ℕ → Word} {x : Loc} {n k w o c : ℕ}
    (hc : n * k ≤ c) (ho : 4 ∣ o) (hw : 0 < w) :
    (MemProg.forRange n fun b =>
      quantBlock q (x.add (b * k)) k ((x.add (o / 4)).add (b * w)) w).Bounded
        (x.within 0 (4 * c)) (x.within o (n * (4 * w))) := by
  rw [← blocks_eq_within ho hw]
  refine MemProg.Bounded.forRange fun b hb => bounded_quantBlock fun i hi => ?_
  have hle : (b + 1) * k ≤ n * k := Nat.mul_le_mul_right k hb
  rw [Nat.add_mul, Nat.one_mul] at hle
  rw [Loc.mem_within, Loc.add_add, Loc.off_add]
  exact ⟨rfl, by omega, by omega⟩

/-- `fl_exec_act_q8` reads the floats of its column and writes the blocks of the appendices. -/
theorem bounded_execActQ8 (x : Loc) (n : UInt32) :
    (execActQ8 E (actQ8 x n)).Bounded (x.within 0 (4 * n.toNat))
      (x.within (xqOf n.toNat) (xqBytes n.toNat) ∪
        x.within (xqkOf n.toNat) (n.toNat / 256 * 292)) := by
  obtain ⟨hdvd, hdvdK⟩ := four_dvd_appendix n.toNat
  exact (bounded_quantBlocks (Nat.div_mul_le_self _ 32) hdvd (by decide)).bind fun _ =>
    bounded_quantBlocks (Nat.div_mul_le_self _ 256) hdvdK (by decide)

end

/-! ## Columns -/

namespace Cols
variable (c : Cols) (n : UInt32) (p : ℕ)

/-- The floats of column `p`. -/
def floats : Set Loc := (c.col p).within 0 (4 * n.toNat)

/-- Its q8_1 blocks. -/
def q81 : Set Loc := (c.col p).within (xqOf n.toNat) (xqBytes n.toNat)

/-- Its q8_K blocks. -/
def q8K : Set Loc := (c.col p).within (xqkOf n.toNat) (n.toNat / 256 * 292)

/-- All its bytes. -/
def bytes : Set Loc := (c.col p).within 0 (xAllocBytes n.toNat)

/-- `ACT_Q8` on column `p`. -/
def quantize (E : FloatOps) : Exec Unit := execActQ8 E (actQ8 (c.col p) n)

/-- The layout law of `m` columns of `n` floats. -/
structure Quantizes (E : FloatOps) (m : ℕ) : Prop where
  writes : ∀ p < m, ∀ μ, ((c.quantize n p E).footprint μ).writes = c.q81 n p ∪ c.q8K n p
  appendices : ∀ p < m, Disjoint (c.q81 n p) (c.q8K n p)
  floats : ∀ p < m, ∀ q < m, Disjoint (c.q81 n p ∪ c.q8K n p) (c.floats n q)
  inside : ∀ p < m, c.q81 n p ∪ c.q8K n p ⊆ c.bytes n p
  others : ∀ p < m, ∀ q < m, p ≠ q → Disjoint (c.q81 n p ∪ c.q8K n p) (c.bytes n q)
  unchanged : ∀ p < m, ∀ q < m, ∀ μ, ∀ l ∈ c.floats n q, (c.quantize n p E).final μ l = μ l
  again : ∀ ps qs : List ℕ, (∀ p ∈ ps, p < m) → (∀ p, p ∈ ps ↔ p ∈ qs) →
    ∀ μ, execAll (c.quantize n · E) ps μ = execAll (c.quantize n · E) qs μ

variable {c n p} {E : FloatOps} {m : ℕ}

theorem floats_subset : c.floats n p ⊆ c.bytes n p := by
  have h := appendix_layout n.toNat
  exact Loc.within_subset le_rfl (by omega)

theorem appendices_subset : c.q81 n p ∪ c.q8K n p ⊆ c.bytes n p := by
  obtain ⟨h1, h2, h3⟩ := appendix_layout n.toNat
  refine Set.union_subset (Loc.within_subset (Nat.zero_le _) ?_)
    (Loc.within_subset (Nat.zero_le _) ?_)
  · rw [xqBytes]
    omega
  · omega

/-- In a column, the floats come first, then the blocks. -/
theorem disjoint_floats : Disjoint (c.q81 n p ∪ c.q8K n p) (c.floats n p) := by
  obtain ⟨h1, h2, -⟩ := appendix_layout n.toNat
  rw [Set.disjoint_union_left]
  exact ⟨(Loc.within_disjoint (by omega)).symm, (Loc.within_disjoint (by omega)).symm⟩

/-- Columns apart from each other are quantized apart. -/
theorem quantizes_of_apart
    (h : ∀ p < m, ∀ q < m, p ≠ q → Disjoint (c.bytes n p) (c.bytes n q)) : c.Quantizes n E m := by
  have hfloats : ∀ p < m, ∀ q < m, Disjoint (c.q81 n p ∪ c.q8K n p) (c.floats n q) := by
    intro p hp q hq
    by_cases hpq : p = q
    · rw [← hpq]
      exact disjoint_floats
    · exact (h p hp q hq hpq).mono appendices_subset floats_subset
  have hothers : ∀ p < m, ∀ q < m, p ≠ q → Disjoint (c.q81 n p ∪ c.q8K n p) (c.bytes n q) :=
    fun p hp q hq hpq => (h p hp q hq hpq).mono_left appendices_subset
  have hapart : WriteApart (c.quantize n · E) (· < m) (c.floats n)
      (fun p => c.q81 n p ∪ c.q8K n p) :=
    ⟨fun p _ => bounded_execActQ8 E (c.col p) n, fun p q hp hq => hfloats p hp q hq,
      fun p q hp hq hpq => (hothers p hp q hq hpq).mono_right appendices_subset⟩
  refine ⟨fun p hp => (hapart.bounded p hp).writes, fun p _ => Loc.within_disjoint ?_, hfloats,
    fun p _ => appendices_subset, hothers, fun p hp q hq μ l hl => ?_,
    fun ps qs hps hmem μ => hapart.execAll_congr hps hmem⟩
  · exact (appendix_layout n.toNat).2.1
  · apply MemProg.final_of_notMem
    rw [(hapart.bounded p hp).writes]
    exact fun hw => Set.disjoint_left.mp (hfloats p hp q hq) hw hl

/-- At a sufficient distance columns are apart. -/
theorem disjoint_bytes (h : xAllocBytes n.toNat ≤ 4 * c.stride.toNat) {p q : ℕ} (hpq : p < q) :
    Disjoint (c.bytes n p) (c.bytes n q) := by
  have hle : (p + 1) * c.stride.toNat ≤ q * c.stride.toNat := Nat.mul_le_mul_right _ hpq
  rw [Nat.add_mul, Nat.one_mul] at hle
  rw [Set.disjoint_left]
  rintro l ⟨-, -, hhi⟩ ⟨-, hlo, -⟩
  simp only [col, Loc.off_add] at hhi hlo
  omega

end Cols

/-! ## The distance -/

theorem exec_bufAllocCols {n : UInt32} {m : ℕ} {st st' : BuildState} {c : Cols}
    (h : CmdProg.exec BuildState.run (bufAllocCols n m) st = .ok (c, st')) :
    c.stride = .ofNat (align128 (xAllocBytes n.toNat) / 4) := by
  rw [bufAllocCols, CmdProg.exec_bind] at h
  obtain ⟨⟨base, st1⟩, -, hret⟩ := GraphImpl.bind_ok.mp h
  rw [← (Prod.mk.inj (Except.ok.inj hret)).1]

theorem le_align128 (k : ℕ) : k ≤ align128 k ∧ 128 ∣ align128 k := by
  rw [align128]
  omega

theorem quantizes_of_fits {n : UInt32} {m : ℕ} {c : Cols} (E : FloatOps)
    (hc : c.stride = .ofNat (align128 (xAllocBytes n.toNat) / 4))
    (h : m ≤ 1 ∨ align128 (xAllocBytes n.toNat) / 4 < 2 ^ 32) : c.Quantizes n E m := by
  apply Cols.quantizes_of_apart
  intro p hp q hq hpq
  rcases h with hm | hfit
  · exact absurd (by omega) hpq
  · obtain ⟨hle, hdvd⟩ := le_align128 (xAllocBytes n.toNat)
    have hstride : xAllocBytes n.toNat ≤ 4 * c.stride.toNat := by
      rw [hc, UInt32.toNat_ofNat_of_lt' hfit]
      omega
    rcases Nat.lt_or_gt_of_ne hpq with h | h
    · exact Cols.disjoint_bytes hstride h
    · exact (Cols.disjoint_bytes hstride h).symm

/-- Without its top bit the distance is shorter than a column. -/
theorem overlaps_of_wraps {n : UInt32} {c : Cols}
    (hc : c.stride = .ofNat (align128 (xAllocBytes n.toNat) / 4))
    (h : 2 ^ 32 ≤ align128 (xAllocBytes n.toNat) / 4) :
    ¬ Disjoint (c.q81 n 0 ∪ c.q8K n 0) (c.bytes n 1) := by
  have hn := n.toNat_lt
  obtain ⟨hle, -⟩ := le_align128 (xAllocBytes n.toNat)
  have hper : align128 (xAllocBytes n.toNat) < xAllocBytes n.toNat + 128 := by
    rw [align128]
    omega
  have hlayout := (appendix_layout n.toNat).2.2
  have hx : xAllocBytes n.toNat = (n.toNat * 4 + 15) / 16 * 16 +
      (n.toNat / 32 * 36 + 15) / 16 * 16 + n.toNat / 256 * 292 := rfl
  have hbig : 256 ≤ n.toNat ∧ xAllocBytes n.toNat + 128 ≤ 2 ^ 35 ∧ 4 ∣ xAllocBytes n.toNat := by
    omega
  have hstride : c.stride.toNat + 2 ^ 32 = align128 (xAllocBytes n.toNat) / 4 := by
    rw [hc, UInt32.toNat_ofNat']
    omega
  -- the last word of the first column
  rw [Set.not_disjoint_iff]
  refine ⟨(c.col 0).add (xAllocBytes n.toNat / 4 - 1), .inr ?_, ?_⟩
  · refine ⟨rfl, ?_, ?_⟩ <;> simp only [Loc.off_add] <;> omega
  · refine ⟨rfl, ?_, ?_⟩ <;> simp only [Cols.col, Loc.off_add, Nat.zero_mul, Nat.one_mul] <;> omega

/-- A graph without tasks and an arena of `bytes` bytes. -/
def arenaBuild (bytes : UInt64) : BuildState where
  g := GraphImpl.create 1
  ports _ := none
  mem := ⟨Arena.create bytes, ⟨0, 0⟩, 0, 0⟩

/-- With room in the arena the columns are there. -/
theorem exists_bufAllocCols (n : UInt32) (m : ℕ) (bytes : UInt64)
    (h : ¬ bytes < (Arena.create bytes).bump 128 +
      .ofNat (align128 (xAllocBytes n.toNat) * m)) :
    ∃ c st, CmdProg.exec BuildState.run (bufAllocCols n m) (arenaBuild bytes) = .ok (c, st) := by
  have harena : (Arena.create bytes).alloc (.ofNat (align128 (xAllocBytes n.toNat) * m)) 128 =
      .ok (_, _) := if_neg h
  have hmem : (arenaBuild bytes).mem.alloc (.ofNat (align128 (xAllocBytes n.toNat) * m)) 128 =
      .ok (_, _) := GraphImpl.bind_ok.mpr ⟨_, harena, rfl⟩
  have hrun : CmdProg.exec BuildState.run
      (alloc (.ofNat (align128 (xAllocBytes n.toNat) * m)) 128) (arenaBuild bytes) = .ok (_, _) :=
    GraphImpl.bind_ok.mpr ⟨_, GraphImpl.bind_ok.mpr ⟨_, hmem, rfl⟩, rfl⟩
  rw [bufAllocCols, CmdProg.exec_bind, hrun]
  exact ⟨_, _, rfl⟩

end FastLlm
