import FastLlm.Runtime.ShadowMap

/-!
# Tiles on pairs of rows

A Q4_K span with its rows in pairs, against the same span with plain rows.  The kernel for a pair
computes a two by two product of which the second column is discarded, and each row of the first
is what the plain kernel gives on the row's half of the pair (`dot2I8kQ4KShadowSmmla_eq`).  Pairs
are counted from the base of the span: a tile that starts in the middle of one falls back to the
packed rows, and so does the last row of an odd number.  Whichever way a row goes, the same value
is added for it (`execDot_layout`).

## Main definitions

* `RegSpan.Paired` — a span of rows, and their shadow in pairs.
* `TaskParams.Separate` — no two columns of a tile share an output.
-/

namespace FastLlm

open Neon

section
variable {F : Type}

/-- A span of `n` rows of `cols` elements in the row-pair layout, that holds what the builder
makes of the packed rows. -/
structure RegSpan.Paired (s : RegSpan) (m : TileMem F) (cols n : ℕ) : Prop where
  smmla : s.smmla = true
  packed_row_bytes : s.packedRowBytes = rowBytes .Q4_K cols
  shadow_row_bytes : s.shadowRowBytes = shadowRowBytes .Q4_K cols
  length_packed : s.packed.length = n * rowBytes .Q4_K cols
  even : n % 2 = 0
  q4k : s.shadow = buildRowsQ4kSmmla (m.row s.base) n cols

/-- No two columns of a tile share an output. -/
def TaskParams.Separate (t : TaskParams) : Prop :=
  ∀ p < t.columns, ∀ q < t.columns, p ≠ q → ∀ r < t.rows, ∀ s < t.rows,
    p * t.ystride + r ≠ q * t.ystride + s

/-! ## The kernel -/

theorem pairHalf_apply (p : ℕ → UInt8) (h sb : ℕ) {j : ℕ} (hj : j < 280) :
    off (pairHalf p h) (sb * 280) j = off p (sb * 560) (pairOffset h j) := by
  have hdiv : (sb * 280 + j) / 280 = sb := by omega
  have hmod : (sb * 280 + j) % 280 = j := by omega
  rw [off_apply, off_apply, pairHalf, hdiv, hmod]

theorem pairHalf_header (p : ℕ → UInt8) (h sb : ℕ) {j : ℕ} (hj : j < 24) :
    off (pairHalf p h) (sb * 280) j = off p (sb * 560) (h * 24 + j) := by
  rw [pairHalf_apply p h sb (by omega), pairOffset, if_pos hj]

theorem pairHalf_weight (p : ℕ → UInt8) (h sb : ℕ) {c k : ℕ} (hc : c < 32) (hk : k < 8) :
    off (pairHalf p h) (sb * 280) (24 + (c * 8 + k)) =
      off p (sb * 560) (48 + (c * 16 + (8 * h + k))) := by
  have hdiv : (24 + (c * 8 + k) - 24) / 8 = c := by omega
  have hmod : (24 + (c * 8 + k) - 24) % 8 = k := by omega
  rw [pairHalf_apply p h sb (by omega), pairOffset, if_neg (by omega), hdiv, hmod, Nat.mul_comm h]

/-- The lane of row `h` and of the first column, over the elements of a group. -/
theorem smmla_lane (p x : ℕ → UInt8) (h sb : ℕ) {g : ℕ} (hg : g < 8) :
    iter 4 (vdupqNS32 0) (fun c8 acc =>
        vmmlaqS32 acc (vld1q (off (off (off p (sb * 560)) 48) ((g * 4 + c8) * 16)))
          (vcombineS8 (off x (g * 32 + c8 * 8)) (off x (g * 32 + c8 * 8)))) (2 * h) =
      isum 32 fun i =>
        i8 (off (off (off (pairHalf p h) (sb * 280)) 24) (g / 2 * 64 + g % 2 * 32) i) *
          i8 (off x (g * 32) i) := by
  rw [iter_four]
  refine (vmmlaq_four (fun c8 => off (off (off p (sb * 560)) 48) ((g * 4 + c8) * 16))
    (fun c8 => vcombineS8 (off x (g * 32 + c8 * 8)) (off x (g * 32 + c8 * 8))) h Nat.two_pos).trans
    ?_
  rw [isum_eq]
  change _ = ∑ e ∈ Finset.range (4 * 8), _
  rw [sum_range_mul]
  refine Finset.sum_congr rfl fun c hc => Finset.sum_congr rfl fun k hk => ?_
  have hc' := Finset.mem_range.mp hc
  have hk' := Finset.mem_range.mp hk
  have hw := pairHalf_weight p h sb (c := g * 4 + c) (by omega) hk'
  have hgroup : 24 + (g / 2 * 64 + g % 2 * 32 + (c * 8 + k)) = 24 + ((g * 4 + c) * 8 + k) := by
    omega
  have hx : vcombineS8 (off x (g * 32 + c * 8)) (off x (g * 32 + c * 8)) (8 * 0 + k) =
      off x (g * 32) (c * 8 + k) := by
    rw [vcombineS8, if_pos (by omega), off_apply, off_apply]
    congr 1
    omega
  dsimp only
  rw [hx, off_apply (off (off p (sb * 560)) 48), off_apply (off p (sb * 560)) 48,
    off_apply (off (off (pairHalf p h) (sb * 280)) 24), off_apply (off (pairHalf p h) (sb * 280)),
    hgroup, hw]

variable (A : Arith F)

/-- The terms of a superblock for row `h` of a pair, in the kernel for pairs and in the plain
kernel on the half of the pair. -/
theorem smmla_fold (p : ℕ → UInt8) (x : BlkQ8K F) (h sb : ℕ) (a4 : ℕ → F) :
    fmaAt A (fmaAt A a4 (sb % 4) (A.mul (A.ofBits (le32 (off p (sb * 560)) (h * 24))) x.d)
        (A.ofInt (isum 8 fun g => (off (off p (sb * 560)) (h * 24 + 8) g).toNat *
          iter 4 (vdupqNS32 0) (fun c8 acc =>
            vmmlaqS32 acc (vld1q (off (off (off p (sb * 560)) 48) ((g * 4 + c8) * 16)))
              (vcombineS8 (off x.qs (g * 32 + c8 * 8)) (off x.qs (g * 32 + c8 * 8)))) (2 * h))))
      (sb % 4) (A.neg (A.mul (A.ofBits (le32 (off p (sb * 560)) (h * 24 + 4))) x.d))
      (A.ofInt (isum 8 fun g => (off (off p (sb * 560)) (h * 24 + 16) g).toNat *
        (x.bsums (2 * g) + x.bsums (2 * g + 1)))) =
    fmaAt A (fmaAt A a4 (sb % 4)
        (A.mul (A.ofBits (le32 (off (pairHalf p h) (sb * 280)) 0)) x.d)
        (A.ofInt (isum 8 fun g => (off (off (pairHalf p h) (sb * 280)) 8 g).toNat *
          isum 32 fun i =>
            i8 (off (off (off (pairHalf p h) (sb * 280)) 24) (g / 2 * 64 + g % 2 * 32) i) *
              i8 (off x.qs (g * 32) i))))
      (sb % 4) (A.neg (A.mul (A.ofBits (le32 (off (pairHalf p h) (sb * 280)) 4)) x.d))
      (A.ofInt (isum 8 fun g => (off (off (pairHalf p h) (sb * 280)) 16 g).toNat *
        (x.bsums (2 * g) + x.bsums (2 * g + 1)))) := by
  have hword (o : ℕ) (ho : o + 4 ≤ 24) :
      le32 (off (pairHalf p h) (sb * 280)) o = le32 (off p (sb * 560)) (h * 24 + o) := by
    simp only [le32]
    rw [pairHalf_header p h sb (by omega), pairHalf_header p h sb (by omega),
      pairHalf_header p h sb (by omega), pairHalf_header p h sb (by omega)]
    simp only [Nat.add_assoc]
  have hbyte (o g : ℕ) (ho : o + 8 ≤ 24) (hg : g < 8) :
      off (off (pairHalf p h) (sb * 280)) o g = off (off p (sb * 560)) (h * 24 + o) g := by
    rw [off_apply, pairHalf_header p h sb (by omega), off_apply (off p (sb * 560)), Nat.add_assoc]
  have hacc : (isum 8 fun g => ((off (off p (sb * 560)) (h * 24 + 8) g).toNat : ℤ) *
        iter 4 (vdupqNS32 0) (fun c8 acc =>
          vmmlaqS32 acc (vld1q (off (off (off p (sb * 560)) 48) ((g * 4 + c8) * 16)))
            (vcombineS8 (off x.qs (g * 32 + c8 * 8)) (off x.qs (g * 32 + c8 * 8)))) (2 * h)) =
      isum 8 fun g => ((off (off (pairHalf p h) (sb * 280)) 8 g).toNat : ℤ) * isum 32 fun i =>
        i8 (off (off (off (pairHalf p h) (sb * 280)) 24) (g / 2 * 64 + g % 2 * 32) i) *
          i8 (off x.qs (g * 32) i) := by
    apply isum_congr
    intro g hg
    rw [smmla_lane p x.qs h sb hg, hbyte 8 g (by omega) hg]
  have hmins : (isum 8 fun g => ((off (off p (sb * 560)) (h * 24 + 16) g).toNat : ℤ) *
        (x.bsums (2 * g) + x.bsums (2 * g + 1))) =
      isum 8 fun g => ((off (off (pairHalf p h) (sb * 280)) 16 g).toNat : ℤ) *
        (x.bsums (2 * g) + x.bsums (2 * g + 1)) := by
    apply isum_congr
    intro g hg
    rw [hbyte 16 g (by omega) hg]
  have hd : le32 (off (pairHalf p h) (sb * 280)) 0 = le32 (off p (sb * 560)) (h * 24) :=
    hword 0 (by omega)
  rw [hacc, hmins, hd, hword 4 (by omega)]

/-- The kernel for a pair is, for each row, the plain kernel on its half of the pair. -/
theorem dot2I8kQ4KShadowSmmla_eq (p : ℕ → UInt8) (xk : ℕ → BlkQ8K F) (cols : ℕ) :
    dot2I8kQ4KShadowSmmla A p xk cols =
      (dotI8kQ4KShadow A (pairHalf p 0) xk cols, dotI8kQ4KShadow A (pairHalf p 1) xk cols) := by
  apply Prod.ext
  · refine congrArg (fold4 A) (iter_hom Prod.fst fun sb _ a => ?_)
    exact smmla_fold A p (xk sb) 0 sb a.1
  · refine congrArg (fold4 A) (iter_hom Prod.snd fun sb _ a => ?_)
    exact smmla_fold A p (xk sb) 1 sb a.2

/-! ## Tiles -/

variable {A} {m : TileMem F} {t : TaskParams}

/-- Two rows of a tile, column by column. -/
theorem iter_addRow_pair (hsep : t.Separate) {r : ℕ} (hr : r + 1 < t.rows) (u v : ℕ → F)
    (y : Loc → F) :
    iter t.columns y (fun p y => addAt A (addAt A y (t.out p r) (u p)) (t.out p (r + 1)) (v p)) =
      addRow A t (r + 1) v (addRow A t r u y) := by
  refine iter_interleave (f := fun p y => addAt A y (t.out p r) (u p))
    (g := fun p y => addAt A y (t.out p (r + 1)) (v p)) ?_ y
  intro p hp q hq y
  apply addAt_comm
  intro hout
  have hoff := congrArg Loc.off hout
  simp only [TaskParams.out, Loc.off_add] at hoff
  exact hsep q (by omega) p hp (by omega) (r + 1) hr r (by omega) (by omega)

/-- A tile that goes through its rows in pairs, and then through the row that is left. -/
theorem addTile_pairs (hsep : t.Separate) {v : ℕ → ℕ → F} {u : ℕ → ℕ → F × F}
    (hpair : ∀ i < t.rows / 2, ∀ p, u i p = (v (2 * i) p, v (2 * i + 1) p)) (y : Loc → F) :
    iter (t.rows % 2)
      (iter (t.rows / 2) y fun i y => iter t.columns y fun p y =>
        addAt A (addAt A y (t.out p (2 * i)) (u i p).1) (t.out p (2 * i + 1)) (u i p).2)
      (fun i y => addRow A t (t.rows / 2 * 2 + i) (v (t.rows / 2 * 2 + i)) y) = addTile A t v y := by
  have hpairs : (iter (t.rows / 2) y fun i y => iter t.columns y fun p y =>
        addAt A (addAt A y (t.out p (2 * i)) (u i p).1) (t.out p (2 * i + 1)) (u i p).2) =
      iter (t.rows / 2 * 2) y fun r y => addRow A t r (v r) y := by
    rw [iter_mul]
    apply iter_congr
    intro i hi y
    have hr : 2 * i + 1 < t.rows := by omega
    rw [iter_two, Nat.mul_comm i 2, Nat.add_zero (2 * i), ← iter_addRow_pair hsep hr]
    simp only [hpair i hi]
  have hrows : t.rows / 2 * 2 + t.rows % 2 = t.rows := Nat.div_add_mod' t.rows 2
  have htail := iter_add (t.rows / 2 * 2) (t.rows % 2) (fun r y => addRow A t r (v r) y) y
  rw [hrows] at htail
  rw [hpairs, ← htail]
  rfl

/-- The span found holds, in its layout, the shadow of each row of the tile. -/
structure HoldsRows (m : TileMem F) (t : TaskParams) (s : RegSpan) : Prop where
  plain : s.smmla = false → ∀ r < t.rows,
    IsShadowQ4K (m.row ((tileW m t).add (r * rowBytes t.fmt t.cols)))
      (off (flShadowRow s (tileW m t)) (r * s.shadowRowBytes)) t.cols
  paired : s.smmla = true → ∀ r < t.rows,
    let r0i := flShadowRowIndex s (tileW m t)
    IsShadowQ4K (m.row ((tileW m t).add (r * rowBytes t.fmt t.cols)))
      (pairHalf (flShadowPair s (r0i + r)) ((r0i + r) % 2)) t.cols

/-- On a span that holds its rows, in whichever layout, a tile adds what it adds without. -/
theorem execI8kNeon_holdsRows (c : NeonConfig) (hi8 : c.matmulInt8 = true) (hf : t.fmt = .Q4_K)
    (hsep : t.Separate) {g : List RegSpan}
    (hg : ∀ s, flShadowFind g (tileW m t) = some s → HoldsRows m t s) (scratch : ℕ → UInt8)
    (y : Loc → F) :
    execI8kNeon A { c with spans := g } m t scratch y =
      execI8kNeon A c.noShadows m t scratch y := by
  unfold execI8kNeon
  simp only [NeonConfig.noShadows, Bool.false_eq_true, and_false, if_false]
  by_cases hmc : t.columns > 1 ∧ ¬ c.mcLegacy
  case pos => rw [if_pos hmc, if_pos hmc]
  case neg =>
    rw [if_neg hmc, if_neg hmc]
    by_cases hsh : t.fmt = .Q4_K ∧ c.shadowEnabled
    case neg => rw [if_neg hsh]
    case pos =>
      rw [if_pos hsh]
      cases hfind : flShadowFind g (tileW m t) with
      | none => rfl
      | some s =>
        have hrows := hg s hfind
        have hpacked (r p : ℕ) :
            dotRowI8kNeon A t.fmt (m.row ((tileW m t).add (r * rowBytes t.fmt t.cols)))
              (m.xqk (t.inCol p) t.cols) t.cols =
            dotI8kQ4K A (m.row ((tileW m t).add (r * rowBytes t.fmt t.cols)))
              (m.xqk (t.inCol p) t.cols) t.cols := by
          rw [hf, dotRowI8kNeon, dotI8kQ4KNeon_eq]
        dsimp only
        simp only [hpacked, hi8, true_and]
        by_cases hsm : s.smmla = true
        case neg =>
          simp only [hsm]
          apply addTile_rows
          intro r hr p
          rw [dotI8kQ4KShadowNeon_eq]
          exact dotI8kQ4KShadow_eq A (hrows.plain (by simpa using hsm) r hr) _
        case pos =>
          simp only [hsm, true_and, if_true]
          split_ifs with heven
          case neg => rfl
          case pos =>
            refine addTile_pairs hsep
              (v := fun r p => dotI8kQ4K A
                (m.row ((tileW m t).add (r * rowBytes t.fmt t.cols))) (m.xqk (t.inCol p) t.cols)
                t.cols)
              (u := fun i p => dot2I8kQ4KShadowSmmla A
                (off (ptr s.shadow) ((((tileW m t).byte - s.base.byte) / s.packedRowBytes + 2 * i) /
                  2 * (s.shadowRowBytes * 2))) (m.xqk (t.inCol p) t.cols) t.cols)
              (fun i hi p => ?_) y
            have h0 := hrows.paired hsm (2 * i) (by omega)
            have h1 := hrows.paired hsm (2 * i + 1) (by omega)
            dsimp only [flShadowRowIndex, flShadowPair] at h0 h1
            set r0i := ((tileW m t).byte - s.base.byte) / s.packedRowBytes
            have hmod0 : (r0i + 2 * i) % 2 = 0 := by omega
            have hmod1 : (r0i + (2 * i + 1)) % 2 = 1 := by omega
            have hdiv : (r0i + (2 * i + 1)) / 2 = (r0i + 2 * i) / 2 := by omega
            rw [hmod0] at h0
            rw [hmod1, hdiv] at h1
            rw [dot2I8kQ4KShadowSmmla_eq, dotI8kQ4KShadow_eq A h0, dotI8kQ4KShadow_eq A h1]

/-- A tile without rows, or of rows without a superblock, reads nothing of a span. -/
theorem HoldsRows.of_empty (s : RegSpan) (h : t.rows = 0 ∨ t.cols / 256 = 0) : HoldsRows m t s := by
  constructor
  · intro _ r hr sb hsb
    omega
  · intro _ r hr r0i sb hsb
    omega

theorem RegSpan.Plain.holdsRows {s : RegSpan} {n k : ℕ} (hs : s.Plain m .Q4_K t.cols n)
    (hf : t.fmt = .Q4_K) (hw : s.contains (tileW m t))
    (hk : tileW m t = s.base.add (k * rowBytes .Q4_K t.cols)) (hn : k + t.rows ≤ n) :
    HoldsRows m t s := by
  rw [← hf] at hs hk
  constructor
  · intro _ r hr
    exact RegSpan.Covers.q4k ⟨n, k, hs, hk, hn⟩ hw hf hr
  · intro hsm
    rw [hs.smmla] at hsm
    cases hsm

theorem RegSpan.Paired.holdsRows {s : RegSpan} {n k : ℕ} (hs : s.Paired m t.cols n)
    (hf : t.fmt = .Q4_K) (hcols : t.cols / 256 ≠ 0)
    (hk : tileW m t = s.base.add (k * rowBytes .Q4_K t.cols)) (hn : k + t.rows ≤ n) :
    HoldsRows m t s := by
  have hrb : rowBytes .Q4_K t.cols = t.cols / 256 * 144 := rfl
  have hsrb : shadowRowBytes .Q4_K t.cols = t.cols / 256 * 280 := rfl
  have hpairb : t.cols / 256 * 280 * 2 = t.cols / 256 * 560 := by omega
  have hindex : flShadowRowIndex s (tileW m t) = k := by
    rw [flShadowRowIndex, hk, hs.packed_row_bytes, BytePtr.add, Nat.add_sub_cancel_left,
      Nat.mul_div_cancel _ (by omega)]
  constructor
  · intro hsm
    rw [hs.smmla] at hsm
    cases hsm
  · intro _ r hr
    dsimp only
    rw [hindex]
    intro sb hsb i hi
    have hget := buildRowsQ4kSmmla_getD (m.row s.base) (show k + r < n by omega) hsb hi
    have hhalf := pairHalf_apply (flShadowPair s (k + r)) ((k + r) % 2) sb hi
    rw [off_apply, off_apply] at hhalf
    rw [hhalf, flShadowPair, off_apply, ptr, hs.shadow_row_bytes, hsrb, hpairb, hs.q4k, hget]
    congr 2
    funext j
    rw [off_apply, RegSpan.row_apply (k := k) (by rw [hk, hf]), hf, hrb, blockAt, Nat.add_assoc]

variable (A)

end

/-- A registry of one span finds it. -/
theorem finds_singleton (s : RegSpan) : Finds [s] s := by
  apply finds_of_sorted (List.pairwise_singleton _ s) List.mem_cons_self
  intro s' hs' _
  exact List.mem_singleton.mp hs'

end FastLlm
