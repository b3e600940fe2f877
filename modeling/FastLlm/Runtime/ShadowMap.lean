import FastLlm.Runtime.ShadowTile
import Mathlib.Data.List.TakeWhile

/-!
# Which shadow a row finds

The registry that `fl_shadow_init` leaves, with the tensors at their addresses.  The spans are
sorted by base, and a pointer is looked up by the last base that is not above it.  That span is
the one whose range the pointer lies in, unless a span without bytes starts inside the range: it
hides the rows behind its base (`empty_tensor_hides_row`).  Where none does, every packed row finds
the span of its tensor, and its bytes there (`flShadowInit_rows`).

## Main definitions

* `PlacedTensor` — a tensor at an address.
* `registered`, `SortedRegistry` — the spans of a run, and the registry they are sorted into.
* `pairHalf`, `RegSpan.rowByte` — the bytes of a row's shadow, in either layout.
* `Finds` — the registry finds a span from each of its bytes.
-/

namespace FastLlm

/-- A tensor, and the address of its packed bytes. -/
structure PlacedTensor extends ShadowTensorDesc where
  base : BytePtr

namespace PlacedTensor

variable (t : PlacedTensor)

/-- The tensor is of a format that gets a shadow. -/
def Shadowed : Prop := t.fmt = .Q4_K ∨ t.fmt = .Q5_0

instance : Decidable t.Shadowed := by unfold Shadowed; infer_instance

/-- The address is one of the packed bytes. -/
def InRange (p : BytePtr) : Prop :=
  p.obj = t.base.obj ∧ t.base.byte ≤ p.byte ∧ p.byte < t.base.byte + t.p.length

/-- `t.p + r * row_bytes`. -/
def rowPtr (r : ℕ) : BytePtr := t.base.add (r * rowBytes t.fmt t.cols.toNat)

/-- The shadow of row `r` by itself. -/
def rowShadow (r : ℕ) : List UInt8 :=
  t.buildRows false (t.packed (r * rowBytes t.fmt t.cols.toNat)) 1

/-- The span of the tensor in a layout. -/
def span (smmla : Bool) : RegSpan where
  packed := t.p
  shadow := t.shadow smmla
  packedRowBytes := rowBytes t.fmt t.cols.toNat
  shadowRowBytes := shadowRowBytes t.fmt t.cols.toNat
  fmt := t.fmt
  smmla := smmla && t.fmt == .Q4_K
  base := t.base

end PlacedTensor

/-- The tensors that get a span. -/
def wanted (ts : List PlacedTensor) : List PlacedTensor := ts.filter fun t => t.Shadowed

/-- The spans that `fl_shadow_init` pushes for the tensors of a run, none being there before. -/
def registered (file : Option (List UInt8)) (r : Run) (ts : List PlacedTensor) : List RegSpan :=
  ((flShadowInit file r).1.getD []).zipWith (fun s t => ⟨s, t.base⟩) (wanted ts)

/-- What `std::sort` may make of the spans. -/
structure SortedRegistry (spans g : List RegSpan) : Prop where
  perm : g.Perm spans
  sorted : g.Pairwise fun a b => ¬ b.base.lt a.base

/-- `fl_shadow_row_index`. -/
def flShadowRowIndex (s : RegSpan) (w : BytePtr) : ℕ := (w.byte - s.base.byte) / s.packedRowBytes

/-- `fl_shadow_pair`. -/
def flShadowPair (s : RegSpan) (r : ℕ) : ℕ → UInt8 :=
  off (ptr s.shadow) (r / 2 * (s.shadowRowBytes * 2))

/-- Where byte `j` of a superblock's shadow lies, if the superblock is in row `h` of a pair. -/
def pairOffset (h j : ℕ) : ℕ :=
  if j < 24 then h * 24 + j else 48 + ((j - 24) / 8 * 16 + (h * 8 + (j - 24) % 8))

/-- Row `h` of a pair of rows, as a plain shadow row. -/
def pairHalf (pbase : ℕ → UInt8) (h : ℕ) : ℕ → UInt8 :=
  fun i => pbase (i / 280 * 560 + pairOffset h (i % 280))

/-- Byte `i` of the shadow of the row at `w`: of a plain row, or of the row's half of its pair. -/
def RegSpan.rowByte (s : RegSpan) (w : BytePtr) (i : ℕ) : UInt8 :=
  if s.smmla then
    let r := flShadowRowIndex s w
    pairHalf (flShadowPair s r) (r % 2) i
  else flShadowRow s w i

/-! ## Pairs -/

/-- Each row of a pair of superblocks has all of its own shadow. -/
theorem q4kPair_half (w : ℕ → ℕ → UInt8) {h j : ℕ} (hh : h < 2) (hj : j < 280) :
    (q4kPair (w 0) (w 1)).getD (pairOffset h j) 0 = (q4kBlock (w h)).getD j 0 := by
  have h0 := length_q4kHeader (w 0)
  have h1 := length_q4kHeader (w 1)
  have hw := length_q4kHeader (w h)
  have hlen : (q4kHeader (w 0) ++ q4kHeader (w 1)).length = 48 := by simp
  rw [q4kPair, q4kBlock, pairOffset]
  by_cases hheader : j < 24
  case pos =>
    rw [if_pos hheader, List.getD_append _ _ _ _ (by omega),
      List.getD_append _ _ _ _ (hheader.trans_eq hw.symm)]
    rcases (by omega : h = 0 ∨ h = 1) with rfl | rfl
    · rw [Nat.zero_mul, Nat.zero_add, List.getD_append _ _ _ _ (by omega)]
    · rw [List.getD_append_right _ _ _ _ (by omega), h0, Nat.one_mul, Nat.add_sub_cancel_left]
  case neg =>
    -- weight `c * 8 + i`, behind both headers
    obtain ⟨c, i, hc, hi, rfl⟩ : ∃ c i, c < 32 ∧ i < 8 ∧ j = 24 + (c * 8 + i) :=
      ⟨(j - 24) / 8, (j - 24) % 8, by omega, by omega, by omega⟩
    have hdiv : (24 + (c * 8 + i) - 24) / 8 = c := by omega
    have hmod : (24 + (c * 8 + i) - 24) % 8 = i := by omega
    rw [if_neg hheader, hdiv, hmod, List.getD_append_right _ _ _ _ (by omega), hlen,
      Nat.add_sub_cancel_left, List.getD_append_right _ _ _ _ (by omega), hw,
      Nat.add_sub_cancel_left, getD_map_range_byte (by omega),
      getD_flatMap_range (k := 16) (by simp) hc (by omega)]
    have hmap (v : ℕ → UInt8) : ((List.range 8).map v).length = 8 := by simp
    rcases (by omega : h = 0 ∨ h = 1) with rfl | rfl
    · rw [Nat.zero_mul, Nat.zero_add, List.getD_append _ _ _ _ (by rw [hmap]; exact hi),
        getD_map_range_byte hi]
    · rw [Nat.one_mul, List.getD_append_right _ _ _ _ (by rw [hmap]; omega), hmap,
        Nat.add_sub_cancel_left, getD_map_range_byte hi]

theorem pairOffset_lt {h j : ℕ} (hh : h < 2) (hj : j < 280) : pairOffset h j < 560 := by
  rw [pairOffset]
  split_ifs <;> omega

/-- The row-pair layout has, at the place for it, the shadow of each superblock of each row. -/
theorem buildRowsQ4kSmmla_getD (p : ℕ → UInt8) {rows cols k sb j : ℕ} (hk : k < rows)
    (hsb : sb < cols / 256) (hj : j < 280) :
    (buildRowsQ4kSmmla p rows cols).getD
      (k / 2 * (cols / 256 * 560) + (sb * 560 + pairOffset (k % 2) j)) 0 =
      (q4kBlock (blockAt p (cols / 256) 144 k sb)).getD j 0 := by
  have hhalf : k % 2 < 2 := Nat.mod_lt _ (by decide)
  have hrow : k / 2 * 2 + k % 2 = k := Nat.div_add_mod' k 2
  rw [buildRowsQ4kSmmla, getD_rows (fun _ _ => length_q4kPair _ _) (by omega) hsb
    (pairOffset_lt hhalf hj)]
  have hpair := q4kPair_half
    (fun h => blockAt p (cols / 256) 144 (k / 2 * 2 + h) sb) hhalf hj
  rw [hrow] at hpair
  exact hpair

/-! ## Looking up a span -/

/-- The registry finds the span from each of its bytes. -/
def Finds (g : List RegSpan) (s : RegSpan) : Prop :=
  ∀ p, s.contains p → flShadowFind g p = some s

theorem BytePtr.lt_iff (p q : BytePtr) :
    p.lt q ↔ p.obj < q.obj ∨ p.obj = q.obj ∧ p.byte < q.byte := by
  simp [BytePtr.lt]

theorem RegSpan.contains_iff (s : RegSpan) (p : BytePtr) : s.contains p ↔
    p.obj = s.base.obj ∧ s.base.byte ≤ p.byte ∧ p.byte < s.base.byte + s.packed.length := by
  simp only [contains, Bool.and_eq_true, Bool.not_eq_true', Bool.eq_false_iff, ne_eq,
    BytePtr.lt_iff, BytePtr.add]
  omega

theorem PlacedTensor.contains_span (t : PlacedTensor) (smmla : Bool) (p : BytePtr) :
    (t.span smmla).contains p ↔ t.InRange p :=
  RegSpan.contains_iff _ p

/-- In a sorted registry a span is found from its bytes if no other span starts inside it. -/
theorem finds_of_sorted {g : List RegSpan} (hg : g.Pairwise fun a b => ¬ b.base.lt a.base)
    {s : RegSpan} (hs : s ∈ g) (hother : ∀ s' ∈ g, s.contains s'.base → s' = s) : Finds g s := by
  intro p hp
  obtain ⟨before, after, rfl⟩ := List.append_of_mem hs
  obtain ⟨-, hafter, hbefore⟩ := List.pairwise_append.mp hg
  have hp' := (s.contains_iff p).mp hp
  have hbase (s' : RegSpan) (h : ¬ s.base.lt s'.base) : p.lt s'.base = false := by
    rw [Bool.eq_false_iff]
    intro hlt
    rw [BytePtr.lt_iff] at h hlt
    omega
  have hpass : ∀ a ∈ before ++ [s], (!p.lt a.base) = true := by
    intro a ha
    rw [Bool.not_eq_true']
    rcases List.mem_append.mp ha with ha | ha
    · exact hbase a (hbefore a ha s List.mem_cons_self)
    · rw [List.mem_singleton.mp ha]
      exact hbase s fun h => by rw [BytePtr.lt_iff] at h; omega
  -- what passes behind the span starts inside it
  have hrest : ∀ a ∈ after.takeWhile fun s => !p.lt s.base, a = s := by
    intro a ha
    have hmem : a ∈ after := (List.takeWhile_sublist _).subset ha
    have hle : ¬ p.lt a.base := by
      have := List.mem_takeWhile_imp ha
      simpa using this
    have hge : ¬ a.base.lt s.base := (List.pairwise_cons.mp hafter).1 a hmem
    refine hother a (List.mem_append_right _ (List.mem_cons_of_mem s hmem)) ?_
    rw [RegSpan.contains_iff]
    rw [BytePtr.lt_iff] at hle hge
    omega
  have hlast : ((before ++ s :: after).takeWhile fun s => !p.lt s.base).getLast? = some s := by
    rw [← List.singleton_append, ← List.append_assoc, List.takeWhile_append_of_pos hpass]
    rcases List.eq_nil_or_concat (after.takeWhile fun s => !p.lt s.base) with hnil | ⟨l, a, hl⟩
    · rw [hnil, List.append_nil, List.getLast?_concat]
    · have ha : a = s := hrest a (by rw [hl]; simp)
      rw [hl, ha, List.concat_eq_append, ← List.append_assoc, List.getLast?_concat]
  rw [flShadowFind, hlast, Option.filter_some, if_pos hp]

/-- A pointer that lies in no span finds none. -/
theorem flShadowFind_eq_none {g : List RegSpan} {p : BytePtr} (h : ∀ s ∈ g, ¬ s.contains p) :
    flShadowFind g p = none := by
  by_contra hne
  obtain ⟨s, hs⟩ := Option.ne_none_iff_exists'.mp hne
  obtain ⟨hmem, hcon⟩ := flShadowFind_some hs
  exact h s hmem hcon

/-! ## The spans of a run -/

theorem collect_want (smmla : Bool) (ts : List PlacedTensor) :
    (collect smmla (ts.map PlacedTensor.toShadowTensorDesc)).2.1 =
      (wanted ts).map PlacedTensor.toShadowTensorDesc := by
  induction ts generalizing smmla with
  | nil => rfl
  | cons t ts ih =>
    rw [List.map_cons, collect]
    by_cases hskip : t.fmt ≠ .Q4_K ∧ t.fmt ≠ .Q5_0
    · have hfilter : wanted (t :: ts) = wanted ts :=
        List.filter_cons_of_neg (by rw [decide_eq_true_iff]; exact not_or.mpr hskip)
      rw [if_pos hskip, hfilter]
      exact ih smmla
    · have hyes : t.Shadowed := by
        rw [PlacedTensor.Shadowed]
        tauto
      have hfilter : wanted (t :: ts) = t :: wanted ts :=
        List.filter_cons_of_pos (by simpa using hyes)
      rw [if_neg hskip, hfilter, List.map_cons]
      split_ifs
      · exact congrArg (t.toShadowTensorDesc :: ·) (ih _)
      · exact congrArg (t.toShadowTensorDesc :: ·) (ih _)

/-- Each tensor gets the part of the payload that was built for it. -/
theorem registerSpans_payload (smmla : Bool) (ts : List PlacedTensor)
    (hlen : ∀ t ∈ ts, (t.shadow smmla).length = t.shadowBytes) :
    (registerSpans smmla (ts.map PlacedTensor.toShadowTensorDesc)
      ((ts.map PlacedTensor.toShadowTensorDesc).flatMap fun t => t.shadow smmla)).zipWith
        (fun s t => (⟨s, t.base⟩ : RegSpan)) ts = ts.map fun t => t.span smmla := by
  induction ts with
  | nil => rfl
  | cons t ts ih =>
    have ht : (t.shadow smmla).length = t.shadowBytes := hlen t List.mem_cons_self
    rw [List.map_cons, List.flatMap_cons, registerSpans, List.take_left' ht, List.drop_left' ht,
      List.zipWith_cons_cons, ih fun u hu => hlen u (List.mem_cons_of_mem t hu)]
    rfl

section
variable {r : Run} {ts : List PlacedTensor}

/-- A run that builds registers the span of each tensor of a shadowed format. -/
theorem registered_build (hmode : r.mode = .build) (hmalloc : r.malloc = true)
    (hts : r.tensors = ts.map PlacedTensor.toShadowTensorDesc) (file : Option (List UInt8)) :
    registered file r ts = (wanted ts).map fun t => t.span r.layout := by
  have hwant : r.want = (wanted ts).map PlacedTensor.toShadowTensorDesc := by
    rw [Run.want, hts, collect_want]
  by_cases hnil : wanted ts = []
  · rw [registered, hnil, List.map_nil, List.zipWith_nil_right]
  · have hne : r.want ≠ [] := by
      rw [hwant]
      simpa using hnil
    have hhit : r.hit file = none := by
      rw [Run.hit, hmode]
      cases file <;> rfl
    have hinit : (flShadowInit file r).1 = some (registerSpans r.layout r.want r.payload) := by
      rw [Run.flShadowInit_eq file r (by rw [hmode]; decide) hne, hhit, hmode]
      dsimp only
      rw [if_neg (not_not.mpr hmalloc)]
    have hlen : ∀ t ∈ wanted ts, (t.shadow r.layout).length = t.shadowBytes := by
      intro t ht
      apply r.length_shadow
      rw [hwant]
      exact List.mem_map_of_mem ht
    rw [registered, hinit, Option.getD_some, Run.payload, hwant]
    exact registerSpans_payload r.layout (wanted ts) hlen

theorem mem_wanted {t : PlacedTensor} : t ∈ wanted ts ↔ t ∈ ts ∧ t.Shadowed := by
  simp [wanted]

/-- The tensors with a shadow lie apart, and one without bytes lies in no other. -/
structure Apart (ts : List PlacedTensor) : Prop where
  disjoint : (wanted ts).Pairwise fun t u => ∀ p, ¬ (t.InRange p ∧ u.InRange p)
  empty : ∀ t ∈ wanted ts, t.p = [] → ∀ u ∈ wanted ts, ¬ u.InRange t.base

theorem Apart.eq_of_base (h : Apart ts) {t u : PlacedTensor} (ht : t ∈ wanted ts)
    (hu : u ∈ wanted ts) (hin : t.InRange u.base) : u = t := by
  by_contra hne
  by_cases hnil : u.p = []
  · exact h.empty u hu hnil t ht hin
  · have hself : u.InRange u.base := by
      have := List.length_pos_of_ne_nil hnil
      exact ⟨rfl, le_rfl, by omega⟩
    have : Std.Symm fun t u : PlacedTensor => ∀ p, ¬ (t.InRange p ∧ u.InRange p) :=
      { symm := fun t u h p hp => h p hp.symm }
    exact h.disjoint.forall hu ht hne u.base ⟨hself, hin⟩

/-- The registry of a run finds the span of each tensor. -/
theorem Apart.finds (h : Apart ts) {smmla : Bool} {g : List RegSpan}
    (hg : SortedRegistry ((wanted ts).map fun t => t.span smmla) g) {t : PlacedTensor}
    (ht : t ∈ wanted ts) : Finds g (t.span smmla) := by
  refine finds_of_sorted hg.sorted ?_ ?_
  · rw [hg.perm.mem_iff]
    exact List.mem_map_of_mem ht
  · intro s hs hin
    rw [hg.perm.mem_iff] at hs
    obtain ⟨u, hu, rfl⟩ := List.mem_map.mp hs
    rw [h.eq_of_base ht hu ((t.contains_span smmla _).mp hin)]

end

/-! ## The bytes of a row -/

namespace PlacedTensor
variable (t : PlacedTensor)

/-- A block of a row, in the bytes of the tensor and in those of the row. -/
theorem blockAt_packed {nb bytes : ℕ} (hrow : rowBytes t.fmt t.cols.toNat = nb * bytes) (k b : ℕ) :
    blockAt (t.packed (k * rowBytes t.fmt t.cols.toNat)) nb bytes 0 b =
      blockAt (t.packed 0) nb bytes k b := by
  have hadd := blockAt_add (t.packed 0) nb bytes k 0 b
  rw [t.packed_add, Nat.zero_add, ← hrow] at hadd
  exact hadd.symm

theorem rowShadow_q4k (hf : t.fmt = .Q4_K) (k : ℕ) {sb j : ℕ} (hsb : sb < t.cols.toNat / 256)
    (hj : j < 280) : (t.rowShadow k).getD (sb * 280 + j) 0 =
      (q4kBlock (blockAt (t.packed 0) (t.cols.toNat / 256) 144 k sb)).getD j 0 := by
  have hrow : rowBytes t.fmt t.cols.toNat = t.cols.toNat / 256 * 144 := by rw [hf]; rfl
  have hget := getD_rows (n := 1) (r := 0)
    (f := fun r sb => q4kBlock (blockAt (t.packed (k * rowBytes t.fmt t.cols.toNat))
      (t.cols.toNat / 256) 144 r sb)) (fun _ _ => length_q4kBlock _) Nat.one_pos hsb hj
  rw [Nat.zero_mul, Nat.zero_add, t.blockAt_packed hrow] at hget
  rw [rowShadow, ShadowTensorDesc.buildRows, if_pos hf]
  exact hget

theorem rowShadow_q50 (hf : t.fmt = .Q5_0) (k : ℕ) {b j : ℕ} (hb : b < t.cols.toNat / 32)
    (hj : j < 40) : (t.rowShadow k).getD (b * 40 + j) 0 =
      (q50Block (blockAt (t.packed 0) (t.cols.toNat / 32) 22 k b)).getD j 0 := by
  have hrow : rowBytes t.fmt t.cols.toNat = t.cols.toNat / 32 * 22 := by rw [hf]; rfl
  have hget := getD_rows (n := 1) (r := 0)
    (f := fun r b => q50Block (blockAt (t.packed (k * rowBytes t.fmt t.cols.toNat))
      (t.cols.toNat / 32) 22 r b)) (fun _ _ => length_q50Block _) Nat.one_pos hb hj
  rw [Nat.zero_mul, Nat.zero_add, t.blockAt_packed hrow] at hget
  have hne : ¬ t.fmt = .Q4_K := by rw [hf]; decide
  rw [rowShadow, ShadowTensorDesc.buildRows, if_neg hne]
  exact hget

theorem flShadowRowIndex_rowPtr (hrow : 0 < rowBytes t.fmt t.cols.toNat) (smmla : Bool) (k : ℕ) :
    flShadowRowIndex (t.span smmla) (t.rowPtr k) = k := by
  rw [flShadowRowIndex, rowPtr, BytePtr.add, span, Nat.add_sub_cancel_left,
    Nat.mul_div_cancel _ hrow]

theorem inRange_rowPtr (hrow : 0 < rowBytes t.fmt t.cols.toNat) {k : ℕ}
    (hk : k < t.rowsTotal.toNat) : t.InRange (t.rowPtr k) := by
  have hmul := Nat.mul_le_mul_right (rowBytes t.fmt t.cols.toNat) (Nat.succ_le_of_lt hk)
  rw [Nat.succ_mul, ← t.size] at hmul
  refine ⟨rfl, Nat.le_add_right _ _, ?_⟩
  simp only [rowPtr, BytePtr.add]
  omega

/-- In a plain span a row finds its shadow. -/
theorem flShadowRow_span (hf : t.Shadowed) (hrow : 0 < rowBytes t.fmt t.cols.toNat)
    {smmla : Bool} (hplain : t.fmt = .Q4_K → smmla = false) {k i : ℕ}
    (hk : k < t.rowsTotal.toNat) (hi : i < shadowRowBytes t.fmt t.cols.toNat) :
    flShadowRow (t.span smmla) (t.rowPtr k) i = (t.rowShadow k).getD i 0 := by
  have hindex := t.flShadowRowIndex_rowPtr hrow smmla k
  rw [flShadowRowIndex] at hindex
  rw [flShadowRow, hindex, off_apply, ptr, span]
  dsimp only
  rcases hf with hf | hf
  case inl =>
    have hsrb : shadowRowBytes t.fmt t.cols.toNat = t.cols.toNat / 256 * 280 := by rw [hf]; rfl
    rw [hsrb] at hi ⊢
    obtain ⟨sb, j, hsb, hj, rfl⟩ : ∃ sb j, sb < t.cols.toNat / 256 ∧ j < 280 ∧ i = sb * 280 + j :=
      ⟨i / 280, i % 280, by omega, by omega, by omega⟩
    rw [t.rowShadow_q4k hf k hsb hj, hplain hf, ShadowTensorDesc.shadow,
      ShadowTensorDesc.buildRows, if_pos hf]
    exact getD_rows (fun _ _ => length_q4kBlock _) hk hsb hj
  case inr =>
    have hsrb : shadowRowBytes t.fmt t.cols.toNat = t.cols.toNat / 32 * 40 := by rw [hf]; rfl
    rw [hsrb] at hi ⊢
    obtain ⟨b, j, hb, hj, rfl⟩ : ∃ b j, b < t.cols.toNat / 32 ∧ j < 40 ∧ i = b * 40 + j :=
      ⟨i / 40, i % 40, by omega, by omega, by omega⟩
    rw [t.rowShadow_q50 hf k hb hj, ShadowTensorDesc.shadow, ShadowTensorDesc.buildRows, hf]
    exact getD_rows (fun _ _ => length_q50Block _) hk hb hj

/-- In a span of pairs a row finds its shadow, in its half of the pair. -/
theorem flShadowPair_span (hf : t.fmt = .Q4_K) {k i : ℕ} (hk : k < t.rowsTotal.toNat)
    (hi : i < shadowRowBytes t.fmt t.cols.toNat) :
    pairHalf (flShadowPair (t.span true) k) (k % 2) i = (t.rowShadow k).getD i 0 := by
  have hsrb : shadowRowBytes t.fmt t.cols.toNat = t.cols.toNat / 256 * 280 := by rw [hf]; rfl
  rw [hsrb] at hi
  have hpair : t.cols.toNat / 256 * 280 * 2 = t.cols.toNat / 256 * 560 := by omega
  have hsplit : i / 280 * 280 + i % 280 = i := Nat.div_add_mod' i 280
  have hsb : i / 280 < t.cols.toNat / 256 := by omega
  have hj : i % 280 < 280 := Nat.mod_lt _ (by decide)
  have hrow := t.rowShadow_q4k hf k hsb hj
  rw [hsplit] at hrow
  rw [hrow, pairHalf, flShadowPair, off_apply, ptr, span]
  dsimp only
  rw [hsrb, hpair, ShadowTensorDesc.shadow, ShadowTensorDesc.buildRows, if_pos hf, if_pos rfl]
  exact buildRowsQ4kSmmla_getD (t.packed 0) hk hsb hj

/-- Every row finds its shadow in the span of its tensor, in either layout. -/
theorem rowByte_span (hf : t.Shadowed) (hrow : 0 < rowBytes t.fmt t.cols.toNat) (smmla : Bool)
    {k i : ℕ} (hk : k < t.rowsTotal.toNat) (hi : i < shadowRowBytes t.fmt t.cols.toNat) :
    (t.span smmla).rowByte (t.rowPtr k) i = (t.rowShadow k).getD i 0 := by
  rw [RegSpan.rowByte]
  by_cases hpair : smmla = true ∧ t.fmt = .Q4_K
  case pos =>
    obtain ⟨rfl, hq⟩ := hpair
    have hs : (t.span true).smmla = true := by simp [span, hq]
    rw [if_pos hs, t.flShadowRowIndex_rowPtr hrow]
    exact t.flShadowPair_span hq hk hi
  case neg =>
    have hs : ¬ (t.span smmla).smmla = true := by simpa [span] using hpair
    rw [if_neg hs]
    apply t.flShadowRow_span hf hrow _ hk hi
    intro hq
    by_contra hne
    exact hpair ⟨by simpa using hne, hq⟩

end PlacedTensor

/-! ## All rows -/

/-- A run that builds, on tensors that lie apart: every packed row of a shadowed format finds the
span of its own tensor, whose shadow is as long as planned and has for the row the bytes of the
row's own shadow; a pointer outside of these tensors finds no span.  The spans may be sorted in any
way, the threads may be any number, and either layout may be asked for. -/
theorem flShadowInit_rows {r : Run} {ts : List PlacedTensor} (file : Option (List UInt8))
    (hmode : r.mode = .build) (hmalloc : r.malloc = true)
    (hts : r.tensors = ts.map PlacedTensor.toShadowTensorDesc) (hapart : Apart ts)
    {g : List RegSpan} (hg : SortedRegistry (registered file r ts) g) :
    (∀ t ∈ ts, t.Shadowed → 0 < rowBytes t.fmt t.cols.toNat → ∀ k < t.rowsTotal.toNat,
      flShadowFind g (t.rowPtr k) = some (t.span r.layout) ∧
        (t.span r.layout).shadow.length =
          t.rowsTotal.toNat * shadowRowBytes t.fmt t.cols.toNat ∧
        ∀ i < shadowRowBytes t.fmt t.cols.toNat,
          (t.span r.layout).rowByte (t.rowPtr k) i = (t.rowShadow k).getD i 0) ∧
      ∀ p, (∀ t ∈ ts, t.Shadowed → ¬ t.InRange p) → flShadowFind g p = none := by
  rw [registered_build hmode hmalloc hts] at hg
  constructor
  case left =>
    intro t ht hf hrow k hk
    have hmem : t ∈ wanted ts := mem_wanted.mpr ⟨ht, hf⟩
    refine ⟨?find, ?length, fun i hi => t.rowByte_span hf hrow r.layout hk hi⟩
    case find =>
      apply hapart.finds hg hmem
      rw [t.contains_span]
      exact t.inRange_rowPtr hrow hk
    case length =>
      apply r.length_shadow
      rw [Run.want, hts, collect_want]
      exact List.mem_map_of_mem hmem
  case right =>
    intro p hp
    apply flShadowFind_eq_none
    intro s hs hin
    rw [hg.perm.mem_iff] at hs
    obtain ⟨t, ht, rfl⟩ := List.mem_map.mp hs
    obtain ⟨hmem, hf⟩ := mem_wanted.mp ht
    exact hp t hmem hf ((t.contains_span _ p).mp hin)

/-- Rows of one block of Q5_0 each, from a byte on. -/
def oneBlockRows (rows : UInt64) (byte : ℕ) : PlacedTensor where
  name := []
  p := List.replicate (rows.toNat * 22) 0
  fmt := .Q5_0
  cols := 32
  rowsTotal := rows
  size := by rw [List.length_replicate]; rfl
  base := ⟨0, byte⟩

/-- A run that builds the shadows of two tensors, with the row-pair layout if it can. -/
def buildRun (t u : PlacedTensor) : Run where
  mode := .build
  smmla := true
  hw := 4
  tensors := [t.toShadowTensorDesc, u.toShadowTensorDesc]
  readable := false
  malloc := true
  saved := .notRenamed
  few := Nat.lt_of_lt_of_le (by decide : 2 < 2 ^ 2) (Nat.pow_le_pow_right (by decide) (by decide))

/-- Three rows behind two others, which come first in the list. -/
theorem flShadowInit_rows_two :
    let t := oneBlockRows 2 66
    let u := oneBlockRows 3 0
    let g := [u.span true, t.span true]
    flShadowFind g ⟨0, 44⟩ = some (u.span true) ∧ flShadowFind g ⟨0, 88⟩ = some (t.span true) ∧
      (∀ i < 40, (u.span true).rowByte ⟨0, 44⟩ i = (u.rowShadow 2).getD i 0) ∧
      flShadowFind g ⟨0, 110⟩ = none := by
  intro t u g
  have hdisjoint : ∀ p, ¬ (t.InRange p ∧ u.InRange p) := by
    rintro p ⟨⟨-, hlo, -⟩, -, -, hhi⟩
    have hu : u.p.length = 66 := by decide
    have hlo' : 66 ≤ p.byte := hlo
    have hhi' : p.byte < 0 + u.p.length := hhi
    omega
  have hapart : Apart [t, u] := by
    constructor
    · have hpair : wanted [t, u] = [t, u] := rfl
      rw [hpair]
      simpa using hdisjoint
    · intro v hv hnil
      have hlen : v.p.length = 0 := by rw [hnil]; rfl
      rcases List.mem_pair.mp (show v ∈ [t, u] from hv) with rfl | rfl
      · exact absurd hlen (by decide)
      · exact absurd hlen (by decide)
  have hg : SortedRegistry (registered none (buildRun t u) [t, u]) g := by
    rw [registered_build rfl rfl rfl]
    refine ⟨List.Perm.swap _ _ _, ?_⟩
    simp only [List.pairwise_cons, List.mem_singleton, forall_eq, List.not_mem_nil, false_imp_iff,
      implies_true, List.Pairwise.nil, and_true, g]
    decide
  obtain ⟨hrows, hout⟩ := flShadowInit_rows none rfl rfl rfl hapart hg
  have hu := hrows u (by simp) (Or.inr rfl) (by decide) 2 (by decide)
  have ht := hrows t (by simp) (Or.inr rfl) (by decide) 1 (by decide)
  have hlayout : (buildRun t u).layout = true := by decide
  have hu2 : u.rowPtr 2 = ⟨0, 44⟩ := by decide
  have ht1 : t.rowPtr 1 = ⟨0, 88⟩ := by decide
  have hbytes : shadowRowBytes u.fmt u.cols.toNat = 40 := by decide
  rw [hlayout, hu2, hbytes] at hu
  rw [hlayout, ht1] at ht
  refine ⟨hu.1, ht.1, hu.2.2, hout _ ?_⟩
  intro v hv _
  rintro ⟨-, -, hhi⟩
  rcases List.mem_pair.mp hv with rfl | rfl
  · have hlen : t.p.length = 44 := by decide
    have hhi' : 110 < 66 + t.p.length := hhi
    omega
  · have hlen : u.p.length = 66 := by decide
    have hhi' : 110 < 0 + u.p.length := hhi
    omega

/-- A tensor without rows hides the second row of a tensor that it points into, although the two
have no byte in common. -/
theorem empty_tensor_hides_row :
    ¬ ∀ (r : Run) (ts : List PlacedTensor) (g : List RegSpan), r.mode = .build →
      r.malloc = true → r.tensors = ts.map PlacedTensor.toShadowTensorDesc →
      ((wanted ts).Pairwise fun t u => ∀ p, ¬ (t.InRange p ∧ u.InRange p)) →
      SortedRegistry (registered none r ts) g →
      ∀ t ∈ ts, t.Shadowed → 0 < rowBytes t.fmt t.cols.toNat → ∀ k < t.rowsTotal.toNat,
        flShadowFind g (t.rowPtr k) = some (t.span r.layout) := by
  intro h
  let t := oneBlockRows 2 0
  let u := oneBlockRows 0 22
  have hdisjoint : ∀ p, ¬ (t.InRange p ∧ u.InRange p) := by
    rintro p ⟨-, -, hlo, hhi⟩
    have hu : u.p.length = 0 := by decide
    omega
  have hpairwise : (wanted [t, u]).Pairwise fun t u => ∀ p, ¬ (t.InRange p ∧ u.InRange p) := by
    have hpair : wanted [t, u] = [t, u] := rfl
    rw [hpair]
    simpa using hdisjoint
  have hg : SortedRegistry (registered none (buildRun t u) [t, u]) [t.span true, u.span true] := by
    rw [registered_build rfl rfl rfl]
    refine ⟨List.Perm.refl _, ?_⟩
    simp only [List.pairwise_cons, List.mem_singleton, forall_eq, List.not_mem_nil, false_imp_iff,
      implies_true, List.Pairwise.nil, and_true]
    decide
  have hfind := h (buildRun t u) [t, u] _ rfl rfl rfl hpairwise hg t (by simp) (Or.inr rfl)
    (by decide) 1 (by decide)
  have hnone : (flShadowFind [t.span true, u.span true] (t.rowPtr 1)).isSome = false := by decide
  rw [hfind] at hnone
  cases hnone

end FastLlm
