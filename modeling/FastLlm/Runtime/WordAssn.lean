import Mathlib
import FastLlm.Lib.TaskAssn
import FastLlm.Runtime.OpPlaces

/-!
# Words in memory

Assertions on the words at a pointer: a list of words that is ready for reading once some tasks are
over, and one that nobody touches any more, which may be overwritten then.  A list in parts is the
sum of the parts.

## Main definitions

* `Loc.span` — the words at a pointer.
* `Loc.contents` — the words at a pointer in a memory.
* `ready`, `idle` — a list of words for reading, and for writing.
* `stored` — a list of words at the end.
-/

namespace FastLlm

namespace Loc
variable {x l : Loc} {u v : List Word} {n a b i : ℕ} {μ : Loc → Word}

/-- The `n` words at `x`. -/
def span (x : Loc) (n : ℕ) : Set Loc := {l | ∃ i < n, l = x.add i}

/-- The words `v`, laid out at `x`. -/
def fill (x : Loc) (v : List Word) (l : Loc) : Word := v.getD (l.off - x.off) 0

/-- The `n` words at `x` in a memory. -/
def contents (x : Loc) (n : ℕ) (μ : Loc → Word) : List Word := (List.range n).map fun i => μ (x.add i)

theorem add_mem_span (hi : i < n) : x.add i ∈ x.span n := ⟨i, hi, rfl⟩

theorem mem_span : l ∈ x.span n ↔ l.obj = x.obj ∧ x.off ≤ l.off ∧ l.off < x.off + n := by
  constructor
  · rintro ⟨i, hi, rfl⟩
    exact ⟨rfl, Nat.le_add_right _ _, Nat.add_lt_add_left hi _⟩
  · rintro ⟨hobj, hle, hlt⟩
    refine ⟨l.off - x.off, by omega, ?_⟩
    obtain ⟨obj, off⟩ := l
    simp only [add, mk.injEq] at hobj ⊢
    exact ⟨hobj, by simp only at hle; omega⟩

@[simp] theorem span_zero : x.span 0 = ∅ := by
  ext l
  simp [span]

theorem span_mono (h : a ≤ b) : x.span a ⊆ x.span b := by
  rintro _ ⟨i, hi, rfl⟩
  exact ⟨i, hi.trans_le h, rfl⟩

theorem span_add : x.span (a + b) = x.span a ∪ (x.add a).span b := by
  ext l
  simp only [Set.mem_union, mem_span, obj_add, off_add]
  omega

theorem disjoint_span_add : Disjoint (x.span a) ((x.add a).span b) := by
  rw [Set.disjoint_left]
  intro l h h'
  have := (mem_span.mp h).2.2
  have := (mem_span.mp h').2.1
  rw [off_add] at this
  omega

@[simp] theorem fill_add : x.fill v (x.add i) = v.getD i 0 := by
  rw [fill, off_add, Nat.add_sub_cancel_left]

theorem fill_append_left (h : l ∈ x.span u.length) : x.fill (u ++ v) l = x.fill u l := by
  obtain ⟨i, hi, rfl⟩ := h
  rw [fill_add, fill_add, List.getD_append _ _ _ _ hi]

theorem fill_append_right (h : l ∈ (x.add u.length).span v.length) :
    x.fill (u ++ v) l = (x.add u.length).fill v l := by
  obtain ⟨i, hi, rfl⟩ := h
  rw [fill_add, add_add, fill_add, List.getD_append_right _ _ _ _ (Nat.le_add_right _ _),
    Nat.add_sub_cancel_left]

@[simp] theorem length_contents : (x.contents n μ).length = n := by simp [contents]

theorem getD_contents (h : i < n) : (x.contents n μ).getD i 0 = μ (x.add i) := by
  simp [contents, h]

theorem fill_contents (h : l ∈ x.span n) : x.fill (x.contents n μ) l = μ l := by
  obtain ⟨i, hi, rfl⟩ := h
  rw [fill_add, getD_contents hi]

theorem contents_add :
    x.contents (a + b) μ = x.contents a μ ++ (x.add a).contents b μ := by
  simp only [contents, List.range_add, List.map_append, List.map_map, Function.comp_def, add_add]

/-- A memory has the words `v` at `x`. -/
theorem contents_eq (h : ∀ i < v.length, μ (x.add i) = v.getD i 0) : x.contents v.length μ = v := by
  apply List.ext_getElem (length_contents)
  intro i hi hv
  rw [← List.getD_eq_getElem _ 0 hi, ← List.getD_eq_getElem _ 0 hv, getD_contents hv, h i hv]

end Loc

@[simp] theorem final_readWords (x : Loc) (n : ℕ) (μ : Loc → Word) :
    (readWords x n).final μ = μ := by
  induction n with
  | zero => rfl
  | succ n ih =>
    change ((readWords x n).bind _).final μ = μ
    rw [MemProg.final_bind, ih]
    rfl

@[simp] theorem val_readWords (x : Loc) (n : ℕ) (μ : Loc → Word) :
    (readWords x n).val μ = x.contents n μ := by
  induction n with
  | zero => rfl
  | succ n ih =>
    change ((readWords x n).bind _).val μ = _
    rw [MemProg.val_bind, ih, final_readWords, Loc.contents_add]
    rfl

/-! ## Assertions -/

open Assn
variable {ds ds' : List ℕ} {x : Loc} {u v : List Word} {n m k : ℕ}

/-- The words `v` are at `x` once `ds` are over. -/
def ready (ds : List ℕ) (x : Loc) (v : List Word) : Assn Loc Word :=
  filled ds (x.span v.length) (x.fill v)

/-- The words `v` are at `x`, and nobody touches them any more, once `ds` are over. -/
def idle (ds : List ℕ) (x : Loc) (v : List Word) : Assn Loc Word :=
  owned ds (x.span v.length) (x.fill v)

theorem eq_span_of_ready {F : TaskFlow Loc Word} {A : Set Loc} (h : (ready ds x v).holds F A) :
    A = x.span v.length := h.1

theorem eq_span_of_idle {F : TaskFlow Loc Word} {A : Set Loc} (h : (idle ds x v).holds F A) :
    A = x.span v.length := h.1

theorem idle_le_ready : idle ds x v ≤ ready ds x v := owned_le_filled

theorem sum_idle_le_ready {es : ℕ → List ℕ} {y : ℕ → Loc} {w : ℕ → List Word} :
    ∑ p ∈ Finset.range m, idle (es p) (y p) (w p) ≤ ∑ p ∈ Finset.range m, ready (es p) (y p) (w p) :=
  Finset.sum_le_sum fun _ _ => idle_le_ready

theorem ready_le (h : ds ⊆ ds') : ready ds x v ≤ ready ds' x v := filled_le h

theorem idle_le (h : ds ⊆ ds') : idle ds x v ≤ idle ds' x v := owned_le h

theorem ready_add_past_le : ready ds x v + past ds ds' ≤ ready ds' x v := filled_add_past_le

theorem reads_ready (h : ds ⊆ ds') : (ready ds x v).Reads ds' fun _ => ready ds x v :=
  reads_filled h

/-- What is there before a new task is there once the new task is over. -/
theorem reads_ready_self (h : ds ⊆ ds') : (ready ds x v).Reads ds' fun id => ready [id] x v :=
  reads_filled_self h

theorem reads_idle_self (h : ds ⊆ ds') : (idle ds x v).Reads ds' fun id => idle [id] x v :=
  reads_owned_self h

theorem owns_idle (h : ds ⊆ ds') : (idle ds x v).Owns ds' := owns_owned h

@[simp] theorem ready_nil : ready ds x [] = 0 := by simp [ready]

@[simp] theorem idle_nil : idle ds x [] = 0 := by simp [idle]

theorem ready_append : ready ds x (u ++ v) = ready ds x u + ready ds (x.add u.length) v := by
  rw [ready, List.length_append, Loc.span_add, filled_union Loc.disjoint_span_add,
    filled_congr fun _ h => Loc.fill_append_left h, filled_congr fun _ h => Loc.fill_append_right h]
  rfl

theorem idle_append : idle ds x (u ++ v) = idle ds x u + idle ds (x.add u.length) v := by
  rw [idle, List.length_append, Loc.span_add, owned_union Loc.disjoint_span_add,
    owned_congr fun _ h => Loc.fill_append_left h, owned_congr fun _ h => Loc.fill_append_right h]
  rfl

theorem length_rows {g : ℕ → List Word} (hg : ∀ i < m, (g i).length = k) :
    ((List.range m).flatMap g).length = m * k := by
  rw [List.length_flatMap, List.map_congr_left fun i hi => hg i (List.mem_range.mp hi),
    List.map_const', List.sum_replicate, List.length_range]
  rfl

theorem getD_flatMap_rows {g : ℕ → List Word} (hg : ∀ i < m, (g i).length = k) {h d : ℕ} (hh : h < m)
    (hd : d < k) : ((List.range m).flatMap g).getD (h * k + d) 0 = (g h).getD d 0 := by
  induction m with
  | zero => exact absurd hh (Nat.not_lt_zero h)
  | succ m ih =>
    have hgm : ∀ i < m, (g i).length = k := fun i hi => hg i (Nat.lt_succ_of_lt hi)
    rw [List.range_succ, List.flatMap_append, List.flatMap_singleton]
    rcases Nat.lt_succ_iff_lt_or_eq.mp hh with hlt | rfl
    · rw [List.getD_append _ _ _ _ ((mul_add_lt hlt hd).trans_eq (length_rows hgm).symm),
        ih hgm hlt]
    · rw [List.getD_append_right _ _ _ _ ((length_rows hgm).le.trans (Nat.le_add_right _ _)),
        length_rows hgm, Nat.add_sub_cancel_left]

/-- Rows of `k` words, one after the other. -/
theorem ready_flatMap {g : ℕ → List Word} (hg : ∀ i < m, (g i).length = k) :
    ready ds x ((List.range m).flatMap g) = ∑ i ∈ Finset.range m, ready ds (x.add (i * k)) (g i) := by
  induction m with
  | zero => simp
  | succ m ih =>
    rw [List.range_succ, List.flatMap_append, ready_append,
      length_rows fun i hi => hg i (Nat.lt_succ_of_lt hi), Finset.sum_range_succ,
      ih fun i hi => hg i (Nat.lt_succ_of_lt hi), List.flatMap_singleton]

theorem idle_flatMap {g : ℕ → List Word} (hg : ∀ i < m, (g i).length = k) :
    idle ds x ((List.range m).flatMap g) = ∑ i ∈ Finset.range m, idle ds (x.add (i * k)) (g i) := by
  induction m with
  | zero => simp
  | succ m ih =>
    rw [List.range_succ, List.flatMap_append, idle_append,
      length_rows fun i hi => hg i (Nat.lt_succ_of_lt hi), Finset.sum_range_succ,
      ih fun i hi => hg i (Nat.lt_succ_of_lt hi), List.flatMap_singleton]

/-- Word by word. -/
theorem ready_words : ready ds x v = ∑ i ∈ Finset.range v.length, ready ds (x.add i) [v.getD i 0] := by
  have hwords : v = (List.range v.length).flatMap fun i => [v.getD i 0] := by
    rw [← List.map_eq_flatMap]
    exact List.ext_getElem (by simp) fun i hi _ => by simp [hi]
  have h : ready ds x _ = _ := ready_flatMap (m := v.length) (g := fun i => [v.getD i 0]) (k := 1)
    fun _ _ => rfl
  rw [← hwords] at h
  simpa only [Nat.mul_one] using h

theorem contents_rows {μ : Loc → Word} : x.contents (m * k) μ =
    (List.range m).flatMap fun i => (x.add (i * k)).contents k μ := by
  induction m with
  | zero => simp [Loc.contents]
  | succ m ih => simp [Nat.succ_mul, Loc.contents_add, List.range_succ, ih]

/-- The first rows, and the others. -/
theorem rows_split {g : ℕ → List Word} {r : ℕ} (hr : r ≤ m) : (List.range m).flatMap g =
    (List.range r).flatMap g ++ (List.range (m - r)).flatMap fun i => g (r + i) := by
  obtain ⟨d, rfl⟩ := Nat.exists_eq_add_of_le hr
  rw [List.range_add, List.flatMap_append, Nat.add_sub_cancel_left, List.flatMap_map]

/-- The first rows. -/
theorem take_rows {g : ℕ → List Word} (hg : ∀ i < m, (g i).length = k) {r : ℕ} (hr : r ≤ m) :
    ((List.range m).flatMap g).take (r * k) = (List.range r).flatMap g := by
  have hlen : ((List.range r).flatMap g).length = r * k :=
    length_rows fun i hi => hg i (hi.trans_le hr)
  rw [rows_split hr, ← hlen, List.take_left]

theorem drop_rows {g : ℕ → List Word} (hg : ∀ i < m, (g i).length = k) {r : ℕ} (hr : r ≤ m) :
    ((List.range m).flatMap g).drop (r * k) = (List.range (m - r)).flatMap fun i => g (r + i) := by
  have hlen : ((List.range r).flatMap g).length = r * k :=
    length_rows fun i hi => hg i (hi.trans_le hr)
  rw [rows_split hr, ← hlen, List.drop_left]

/-- Row `r`. -/
theorem take_drop_rows {g : ℕ → List Word} (hg : ∀ i < m, (g i).length = k) {r : ℕ} (hr : r < m) :
    (((List.range m).flatMap g).drop (r * k)).take k = g r := by
  obtain ⟨d, rfl⟩ := Nat.exists_eq_add_of_le (Nat.succ_le_of_lt hr)
  have hlen : ((List.range r).flatMap g).length = r * k :=
    length_rows fun i hi => hg i (hi.trans hr)
  rw [List.range_add, List.range_succ, List.flatMap_append, List.flatMap_append, List.append_assoc,
    ← hlen, List.drop_left, List.flatMap_singleton, ← hg r hr, List.take_left]

/-- The words `v` are at `x` after all tasks. -/
def stored (x : Loc) (v : List Word) : Assn Loc Word := kept (x.span v.length) (x.fill v)

theorem ready_le_stored : ready ds x v ≤ stored x v := filled_le_kept

end FastLlm
