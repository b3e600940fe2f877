import Mathlib.Data.Set.Insert
import Mathlib.Logic.Function.Basic

/-!
# Programs over a shared memory

A sequential program reads and writes one location at a time.  Which locations it
touches may depend on the values it reads, so its footprint is taken at a memory.
A program is a deterministic function of what it reads: at two memories that agree
on the read footprint it touches the same locations, writes the same values and
returns the same result.

## Main definitions

* `MemProg L V α` — the program; a monad.
* `footprint p m` — the locations `p` reads and writes when it runs from `m`.
* `Footprint.Conflict` — one writes a location the other reads or writes.
* `Steps` — the partial runs of a program.
-/

/-- A sequential program over a memory `L → V` with a result in `α`. -/
inductive MemProg (L V α : Type) where
  | pure (a : α)
  | read (l : L) (k : V → MemProg L V α)
  | write (l : L) (v : V) (k : MemProg L V α)

/-- The locations read and written by a run. -/
@[ext] structure Footprint (L : Type) where
  reads : Set L
  writes : Set L

/-- One of the two writes a location that the other reads or writes. -/
def Footprint.Conflict {L : Type} (F G : Footprint L) : Prop :=
  ∃ l, (l ∈ F.writes ∧ (l ∈ G.reads ∨ l ∈ G.writes)) ∨ (l ∈ G.writes ∧ l ∈ F.reads)

theorem Footprint.Conflict.symm {L : Type} {F G : Footprint L} (h : F.Conflict G) :
    G.Conflict F := by
  obtain ⟨l, ⟨hF, hG | hG⟩ | ⟨hG, hF⟩⟩ := h
  · exact ⟨l, .inr ⟨hF, hG⟩⟩
  · exact ⟨l, .inl ⟨hG, .inr hF⟩⟩
  · exact ⟨l, .inl ⟨hG, .inl hF⟩⟩

namespace MemProg
variable {L V α β : Type}

/-- Sequential composition. -/
def bind : MemProg L V α → (α → MemProg L V β) → MemProg L V β
  | pure a, f => f a
  | read l k, f => read l fun v => bind (k v) f
  | write l v k, f => write l v (bind k f)

instance : Monad (MemProg L V) where
  pure := pure
  bind := bind

/-- Read one location. -/
def get (l : L) : MemProg L V V := read l pure

/-- Write one location. -/
def put (l : L) (v : V) : MemProg L V Unit := write l v (pure ())

/-- Run `f 0, …, f (n - 1)` in order, threading an accumulator. -/
def loop (f : ℕ → α → MemProg L V α) : ℕ → α → MemProg L V α
  | 0, a => pure a
  | n + 1, a => bind (loop f n a) (f n)

/-- `for (i = 0; i < n; ++i) f i`. -/
def forRange (n : ℕ) (f : ℕ → MemProg L V Unit) : MemProg L V Unit :=
  loop (fun i _ => f i) n ()

section Run
variable [DecidableEq L]

/-- The result of running from `m`. -/
def val : MemProg L V α → (L → V) → α
  | pure a, _ => a
  | read l k, m => val (k (m l)) m
  | write l v k, m => val k (Function.update m l v)

/-- The memory after running from `m`. -/
def final : MemProg L V α → (L → V) → (L → V)
  | pure _, m => m
  | read l k, m => final (k (m l)) m
  | write l v k, m => final k (Function.update m l v)

/-- The locations a run from `m` reads and writes. -/
def footprint : MemProg L V α → (L → V) → Footprint L
  | pure _, _ => ⟨∅, ∅⟩
  | read l k, m => ⟨insert l (footprint (k (m l)) m).reads, (footprint (k (m l)) m).writes⟩
  | write l v k, m =>
      ⟨(footprint k (Function.update m l v)).reads,
        insert l (footprint k (Function.update m l v)).writes⟩

/-! ## Simp set -/

@[simp] theorem val_pure (a : α) (m : L → V) : (pure a : MemProg L V α).val m = a := rfl
@[simp] theorem final_pure (a : α) (m : L → V) : (pure a : MemProg L V α).final m = m := rfl
@[simp] theorem val_read (l : L) (k : V → MemProg L V α) (m : L → V) :
    (read l k).val m = (k (m l)).val m := rfl
@[simp] theorem final_read (l : L) (k : V → MemProg L V α) (m : L → V) :
    (read l k).final m = (k (m l)).final m := rfl
@[simp] theorem val_write (l : L) (v : V) (k : MemProg L V α) (m : L → V) :
    (write l v k).val m = k.val (Function.update m l v) := rfl
@[simp] theorem final_write (l : L) (v : V) (k : MemProg L V α) (m : L → V) :
    (write l v k).final m = k.final (Function.update m l v) := rfl
@[simp] theorem footprint_pure (a : α) (m : L → V) :
    (pure a : MemProg L V α).footprint m = ⟨∅, ∅⟩ := rfl
@[simp] theorem val_get (l : L) (m : L → V) : (get l : MemProg L V V).val m = m l := rfl
@[simp] theorem final_get (l : L) (m : L → V) : (get l : MemProg L V V).final m = m := rfl
@[simp] theorem val_put (l : L) (v : V) (m : L → V) : (put l v).val m = () := rfl
@[simp] theorem final_put (l : L) (v : V) (m : L → V) :
    (put l v).final m = Function.update m l v := rfl

@[simp] theorem val_bind (p : MemProg L V α) (f : α → MemProg L V β) (m : L → V) :
    (p.bind f).val m = (f (p.val m)).val (p.final m) := by
  induction p generalizing m with
  | pure a => rfl
  | read l k ih => exact ih _ m
  | write l v k ih => exact ih _

@[simp] theorem final_bind (p : MemProg L V α) (f : α → MemProg L V β) (m : L → V) :
    (p.bind f).final m = (f (p.val m)).final (p.final m) := by
  induction p generalizing m with
  | pure a => rfl
  | read l k ih => exact ih _ m
  | write l v k ih => exact ih _

theorem footprint_bind (p : MemProg L V α) (f : α → MemProg L V β) (m : L → V) :
    (p.bind f).footprint m =
      ⟨(p.footprint m).reads ∪ ((f (p.val m)).footprint (p.final m)).reads,
        (p.footprint m).writes ∪ ((f (p.val m)).footprint (p.final m)).writes⟩ := by
  induction p generalizing m with
  | pure a => simp [bind]
  | read l k ih => simp [bind, footprint, ih, Set.insert_union]
  | write l v k ih => simp [bind, footprint, ih, Set.insert_union]

/-! ## A program is a function of its read footprint -/

/-- A run changes only the locations it writes. -/
theorem final_of_notMem (p : MemProg L V α) (m : L → V) {l : L}
    (h : l ∉ (p.footprint m).writes) : p.final m l = m l := by
  induction p generalizing m with
  | pure a => rfl
  | read l' k ih => exact ih _ m h
  | write l' v k ih =>
      simp only [footprint, Set.mem_insert_iff, not_or] at h
      calc k.final (Function.update m l' v) l
          = Function.update m l' v l := ih _ h.2
        _ = m l := Function.update_of_ne h.1 v m

/-- Two runs from memories that agree on `S` and on what is read elsewhere take the
same path.  `S` collects what both have written so far. -/
private theorem run_congr (p : MemProg L V α) (m m' : L → V) (S : Set L)
    (hout : ∀ l ∉ S, l ∈ (p.footprint m).reads → m' l = m l) (hin : ∀ l ∈ S, m' l = m l) :
    p.footprint m' = p.footprint m ∧ p.val m' = p.val m ∧
      ∀ l, l ∈ S ∨ l ∈ (p.footprint m).writes → p.final m' l = p.final m l := by
  induction p generalizing m m' S with
  | pure a => exact ⟨rfl, rfl, fun l hl => hin l (by simpa using hl)⟩
  | read l k ih =>
      have hl : m' l = m l := by
        by_cases hS : l ∈ S
        · exact hin l hS
        · exact hout l hS (Set.mem_insert _ _)
      obtain ⟨hf, hrest⟩ :=
        ih (m l) m m' S (fun l' hl' hr => hout l' hl' (Set.mem_insert_of_mem _ hr)) hin
      exact ⟨by simp only [footprint, hl, hf],
        by simpa only [val_read, final_read, footprint, hl] using hrest⟩
  | write l v k ih =>
      obtain ⟨hf, hv, hfin⟩ := ih (Function.update m l v) (Function.update m' l v) (insert l S)
        (by
          intro l' hl' hr
          simp only [Set.mem_insert_iff, not_or] at hl'
          rw [Function.update_of_ne hl'.1, Function.update_of_ne hl'.1]
          exact hout l' hl'.2 hr)
        (by
          intro l' hl'
          by_cases hll : l' = l
          · subst hll; simp
          · rw [Function.update_of_ne hll, Function.update_of_ne hll,
              hin l' (Set.mem_of_mem_insert_of_ne hl' hll)])
      refine ⟨by simp only [footprint, hf], hv, fun l' hl' => hfin l' ?_⟩
      rcases hl' with hl' | hl' | hl'
      · exact .inl (Set.mem_insert_of_mem _ hl')
      · exact .inl (hl' ▸ Set.mem_insert _ _)
      · exact .inr hl'

/-- At memories that agree on the read footprint the footprints agree. -/
theorem footprint_congr (p : MemProg L V α) (m m' : L → V)
    (h : ∀ l ∈ (p.footprint m).reads, m' l = m l) : p.footprint m' = p.footprint m :=
  (p.run_congr m m' ∅ (fun l _ hl => h l hl) (fun _ hl => absurd hl (Set.notMem_empty _))).1

/-- At memories that agree on the read footprint the same values are written. -/
theorem final_congr (p : MemProg L V α) (m m' : L → V)
    (h : ∀ l ∈ (p.footprint m).reads, m' l = m l) {l : L} (hl : l ∈ (p.footprint m).writes) :
    p.final m' l = p.final m l :=
  (p.run_congr m m' ∅ (fun l _ hl => h l hl)
    (fun _ hl => absurd hl (Set.notMem_empty _))).2.2 l (.inr hl)

/-! ## Programs that do not conflict commute -/

/-- Two programs that do not conflict when run one after the other have the same
footprints, and leave the same memory, in the other order. -/
theorem swap {p q : MemProg L V α} {m : L → V}
    (h : ¬ (p.footprint m).Conflict (q.footprint (p.final m))) :
    q.footprint m = q.footprint (p.final m) ∧ p.footprint (q.final m) = p.footprint m ∧
      p.final (q.final m) = q.final (p.final m) := by
  simp only [Footprint.Conflict, not_exists, not_or, not_and] at h
  have hq : ∀ l ∈ (q.footprint (p.final m)).reads, m l = p.final m l := fun l hl =>
    (p.final_of_notMem m fun hw => (h l).1 hw |>.1 hl).symm
  have hfq := q.footprint_congr _ _ hq
  have hp : ∀ l ∈ (p.footprint m).reads, q.final m l = m l := fun l hl =>
    q.final_of_notMem m fun hw => (h l).2 (hfq ▸ hw) hl
  have hfp := p.footprint_congr _ _ hp
  refine ⟨hfq, hfp, funext fun l => ?_⟩
  by_cases hpw : l ∈ (p.footprint m).writes
  · have hqw : l ∉ (q.footprint (p.final m)).writes := fun hw => (h l).1 hpw |>.2 hw
    rw [p.final_congr _ _ hp hpw, q.final_of_notMem _ hqw]
  · rw [p.final_of_notMem _ (hfp ▸ hpw)]
    by_cases hqw : l ∈ (q.footprint (p.final m)).writes
    · exact q.final_congr _ _ hq hqw
    · rw [q.final_of_notMem _ (hfq ▸ hqw), q.final_of_notMem _ hqw, p.final_of_notMem _ hpw]

/-! ## Partial runs -/

/-- `Steps p m q n`: part of a run of `p` from `m` has come to the rest `q` at `n`. -/
inductive Steps (p : MemProg L V α) (m : L → V) : MemProg L V α → (L → V) → Prop
  | start : Steps p m p m
  | read {l : L} {k : V → MemProg L V α} {n : L → V} :
      Steps p m (read l k) n → Steps p m (k (n l)) n
  | write {l : L} {v : V} {k : MemProg L V α} {n : L → V} :
      Steps p m (write l v k) n → Steps p m k (Function.update n l v)

namespace Steps
variable {p q : MemProg L V α} {m n : L → V}

/-- What is left to run ends where the whole run ends. -/
theorem final_eq (h : Steps p m q n) : q.final n = p.final m := by
  induction h with
  | start => rfl
  | read _ ih => exact ih
  | write _ ih => exact ih

/-- What is left to run touches only what the whole run touches. -/
theorem footprint_subset (h : Steps p m q n) :
    (q.footprint n).reads ⊆ (p.footprint m).reads ∧
      (q.footprint n).writes ⊆ (p.footprint m).writes := by
  induction h with
  | start => exact ⟨subset_rfl, subset_rfl⟩
  | read _ ih => exact ⟨(Set.subset_insert _ _).trans ih.1, ih.2⟩
  | write _ ih => exact ⟨ih.1, (Set.subset_insert _ _).trans ih.2⟩

/-- A partial run is carried over to a memory that differs only outside its
footprint. -/
theorem patch (h : Steps p m q n) (m' : L → V) {W : Set L}
    (hW : ∀ l ∈ W, l ∉ (p.footprint m).reads ∧ l ∉ (p.footprint m).writes)
    (hm : ∀ l ∉ W, m' l = m l) :
    ∃ n', Steps p m' q n' ∧ (∀ l ∈ W, n' l = m' l) ∧ ∀ l ∉ W, n' l = n l := by
  induction h with
  | start => exact ⟨m', .start, fun _ _ => rfl, hm⟩
  | read h ih =>
      rename_i l k n
      obtain ⟨n', hn', hin, hout⟩ := ih
      have hl : l ∉ W := fun hlW =>
        (hW l hlW).1 (h.footprint_subset.1 (Set.mem_insert _ _))
      have := hn'.read
      rw [hout l hl] at this
      exact ⟨n', this, hin, hout⟩
  | write h ih =>
      rename_i l v k n
      obtain ⟨n', hn', hin, hout⟩ := ih
      have hl : l ∉ W := fun hlW =>
        (hW l hlW).2 (h.footprint_subset.2 (Set.mem_insert _ _))
      refine ⟨_, hn'.write, fun l' hl' => ?_, fun l' hl' => ?_⟩
      · have hne : l' ≠ l := fun he => hl (he ▸ hl')
        rw [Function.update_of_ne hne, hin l' hl']
      · by_cases he : l' = l
        · subst he; simp
        · rw [Function.update_of_ne he, Function.update_of_ne he, hout l' hl']

end Steps
end Run
end MemProg
