import Mathlib
import FastLlm.Lib.TopoOrder

/-!
# Tasks as they are added

Tasks over a shared memory are added one after the other, each behind tasks that were added before
it.  Run in that order they act on a memory with definite footprints.  When tasks that conflict are
ordered by a path (`Sound`), every order that respects the dependencies runs them with the same
footprints and to the same end (`Sound.exec_eq`).

A new task keeps this up when what it reads was written, and what it writes was touched, only by
tasks that are over once its dependencies are (`Adds.sound`).

## Main definitions

* `TaskFlow` — the tasks added so far, and the locations they may write.
* `TaskFlow.Continues`, `TaskFlow.Adds` — later tasks, and one more task.
* `TaskFlow.foot`, `TaskFlow.after` — what the tasks touch and leave, run in the order they came.
* `TaskFlow.Sound` — conflicting tasks are ordered.
-/

open Relation

/-- Tasks numbered as they were added, who waits for whom, the memory they start from, the locations
handed out for writing, and those that are never written. -/
structure TaskFlow (L V : Type) where
  next : ℕ
  prog : ℕ → Option (MemProg L V Unit)
  dep : ℕ → ℕ → Prop
  init : L → V
  heap : Set L
  const : Set L

namespace TaskFlow
variable {L V : Type} (F : TaskFlow L V)

/-- `i` is a task. -/
def Has (i : ℕ) : Prop := (F.prog i).isSome = true

/-- A number that is no task does nothing. -/
def body (i : ℕ) : MemProg L V Unit := (F.prog i).getD (.pure ())

/-- Task `i` is over once `ds` are. -/
def Done (ds : List ℕ) (i : ℕ) : Prop := ∃ d ∈ ds, ReflTransGen F.dep i d

/-- `F'` goes on where `F` ends. -/
structure Continues (F' : TaskFlow L V) : Prop where
  next_le : F.next ≤ F'.next
  prog_eq : ∀ i < F.next, F'.prog i = F.prog i
  dep_mono : ∀ i j, F.dep i j → F'.dep i j
  init_eq : F'.init = F.init
  const_eq : F'.const = F.const
  heap_sub : F.heap ⊆ F'.heap

/-- `F'` has the new task `id`, with program `p`, behind `ds`. -/
structure Adds (F' : TaskFlow L V) (p : MemProg L V Unit) (ds : List ℕ) (id : ℕ) : Prop where
  next_le : F.next ≤ id
  next_eq : F'.next = id + 1
  prog_eq : F'.prog = Function.update F.prog id (some p)
  dep_mono : ∀ i j, F.dep i j → F'.dep i j
  dep_new : ∀ d ∈ ds, F'.dep d id
  init_eq : F'.init = F.init
  const_eq : F'.const = F.const
  heap_eq : F'.heap = F.heap

variable {F} {F' F'' : TaskFlow L V} {i j : ℕ} {ds : List ℕ}

theorem body_of_not_has (h : ¬ F.Has i) : F.body i = .pure () := by
  rw [Has, Bool.not_eq_true, Option.isSome_eq_false_iff, Option.isNone_iff_eq_none] at h
  rw [body, h, Option.getD_none]

/-! ## Who is done -/

theorem Done.self (h : i ∈ ds) : F.Done ds i := ⟨i, h, .refl⟩

theorem Done.mono {ds' : List ℕ} (h : F.Done ds i) (hds : ds ⊆ ds') : F.Done ds' i := by
  obtain ⟨d, hd, hp⟩ := h
  exact ⟨d, hds hd, hp⟩

theorem Done.trans {ds' : List ℕ} (h : F.Done ds i) (hds : ∀ d ∈ ds, F.Done ds' d) :
    F.Done ds' i := by
  obtain ⟨d, hd, hp⟩ := h
  obtain ⟨e, he, hp'⟩ := hds d hd
  exact ⟨e, he, hp.trans hp'⟩

@[simp] theorem not_done_nil : ¬ F.Done [] i := by simp [Done]

/-! ## Later tasks -/

namespace Continues

theorem refl (F : TaskFlow L V) : F.Continues F :=
  ⟨le_rfl, fun _ _ => rfl, fun _ _ h => h, rfl, rfl, subset_rfl⟩

theorem trans (h : F.Continues F') (h' : F'.Continues F'') : F.Continues F'' where
  next_le := h.next_le.trans h'.next_le
  prog_eq i hi := (h'.prog_eq i (hi.trans_le h.next_le)).trans (h.prog_eq i hi)
  dep_mono i j hd := h'.dep_mono i j (h.dep_mono i j hd)
  init_eq := h'.init_eq.trans h.init_eq
  const_eq := h'.const_eq.trans h.const_eq
  heap_sub := h.heap_sub.trans h'.heap_sub

variable (h : F.Continues F')
include h

theorem body_eq (hi : i < F.next) : F'.body i = F.body i := by rw [body, body, h.prog_eq i hi]

theorem reflPath (hp : ReflTransGen F.dep i j) : ReflTransGen F'.dep i j :=
  ReflTransGen.mono h.dep_mono _ _ hp

theorem done (hi : F.Done ds i) : F'.Done ds i := by
  obtain ⟨d, hd, hp⟩ := hi
  exact ⟨d, hd, h.reflPath hp⟩

end Continues

namespace Adds
variable {p : MemProg L V Unit} {id : ℕ} (h : F.Adds F' p ds id)
include h

theorem body_self : F'.body id = p := by
  rw [body, h.prog_eq, Function.update_self]
  rfl

theorem continues : F.Continues F' where
  next_le := by
    rw [h.next_eq]
    exact h.next_le.trans (Nat.le_succ id)
  prog_eq i hi := by rw [h.prog_eq, Function.update_of_ne (hi.trans_le h.next_le).ne]
  dep_mono := h.dep_mono
  init_eq := h.init_eq
  const_eq := h.const_eq
  heap_sub := h.heap_eq.ge

/-- Who is done with the dependencies is done before the new task. -/
theorem path_self (hi : F.Done ds i) : TransGen F'.dep i id := by
  obtain ⟨d, hd, hp⟩ := hi
  exact TransGen.tail' (h.continues.reflPath hp) (h.dep_new d hd)

theorem done_self (hi : F.Done ds i) : F'.Done [id] i :=
  ⟨id, List.mem_singleton_self id, (h.path_self hi).to_reflTransGen⟩

end Adds

/-! ## Runs -/

variable [DecidableEq L] {l : L}

variable (F) in
/-- The memory before task `i`. -/
def before (i : ℕ) : L → V := execAll F.body (List.range i) F.init

variable (F) in
/-- The memory after all tasks. -/
def after : L → V := F.before F.next

variable (F) in
/-- What task `i` touches. -/
def foot (i : ℕ) : Footprint L := (F.body i).footprint (F.before i)

variable (F) in
def Touches (i : ℕ) (l : L) : Prop := l ∈ (F.foot i).reads ∨ l ∈ (F.foot i).writes

variable (F) in
/-- Tasks touch what they may, and those that conflict are ordered. -/
structure Sound : Prop where
  has_lt : ∀ i, F.Has i → i < F.next
  reads : ∀ i, (F.foot i).reads ⊆ F.heap ∪ F.const
  writes : ∀ i, (F.foot i).writes ⊆ F.heap
  apart : Disjoint F.heap F.const
  ordered : ∀ i j, i < j → (F.foot i).Conflict (F.foot j) → TransGen F.dep i j

theorem before_succ (i : ℕ) : F.before (i + 1) = (F.body i).final (F.before i) := by
  rw [before, List.range_succ, execAll_snoc]
  rfl

theorem foot_of_not_has (h : ¬ F.Has i) : F.foot i = ⟨∅, ∅⟩ := by
  rw [foot, body_of_not_has h, MemProg.footprint_pure]

theorem Touches.has (h : F.Touches i l) : F.Has i := by
  by_contra hno
  simp [Touches, foot_of_not_has hno] at h

/-- What nobody writes in between stays. -/
theorem before_of_notMem {k : ℕ} (hk : j ≤ k)
    (h : ∀ i, j ≤ i → i < k → l ∉ (F.foot i).writes) : F.before k l = F.before j l := by
  induction k, hk using Nat.le_induction with
  | base => rfl
  | succ k hk ih =>
    rw [before_succ, (F.body k).final_of_notMem _ (h k hk (Nat.lt_succ_self k))]
    exact ih fun i hi hik => h i hi (Nat.lt_succ_of_lt hik)

/-- Along the order of their numbers tasks act with their footprints. -/
theorem actsAs_range (n : ℕ) : ActsAs F.body F.foot (List.range n) F.init := by
  induction n with
  | zero => exact trivial
  | succ n ih =>
    rw [List.range_succ, actsAs_append]
    exact ⟨ih, rfl, trivial⟩

namespace Continues
variable (h : F.Continues F')
include h

theorem before_eq (hi : i ≤ F.next) : F'.before i = F.before i := by
  induction i with
  | zero => exact h.init_eq
  | succ i ih =>
    rw [before_succ, before_succ, ih (Nat.le_of_succ_le hi), h.body_eq hi]

theorem foot_eq (hi : i < F.next) : F'.foot i = F.foot i := by
  rw [foot, foot, h.body_eq hi, h.before_eq hi.le]

/-- What no new task writes is unchanged. -/
theorem after_eq (hl : ∀ i, F.next ≤ i → l ∉ (F'.foot i).writes) : F'.after l = F.after l := by
  rw [after, before_of_notMem h.next_le fun i hi _ => hl i hi, h.before_eq le_rfl]
  rfl

end Continues

/-- What may not be written is as it was. -/
theorem Sound.after_const (h : F.Sound) (hl : l ∈ F.const) : F.after l = F.init l :=
  before_of_notMem (Nat.zero_le _) fun i _ _ hw =>
    Set.disjoint_left.mp h.apart (h.writes i hw) hl

/-! ## One more task -/

namespace Adds
variable {p : MemProg L V Unit} {id : ℕ} (h : F.Adds F' p ds id) (hF : F.Sound)
include h hF

theorem not_has (hi : F.next ≤ i) (hne : i ≠ id) : ¬ F'.Has i := by
  rw [Has, h.prog_eq, Function.update_of_ne hne]
  exact fun hhas => absurd (hF.has_lt i hhas) (Nat.not_lt.mpr hi)

/-- The numbers between the old tasks and the new one do nothing. -/
theorem before_self : F'.before id = F.after := by
  refine funext fun l => ?_
  rw [before_of_notMem h.next_le fun i hi hlt => ?_, h.continues.before_eq le_rfl]
  · rfl
  · rw [foot_of_not_has (h.not_has hF hi hlt.ne)]
    exact Set.notMem_empty l

theorem foot_self : F'.foot id = p.footprint F.after := by
  rw [foot, h.body_self, h.before_self hF]

theorem after_eq : F'.after = p.final F.after := by
  rw [after, h.next_eq, before_succ, h.body_self, h.before_self hF]

/-- A task other than the new one does what it did. -/
theorem foot_of_ne (hne : i ≠ id) : F'.foot i = F.foot i := by
  by_cases hi : i < F.next
  · exact h.continues.foot_eq hi
  · rw [foot_of_not_has (h.not_has hF (Nat.not_lt.mp hi) hne),
      foot_of_not_has fun hhas => hi (hF.has_lt i hhas)]

theorem touches_of_ne (hne : i ≠ id) : F'.Touches i l ↔ F.Touches i l := by
  rw [Touches, Touches, h.foot_of_ne hF hne]

/-- A task that comes after the writers of what it reads and after everybody who touches what it
writes. -/
theorem sound {R W : Set L} (hr : (p.footprint F.after).reads ⊆ R ∪ W ∪ F.const)
    (hw : (p.footprint F.after).writes ⊆ W) (hRW : R ∪ W ⊆ F.heap)
    (hwritten : ∀ l ∈ R, ∀ i, l ∈ (F.foot i).writes → F.Done ds i)
    (htouched : ∀ l ∈ W, ∀ i, F.Touches i l → F.Done ds i) : F'.Sound where
  has_lt i hi := by
    rw [h.next_eq, Nat.lt_succ_iff]
    by_contra hlt
    exact h.not_has hF (h.next_le.trans (Nat.not_le.mp hlt).le) (by omega) hi
  reads i := by
    rw [h.heap_eq, h.const_eq]
    by_cases hne : i = id
    · rw [hne, h.foot_self hF]
      exact hr.trans (Set.union_subset_union_left _ hRW)
    · rw [h.foot_of_ne hF hne]
      exact hF.reads i
  writes i := by
    rw [h.heap_eq]
    by_cases hne : i = id
    · rw [hne, h.foot_self hF]
      exact (hw.trans Set.subset_union_right).trans hRW
    · rw [h.foot_of_ne hF hne]
      exact hF.writes i
  apart := by
    rw [h.heap_eq, h.const_eq]
    exact hF.apart
  ordered i j hij hc := by
    by_cases hi : i = id
    · -- nothing runs behind the new task
      have hno : ¬ F'.Has j := h.not_has hF (h.next_le.trans (by omega)) (by omega)
      obtain ⟨l, ⟨-, hl | hl⟩ | ⟨hl, -⟩⟩ := hc <;> simp [foot_of_not_has hno] at hl
    · rw [h.foot_of_ne hF hi] at hc
      by_cases hj : j = id
      · rw [hj] at hij ⊢
        rw [hj, h.foot_self hF] at hc
        obtain ⟨l, ⟨hl, hl' | hl'⟩ | ⟨hl', hl⟩⟩ := hc
        · rcases hr hl' with (hR | hW) | hconst
          · exact h.path_self (hwritten l hR i hl)
          · exact h.path_self (htouched l hW i (.inr hl))
          · exact absurd hconst (Set.disjoint_left.mp hF.apart (hF.writes i hl))
        · exact h.path_self (htouched l (hw hl') i (.inr hl))
        · exact h.path_self (htouched l (hw hl') i (.inl hl))
      · rw [h.foot_of_ne hF hj] at hc
        exact TransGen.mono h.dep_mono _ _ (hF.ordered i j hij hc)

end Adds
end TaskFlow

/-! ## Other orders -/

section
variable {ι L V : Type} [DecidableEq L] {prog prog' : ι → MemProg L V Unit} {F F' : ι → Footprint L}
  {l : List ι}

theorem execAll_congr (h : ∀ i ∈ l, prog' i = prog i) (m : L → V) :
    execAll prog' l m = execAll prog l m := by
  induction l generalizing m with
  | nil => rfl
  | cons i l ih =>
    rw [execAll_cons, execAll_cons, h i List.mem_cons_self]
    exact ih (fun j hj => h j (List.mem_cons_of_mem i hj)) _

theorem ActsAs.congr {m : L → V} (h : ActsAs prog F l m) (hprog : ∀ i ∈ l, prog' i = prog i) :
    ActsAs prog' F l m := by
  induction l generalizing m with
  | nil => trivial
  | cons i l ih =>
    rw [ActsAs, hprog i List.mem_cons_self]
    exact ⟨h.1, ih h.2 fun j hj => hprog j (List.mem_cons_of_mem i hj)⟩

/-- The footprints along an order are what they are. -/
theorem ActsAs.unique {m : L → V} (h : ActsAs prog F l m) (h' : ActsAs prog F' l m) :
    ∀ i ∈ l, F i = F' i := by
  induction l generalizing m with
  | nil => exact fun i hi => absurd hi List.not_mem_nil
  | cons i l ih =>
    intro j hj
    rcases List.mem_cons.mp hj with rfl | hj
    · exact h.1.symm.trans h'.1
    · exact ih h.2 h'.2 j hj

end

/-- An order that respects `edge` respects what leads along `edge`. -/
theorem Topo.of_path {ι : Type} {edge dep : ι → ι → Prop} {l : List ι} (h : Topo edge l)
    (hdep : ∀ i j, dep i j → TransGen edge i j) : Topo dep l := by
  induction h with
  | nil => exact .nil
  | snoc hl hi hpred ih =>
    refine ih.snoc hi fun p hp => ?_
    obtain ⟨q, hpq, hq⟩ := TransGen.tail'_iff.mp (hdep p _ hp)
    rcases reflTransGen_iff_eq_or_transGen.mp hpq with rfl | hpath
    · exact hpred _ hq
    · exact hl.mem_of_path hpath (hpred q hq)

/-- Edges that lead to larger numbers. -/
theorem Topo.range {edge : ℕ → ℕ → Prop} (hlt : ∀ i j, edge i j → i < j) (n : ℕ) :
    Topo edge (List.range n) := by
  induction n with
  | zero => exact .nil
  | succ n ih =>
    rw [List.range_succ]
    exact ih.snoc List.not_mem_range_self fun p hp => List.mem_range.mpr (hlt p n hp)

namespace TaskFlow
variable {L V : Type} [DecidableEq L] {F : TaskFlow L V}

/-- **Every order that respects the dependencies** runs the tasks with the same footprints and to
the same end. -/
theorem Sound.exec_eq (h : F.Sound) (hlt : ∀ i j, F.dep i j → i < j) {n : ℕ} (hn : F.next ≤ n)
    {order : List ℕ} (horder : Topo F.dep order) (hperm : (List.range n).Perm order) :
    ActsAs F.body F.foot order F.init ∧ execAll F.body order F.init = F.after := by
  obtain ⟨hacts, hexec⟩ := (Topo.range hlt n).exec_eq horder hperm (actsAs_range n)
    fun i _ j _ hne hc => by
      rcases Nat.lt_or_gt_of_ne hne with hij | hij
      · exact .inl (h.ordered i j hij hc)
      · exact .inr (h.ordered j i hij hc.symm)
  refine ⟨hacts, hexec.trans (funext fun l => ?_)⟩
  apply before_of_notMem hn
  intro i hi _
  rw [foot_of_not_has fun hhas => absurd (h.has_lt i hhas) (Nat.not_lt.mpr hi)]
  exact Set.notMem_empty l

end TaskFlow
