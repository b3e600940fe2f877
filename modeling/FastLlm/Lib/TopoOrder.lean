import FastLlm.Lib.MemProg
import Mathlib.Data.List.Perm.Basic
import Mathlib.Data.List.Nodup
import Mathlib.Data.List.Induction
import Mathlib.Logic.Relation

/-!
# Topological orders and confluence

Tasks are programs over a shared memory, and `edge i j` says that `i` has to be
done before `j`.  Tasks that conflict along one topological order are supposed to
be connected by a path.  Then every topological order of the same tasks runs each
task with the same footprint and ends in the same memory.

## Main definitions

* `Topo edge l` — `l` lists distinct tasks, each after all its predecessors.
* `execAll prog l m` — run the tasks of `l` in order.
* `ActsAs prog F l m` — along `l` the footprint of each task `i` is `F i`;
  `footprintAlong` is the assignment a list gives rise to.
* `Topo.exec_eq` — confluence.
-/

/-- Distinct tasks, each one after its predecessors. -/
inductive Topo {ι : Type} (edge : ι → ι → Prop) : List ι → Prop
  | nil : Topo edge []
  | snoc {l : List ι} {i : ι} :
      Topo edge l → i ∉ l → (∀ p, edge p i → p ∈ l) → Topo edge (l ++ [i])

namespace Topo
variable {ι : Type} {edge : ι → ι → Prop} {l l' : List ι} {i j : ι}

theorem of_snoc (h : Topo edge (l ++ [i])) :
    Topo edge l ∧ i ∉ l ∧ ∀ p, edge p i → p ∈ l := by
  generalize hl : l ++ [i] = k at h
  cases h with
  | nil => simp at hl
  | snoc h1 h2 h3 =>
      obtain ⟨rfl, hi⟩ := List.append_inj' hl rfl
      obtain rfl : i = _ := by simpa using hi
      exact ⟨h1, h2, h3⟩

theorem of_append (h : Topo edge (l ++ l')) : Topo edge l := by
  induction l' using List.reverseRecOn with
  | nil => simpa using h
  | append_singleton k j ih =>
      rw [← List.append_assoc] at h
      exact ih h.of_snoc.1

theorem nodup (h : Topo edge l) : l.Nodup := by
  induction h with
  | nil => exact List.nodup_nil
  | snoc _ hi _ ih => exact List.nodup_append.mpr ⟨ih, List.nodup_singleton _, fun a ha b hb => by
      obtain rfl : b = _ := by simpa using hb
      exact fun he => hi (he ▸ ha)⟩

/-- The predecessors of a listed task are listed. -/
theorem mem_of_edge (h : Topo edge l) (hj : j ∈ l) (hij : edge i j) : i ∈ l := by
  induction h with
  | nil => simp at hj
  | snoc _ _ hpred ih =>
      rcases List.mem_append.mp hj with hj | hj
      · exact List.mem_append_left _ (ih hj)
      · obtain rfl : j = _ := by simpa using hj
        exact List.mem_append_left _ (hpred i hij)

theorem mem_of_path (h : Topo edge l) (hij : Relation.TransGen edge i j) (hj : j ∈ l) :
    i ∈ l := by
  induction hij with
  | single hs => exact h.mem_of_edge hj hs
  | tail _ hs ih => exact ih (h.mem_of_edge hj hs)

/-- What holds of a task once it holds of its predecessors holds of all tasks. -/
theorem induction (h : Topo edge l) {P : ι → Prop}
    (hstep : ∀ i ∈ l, (∀ p, edge p i → P p) → P i) : ∀ i ∈ l, P i := by
  induction h with
  | nil => simp
  | snoc h hi hpred ih =>
      rename_i k j
      have hk := ih fun i hi => hstep i (List.mem_append_left _ hi)
      intro i hi
      rcases List.mem_append.mp hi with hi | hi
      · exact hk i hi
      · obtain rfl : i = j := by simpa using hi
        exact hstep i (by simp) fun p hp => hk p (hpred p hp)

/-- No path leads from a task to one listed before it, or to itself. -/
theorem not_path (h : Topo edge (l ++ i :: l')) (hj : j ∈ l) : ¬ Relation.TransGen edge i j := by
  intro hp
  have hi : i ∈ l := h.of_append.mem_of_path hp hj
  have hd := (List.nodup_append.mp h.nodup).2.2
  exact hd i hi i (List.mem_cons_self ..) rfl

theorem not_path_self (h : Topo edge l) (hi : i ∈ l) : ¬ Relation.TransGen edge i i := by
  obtain ⟨a, b, rfl⟩ := List.append_of_mem hi
  intro hp
  obtain ⟨p, hp, hpi⟩ : ∃ p, Relation.ReflTransGen edge i p ∧ edge p i :=
    Relation.TransGen.tail'_iff.mp hp
  have hpa : p ∈ a := by
    rw [List.append_cons] at h
    exact h.of_append.of_snoc.2.2 p hpi
  rcases Relation.reflTransGen_iff_eq_or_transGen.mp hp with rfl | hp
  · exact (List.nodup_append.mp h.nodup).2.2 p hpa p (List.mem_cons_self ..) rfl
  · exact h.not_path hpa hp

/-- A task that no later task depends on may be dropped. -/
theorem erase (h : Topo edge (l ++ i :: l')) (hi : ∀ j ∈ l', ¬ edge i j) :
    Topo edge (l ++ l') := by
  induction l' using List.reverseRecOn with
  | nil => simpa using h.of_append
  | append_singleton k j ih =>
      rw [← List.cons_append, ← List.append_assoc] at h
      obtain ⟨h1, h2, h3⟩ := h.of_snoc
      rw [← List.append_assoc]
      refine (ih h1 fun x hx => hi x (List.mem_append_left _ hx)).snoc ?_ ?_
      · exact fun hj => h2 (by
          rcases List.mem_append.mp hj with hj | hj
          · exact List.mem_append_left _ hj
          · exact List.mem_append_right _ (List.mem_cons_of_mem _ hj))
      · intro p hp
        have hne : p ≠ i := fun he => hi j (by simp) (he ▸ hp)
        rcases List.mem_append.mp (h3 p hp) with hm | hm
        · exact List.mem_append_left _ hm
        · exact List.mem_append_right _ ((List.mem_cons.mp hm).resolve_left hne)

/-- A topological order of some of the tasks of `l` extends to all of them. -/
theorem extend [DecidableEq ι] (h : Topo edge l) (h' : Topo edge l') :
    Topo edge (l' ++ l.filter (· ∉ l')) := by
  induction h with
  | nil => simpa using h'
  | snoc _ hi hpred ih =>
      rename_i k j hk
      by_cases hj : j ∈ l'
      · simpa [List.filter_append, hj] using ih
      · have hsnoc : Topo edge ((l' ++ k.filter (· ∉ l')) ++ [j]) := by
          refine ih.snoc ?_ ?_
          · simp [hj, hi]
          · intro p hp
            by_cases hpl : p ∈ l'
            · exact List.mem_append_left _ hpl
            · exact List.mem_append_right _ (by simp [hpl, hpred p hp])
        simpa [List.filter_append, hj] using hsnoc

end Topo

section Exec
variable {ι L V : Type} [DecidableEq L] (prog : ι → MemProg L V Unit)

/-- Run the tasks of a list one after the other. -/
def execAll : List ι → (L → V) → (L → V)
  | [], m => m
  | i :: l, m => execAll l ((prog i).final m)

/-- Along the list the footprint of each task `i` is `F i`. -/
def ActsAs (F : ι → Footprint L) : List ι → (L → V) → Prop
  | [], _ => True
  | i :: l, m => (prog i).footprint m = F i ∧ ActsAs F l ((prog i).final m)

@[simp] theorem execAll_nil (m : L → V) : execAll prog [] m = m := rfl
@[simp] theorem execAll_cons (i : ι) (l : List ι) (m : L → V) :
    execAll prog (i :: l) m = execAll prog l ((prog i).final m) := rfl

theorem execAll_append (l l' : List ι) (m : L → V) :
    execAll prog (l ++ l') m = execAll prog l' (execAll prog l m) := by
  induction l generalizing m with
  | nil => rfl
  | cons i l ih => exact ih _

theorem execAll_snoc (l : List ι) (i : ι) (m : L → V) :
    execAll prog (l ++ [i]) m = (prog i).final (execAll prog l m) :=
  execAll_append prog l [i] m

variable {prog} {F : ι → Footprint L}

theorem actsAs_append (l l' : List ι) (m : L → V) :
    ActsAs prog F (l ++ l') m ↔ ActsAs prog F l m ∧ ActsAs prog F l' (execAll prog l m) := by
  induction l generalizing m with
  | nil => simp [ActsAs]
  | cons i l ih => simp only [List.cons_append, ActsAs, ih, execAll_cons, and_assoc]

/-- The footprint of task `i` where the list executes it. -/
def footprintAlong [DecidableEq ι] (prog : ι → MemProg L V Unit) (l : List ι) (m : L → V)
    (i : ι) : Footprint L :=
  (prog i).footprint (execAll prog (l.takeWhile (· ≠ i)) m)

theorem actsAs_footprintAlong [DecidableEq ι] {l : List ι} (hl : l.Nodup) (m : L → V) :
    ActsAs prog (footprintAlong prog l m) l m := by
  suffices H : ∀ a b, l = a ++ b →
      ActsAs prog (footprintAlong prog l m) b (execAll prog a m) from H [] l rfl
  intro a b hab
  induction b generalizing a with
  | nil => trivial
  | cons i b ih =>
      have hia : ∀ x ∈ a, x ≠ i := fun x hx hxi => by
        rw [hab] at hl
        exact (List.nodup_append.mp hl).2.2 x hx i (List.mem_cons_self ..) hxi
      refine ⟨?_, ?_⟩
      · have : l.takeWhile (· ≠ i) = a := by
          rw [hab, List.takeWhile_append_of_pos (by simpa using hia)]
          simp
        simp only [footprintAlong, this]
      · have := ih (a ++ [i]) (by simp [hab])
        rwa [execAll_snoc] at this

/-- A task moves past tasks it does not conflict with. -/
theorem ActsAs.move_last {i : ι} {l : List ι} {m : L → V}
    (hc : ∀ j ∈ l, ¬ (F i).Conflict (F j)) (h : ActsAs prog F (i :: l) m) :
    ActsAs prog F (l ++ [i]) m ∧ execAll prog (l ++ [i]) m = execAll prog (i :: l) m := by
  induction l generalizing m with
  | nil => exact ⟨h, rfl⟩
  | cons j l ih =>
      obtain ⟨hi, hj, hl⟩ := h
      have hij : ¬ ((prog i).footprint m).Conflict ((prog j).footprint ((prog i).final m)) := by
        rw [hi, hj]; exact hc j (List.mem_cons_self ..)
      obtain ⟨hj', hi', hcomm⟩ := MemProg.swap hij
      have := ih (m := (prog j).final m) (fun k hk => hc k (List.mem_cons_of_mem _ hk))
        ⟨hi'.trans hi, by rw [hcomm]; exact hl⟩
      refine ⟨⟨hj'.trans hj, this.1⟩, ?_⟩
      calc execAll prog (j :: l ++ [i]) m
          = execAll prog l ((prog i).final ((prog j).final m)) := this.2
        _ = execAll prog (i :: j :: l) m := by rw [hcomm]; rfl

variable {edge : ι → ι → Prop}

/-- **Confluence.**  When tasks whose footprints along `l` conflict are connected by
a path, every other topological order of the same tasks has the same footprints and
the same effect. -/
theorem Topo.exec_eq {l l' : List ι} {m : L → V} (hl : Topo edge l) (hl' : Topo edge l')
    (hp : l.Perm l') (hF : ActsAs prog F l m)
    (hc : ∀ i ∈ l, ∀ j ∈ l, i ≠ j → (F i).Conflict (F j) →
      Relation.TransGen edge i j ∨ Relation.TransGen edge j i) :
    ActsAs prog F l' m ∧ execAll prog l' m = execAll prog l m := by
  induction hl' generalizing l with
  | nil =>
      obtain rfl : l = [] := hp.eq_nil
      exact ⟨trivial, rfl⟩
  | snoc hk hx hpred ih =>
      rename_i k x
      have hxl : x ∈ l := hp.mem_iff.mpr (by simp)
      obtain ⟨a, b, rfl⟩ := List.append_of_mem hxl
      have hperm : (a ++ b).Perm k := by
        have h1 : (x :: (a ++ b)).Perm (x :: k) :=
          (List.perm_middle.symm.trans hp).trans (List.perm_append_singleton x k)
        exact h1.cons_inv
      -- `x` is last in the other order, so nothing behind it here depends on it
      have hlast : ∀ y ∈ b, ¬ Relation.TransGen edge x y := fun y hy hxy =>
        hx (hk.mem_of_path hxy (hperm.mem_iff.mp (List.mem_append_right _ hy)))
      have hafter : ∀ y ∈ b, ¬ Relation.TransGen edge y x := fun y hy hyx => by
        have hya : y ∈ a := by
          have hpre := hl
          rw [List.append_cons] at hpre
          have hmem := hpre.of_append.mem_of_path hyx (by simp)
          rcases List.mem_append.mp hmem with hm | hm
          · exact hm
          · obtain rfl : y = x := by simpa using hm
            exact absurd hyx (hpre.of_append.not_path_self (by simp))
        have hd := hl.nodup
        exact (List.nodup_append.mp hd).2.2 y hya y (List.mem_cons_of_mem _ hy) rfl
      have hne : ∀ y ∈ b, x ≠ y := fun y hy he => by
        have hd := (List.nodup_append.mp hl.nodup).2.1
        exact (List.nodup_cons.mp hd).1 (he ▸ hy)
      obtain ⟨hFa, hFb⟩ := (actsAs_append a (x :: b) m).mp hF
      obtain ⟨hmove, hexec⟩ := hFb.move_last fun y hy hconf =>
        (hc x (by simp) y (by simp [hy]) (hne y hy) hconf).elim (hlast y hy) (hafter y hy)
      have hFab := (actsAs_append a (b ++ [x]) m).mpr ⟨hFa, hmove⟩
      rw [← List.append_assoc, actsAs_append] at hFab
      obtain ⟨hFk, hek⟩ := ih (hl.erase fun y hy he => hlast y hy (.single he)) hperm hFab.1
        fun i hi j hj => hc i (by simp at hi ⊢; tauto) j (by simp at hj ⊢; tauto)
      refine ⟨(actsAs_append _ _ m).mpr ⟨hFk, hek ▸ hFab.2⟩, ?_⟩
      calc execAll prog (k ++ [x]) m
          = execAll prog [x] (execAll prog (a ++ b) m) := by rw [execAll_append, hek]
        _ = execAll prog (b ++ [x]) (execAll prog a m) := by
            rw [execAll_append, execAll_append]
        _ = execAll prog (a ++ x :: b) m := by rw [hexec, ← execAll_append]

/-- A task that is ready after a partial order `k` acts there as along `l`. -/
theorem Topo.footprint_ready [DecidableEq ι] {l k : List ι} {m : L → V} {i : ι}
    (hl : Topo edge l) (hk : Topo edge (k ++ [i])) (hsub : ∀ j ∈ k ++ [i], j ∈ l)
    (hF : ActsAs prog F l m)
    (hc : ∀ i ∈ l, ∀ j ∈ l, i ≠ j → (F i).Conflict (F j) →
      Relation.TransGen edge i j ∨ Relation.TransGen edge j i) :
    (prog i).footprint (execAll prog k m) = F i := by
  have hext := hl.extend hk
  have hp : l.Perm ((k ++ [i]) ++ l.filter (· ∉ k ++ [i])) := by
    refine (List.perm_ext_iff_of_nodup hl.nodup hext.nodup).mpr fun j => ?_
    by_cases hj : j ∈ k ++ [i]
    · simp only [List.mem_append, hj, hsub j hj, true_or]
    · simp only [List.mem_append, List.mem_filter, decide_not, Bool.not_eq_true',
        decide_eq_false_iff_not] at hj ⊢
      tauto
  obtain ⟨hacts, -⟩ := hl.exec_eq hext hp hF hc
  exact ((actsAs_append k [i] m).mp ((actsAs_append _ _ m).mp hacts).1).2.1

end Exec
