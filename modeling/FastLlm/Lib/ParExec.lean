import FastLlm.Lib.TopoOrder

/-!
# Parallel execution of dependent tasks

Any number of tasks run at once, one memory access at a time, a task being started
only after its predecessors are finished.  Tasks whose footprints conflict along one
topological order are supposed to be connected by a path.  Then at every moment the
shared memory is that of the finished tasks run in the order in which they finished,
overlaid with what the running ones have written so far.

## Main definitions

* `ParState`, `ParStep` — the machine.
* `ParInv` — the overlay invariant.
* `ParReach.mem_eq` — with nothing running, the memory is that of the serial order.
-/

/-- Shared memory, the rest of every running task, and the tasks finished so far. -/
structure ParState (ι L V : Type) where
  mem : L → V
  running : ι → Option (MemProg L V Unit)
  fin : List ι

section Machine
variable {ι L V : Type} [DecidableEq ι] [DecidableEq L]

/-- One step: a task starts, makes one access or finishes. -/
inductive ParStep (prog : ι → MemProg L V Unit) (edge : ι → ι → Prop) (tasks : List ι) :
    ParState ι L V → ParState ι L V → Prop
  | start {s : ParState ι L V} {i : ι} :
      i ∈ tasks → s.running i = none → i ∉ s.fin → (∀ p, edge p i → p ∈ s.fin) →
      ParStep prog edge tasks s
        { s with running := Function.update s.running i (some (prog i)) }
  | read {s : ParState ι L V} {i : ι} {l : L} {k : V → MemProg L V Unit} :
      s.running i = some (.read l k) →
      ParStep prog edge tasks s
        { s with running := Function.update s.running i (some (k (s.mem l))) }
  | write {s : ParState ι L V} {i : ι} {l : L} {v : V} {k : MemProg L V Unit} :
      s.running i = some (.write l v k) →
      ParStep prog edge tasks s
        { s with
          mem := Function.update s.mem l v
          running := Function.update s.running i (some k) }
  | finish {s : ParState ι L V} {i : ι} :
      s.running i = some (.pure ()) →
      ParStep prog edge tasks s
        { s with running := Function.update s.running i none, fin := s.fin ++ [i] }

/-- States reached from memory `m` with nothing running. -/
inductive ParReach (prog : ι → MemProg L V Unit) (edge : ι → ι → Prop) (tasks : List ι)
    (m : L → V) : ParState ι L V → Prop
  | init : ParReach prog edge tasks m ⟨m, fun _ => none, []⟩
  | step {s t : ParState ι L V} :
      ParReach prog edge tasks m s → ParStep prog edge tasks s t → ParReach prog edge tasks m t

/-- Conflicting tasks are connected by a path, footprints taken along `tasks`. -/
structure Ordered (prog : ι → MemProg L V Unit) (edge : ι → ι → Prop) (tasks : List ι)
    (m : L → V) (F : ι → Footprint L) : Prop where
  topo : Topo edge tasks
  acts : ActsAs prog F tasks m
  path : ∀ i ∈ tasks, ∀ j ∈ tasks, i ≠ j → (F i).Conflict (F j) →
    Relation.TransGen edge i j ∨ Relation.TransGen edge j i

/-- The memory is that of the finished tasks, overlaid with the partial effects of the
running ones. -/
structure ParInv (prog : ι → MemProg L V Unit) (edge : ι → ι → Prop) (tasks : List ι)
    (m : L → V) (F : ι → Footprint L) (s : ParState ι L V) : Prop where
  topo : Topo edge s.fin
  sub : ∀ i ∈ s.fin, i ∈ tasks
  ready : ∀ i q, s.running i = some q → i ∈ tasks ∧ i ∉ s.fin ∧ ∀ p, edge p i → p ∈ s.fin
  view : ∀ i q, s.running i = some q → ∃ n, (prog i).Steps (execAll prog s.fin m) q n ∧
    ∀ l, l ∈ (F i).reads ∨ l ∈ (F i).writes → s.mem l = n l
  base : ∀ l, (∀ i q, s.running i = some q → l ∉ (F i).writes) →
    s.mem l = execAll prog s.fin m l

variable {prog : ι → MemProg L V Unit} {edge : ι → ι → Prop} {tasks : List ι} {m : L → V}
  {F : ι → Footprint L} {s t : ParState ι L V}

/-- A ready task acts on the finished memory as it does along the reference order. -/
theorem ParInv.footprint_eq (ho : Ordered prog edge tasks m F)
    (h : ParInv prog edge tasks m F s) {i : ι} (hi : i ∈ tasks) (hfin : i ∉ s.fin)
    (hpred : ∀ p, edge p i → p ∈ s.fin) :
    (prog i).footprint (execAll prog s.fin m) = F i := by
  refine ho.topo.footprint_ready (h.topo.snoc hfin hpred) (fun j hj => ?_) ho.acts ho.path
  rcases List.mem_append.mp hj with hj | hj
  · exact h.sub j hj
  · obtain rfl : j = i := by simpa using hj
    exact hi

omit [DecidableEq ι] in
/-- Two ready tasks do not conflict: a path between them would make one wait. -/
theorem ParInv.not_conflict (ho : Ordered prog edge tasks m F)
    (h : ParInv prog edge tasks m F s) {i j : ι} (hij : i ≠ j)
    (hi : i ∈ tasks) (hifin : i ∉ s.fin) (hipred : ∀ p, edge p i → p ∈ s.fin)
    (hj : j ∈ tasks) (hjfin : j ∉ s.fin) (hjpred : ∀ p, edge p j → p ∈ s.fin) :
    ¬ (F i).Conflict (F j) := by
  have waits : ∀ {a b : ι}, b ∉ s.fin → a ∉ s.fin → (∀ p, edge p b → p ∈ s.fin) → a ≠ b →
      ¬ Relation.TransGen edge a b := fun hb ha hpred hne hp => by
    have hmem := (h.topo.snoc hb hpred).mem_of_path hp (by simp)
    rcases List.mem_append.mp hmem with hm | hm
    · exact ha hm
    · exact hne (by simpa using hm)
  intro hc
  rcases ho.path i hi j hj hij hc with hp | hp
  · exact waits hjfin hifin hjpred hij hp
  · exact waits hifin hjfin hipred hij.symm hp

omit [DecidableEq ι] in
theorem ParInv.init : ParInv prog edge tasks m F ⟨m, fun _ => none, []⟩ where
  topo := .nil
  sub := by simp
  ready := by simp
  view := by simp
  base := fun _ _ => rfl

omit [DecidableEq L] in
private theorem update_eq_some {f : ι → Option (MemProg L V Unit)} {i j : ι}
    {o : Option (MemProg L V Unit)} {q : MemProg L V Unit}
    (h : Function.update f i o j = some q) : (j = i ∧ o = some q) ∨ (j ≠ i ∧ f j = some q) := by
  by_cases hj : j = i
  · subst hj
    exact .inl ⟨rfl, by simpa using h⟩
  · exact .inr ⟨hj, by simpa [Function.update_of_ne hj] using h⟩

omit [DecidableEq L] in
private theorem notMem_of_update {f : ι → Option (MemProg L V Unit)} {i : ι}
    {q' : MemProg L V Unit} {W : ι → Set L} {x : L}
    (h : ∀ j q, Function.update f i (some q') j = some q → x ∉ W j) (j : ι)
    (q : MemProg L V Unit) (hj : f j = some q) : x ∉ W j := by
  by_cases hji : j = i
  · subst hji
    exact h j q' (by simp)
  · exact h j q (by rw [Function.update_of_ne hji, hj])

/-- The step lemma. -/
theorem ParInv.step (ho : Ordered prog edge tasks m F) (h : ParInv prog edge tasks m F s)
    (hst : ParStep prog edge tasks s t) : ParInv prog edge tasks m F t := by
  cases hst with
  | @start i hi hnone hfin hpred =>
      have hfi := h.footprint_eq ho hi hfin hpred
      have hdisj : ∀ l, l ∈ (F i).reads ∨ l ∈ (F i).writes →
          s.mem l = execAll prog s.fin m l := by
        intro l hl
        refine h.base l fun j q hj hlw => ?_
        have hji : j ≠ i := fun he => by rw [he, hnone] at hj; cases hj
        obtain ⟨hjt, hjf, hjp⟩ := h.ready j q hj
        exact h.not_conflict ho hji hjt hjf hjp hi hfin hpred ⟨l, .inl ⟨hlw, hl⟩⟩
      refine ⟨h.topo, h.sub, fun j q hj => ?_, fun j q hj => ?_, fun l hl => ?_⟩
      · rcases update_eq_some hj with ⟨rfl, -⟩ | ⟨-, hj⟩
        · exact ⟨hi, hfin, hpred⟩
        · exact h.ready j q hj
      · rcases update_eq_some hj with ⟨rfl, hq⟩ | ⟨-, hj⟩
        · obtain rfl : prog j = q := by simpa using hq
          exact ⟨_, .start, hdisj⟩
        · exact h.view j q hj
      · refine h.base l fun j q hj => hl j q ?_
        have hji : j ≠ i := fun he => by rw [he, hnone] at hj; cases hj
        simpa [Function.update_of_ne hji] using hj
  | @read i l k hrun =>
      obtain ⟨hi, hfin, hpred⟩ := h.ready i _ hrun
      have hfi := h.footprint_eq ho hi hfin hpred
      obtain ⟨n, hsteps, hview⟩ := h.view i _ hrun
      have hl : s.mem l = n l :=
        hview l (.inl (hfi ▸ hsteps.footprint_subset.1 (Set.mem_insert _ _)))
      refine ⟨h.topo, h.sub, fun j q hj => ?_, fun j q hj => ?_, fun x hx => ?_⟩
      · rcases update_eq_some hj with ⟨rfl, -⟩ | ⟨-, hj⟩
        · exact ⟨hi, hfin, hpred⟩
        · exact h.ready j q hj
      · rcases update_eq_some hj with ⟨rfl, hq⟩ | ⟨-, hj⟩
        · obtain rfl : k (s.mem l) = q := by simpa using hq
          exact ⟨n, hl ▸ hsteps.read, hview⟩
        · exact h.view j q hj
      · exact h.base x (notMem_of_update hx)
  | @write i l v k hrun =>
      obtain ⟨hi, hfin, hpred⟩ := h.ready i _ hrun
      have hfi := h.footprint_eq ho hi hfin hpred
      obtain ⟨n, hsteps, hview⟩ := h.view i _ hrun
      have hlw : l ∈ (F i).writes := hfi ▸ hsteps.footprint_subset.2 (Set.mem_insert _ _)
      refine ⟨h.topo, h.sub, fun j q hj => ?_, fun j q hj => ?_, fun x hx => ?_⟩
      · rcases update_eq_some hj with ⟨rfl, -⟩ | ⟨-, hj⟩
        · exact ⟨hi, hfin, hpred⟩
        · exact h.ready j q hj
      · rcases update_eq_some hj with ⟨rfl, hq⟩ | ⟨hji, hj⟩
        · obtain rfl : k = q := by simpa using hq
          refine ⟨_, hsteps.write, fun x hx => ?_⟩
          change Function.update s.mem l v x = Function.update n l v x
          by_cases hxl : x = l
          · subst hxl; simp
          · rw [Function.update_of_ne hxl, Function.update_of_ne hxl]
            exact hview x hx
        · -- the written location is outside the footprint of every other running task
          obtain ⟨nj, hstepsj, hviewj⟩ := h.view j q hj
          obtain ⟨hjt, hjf, hjp⟩ := h.ready j q hj
          refine ⟨nj, hstepsj, fun x hx => ?_⟩
          have hxl : x ≠ l := fun he =>
            h.not_conflict ho (Ne.symm hji) hi hfin hpred hjt hjf hjp
              ⟨l, .inl ⟨hlw, he ▸ hx⟩⟩
          exact (Function.update_of_ne hxl _ _).trans (hviewj x hx)
      · have hxl : x ≠ l := fun he => hx i k (by simp) (he ▸ hlw)
        exact (Function.update_of_ne hxl _ _).trans (h.base x (notMem_of_update hx))
  | @finish i hrun =>
      obtain ⟨hi, hfin, hpred⟩ := h.ready i _ hrun
      have hfi := h.footprint_eq ho hi hfin hpred
      obtain ⟨n, hsteps, hview⟩ := h.view i _ hrun
      have hn : n = (prog i).final (execAll prog s.fin m) := hsteps.final_eq
      have hbase := execAll_snoc prog s.fin i m
      refine ⟨h.topo.snoc hfin hpred, fun j hj => ?_, fun j q hj => ?_, fun j q hj => ?_,
        fun x hx => ?_⟩
      · rcases List.mem_append.mp hj with hj | hj
        · exact h.sub j hj
        · obtain rfl : j = i := by simpa using hj
          exact hi
      · rcases update_eq_some hj with ⟨-, hq⟩ | ⟨hji, hj⟩
        · simp at hq
        · obtain ⟨hjt, hjf, hjp⟩ := h.ready j q hj
          exact ⟨hjt, by simp [hjf, hji], fun p hp => List.mem_append_left _ (hjp p hp)⟩
      · rcases update_eq_some hj with ⟨-, hq⟩ | ⟨hji, hj⟩
        · simp at hq
        · obtain ⟨nj, hstepsj, hviewj⟩ := h.view j q hj
          obtain ⟨hjt, hjf, hjp⟩ := h.ready j q hj
          have hnc := h.not_conflict ho (Ne.symm hji) hi hfin hpred hjt hjf hjp
          have hfj := h.footprint_eq ho hjt hjf hjp
          obtain ⟨n', hsteps', -, hout⟩ := hstepsj.patch
            (execAll prog (s.fin ++ [i]) m) (W := (F i).writes)
            (fun l hl => by
              rw [hfj]
              exact ⟨fun hr => hnc ⟨l, .inl ⟨hl, .inl hr⟩⟩,
                fun hw => hnc ⟨l, .inl ⟨hl, .inr hw⟩⟩⟩)
            (fun l hl => by rw [hbase]; exact (prog i).final_of_notMem _ (hfi ▸ hl))
          refine ⟨n', hsteps', fun l hl => ?_⟩
          rw [hout l fun hw => hnc ⟨l, .inl ⟨hw, hl⟩⟩]
          exact hviewj l hl
      · by_cases hxw : x ∈ (F i).writes
        · exact (hview x (.inr hxw)).trans (by rw [hn, hbase])
        · refine (h.base x fun j q hj => ?_).trans ?_
          · by_cases hji : j = i
            · exact hji ▸ hxw
            · exact hx j q (by simpa [Function.update_of_ne hji] using hj)
          · rw [hbase]
            exact ((prog i).final_of_notMem _ (hfi ▸ hxw)).symm

theorem ParReach.inv (ho : Ordered prog edge tasks m F) (h : ParReach prog edge tasks m s) :
    ParInv prog edge tasks m F s := by
  induction h with
  | init => exact .init
  | step _ hst ih => exact ih.step ho hst

/-- **Parallel equals serial.**  Once every task is finished and nothing runs, the
memory is the one the reference order leaves. -/
theorem ParReach.mem_eq (ho : Ordered prog edge tasks m F) (h : ParReach prog edge tasks m s)
    (hidle : ∀ i, s.running i = none) (hall : s.fin.Perm tasks) :
    s.mem = execAll prog tasks m := by
  have hinv := h.inv ho
  have hconf := ho.topo.exec_eq hinv.topo hall.symm ho.acts ho.path
  funext l
  have hbase := hinv.base l fun i q hi => by simp [hidle i] at hi
  rw [hbase, hconf.2]

end Machine
