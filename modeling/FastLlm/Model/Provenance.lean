import FastLlm.Model.Spans

/-!
# Bounded pointers stand for the pointers of a build

The builder only offsets the pointers it is given.  So whatever the allocators return, it makes the
same tasks and edges, and a pointer in one graph is at the same offset from its allocation as the
pointer in the other.

## Main definitions

* `BuildState.runLog` — the commands with a log of the allocations.
* `StandsFor` — a bounded pointer and the pointer it stands for.
* `Twin` — two programs that differ in pointers only.
* `runFat_of_runLog` — the run with bounded pointers follows that of the build.
-/

namespace FastLlm

/-! ## The log -/

/-- An allocation: the pointer handed out, and the number of floats there. -/
structure Issue where
  ptr : Loc
  floats : ℕ
  deriving DecidableEq, Repr

/-- The commands with a log of the allocations. -/
def BuildState.runLog :
    (c : Cmd) → BuildState × List Issue → Except String (c.Res × (BuildState × List Issue))
  | .slotAlloc n, s => do
      let (p, st) ← s.1.run (.slotAlloc n)
      pure (p, (st, s.2 ++ [⟨p, n.toNat⟩]))
  | .alloc bytes align, s => do
      let (p, st) ← s.1.run (.alloc bytes align)
      pure (p, (st, s.2 ++ [⟨p, bytes.toNat / 4⟩]))
  | c, s => do
      let (r, st) ← s.1.run c
      pure (r, (st, s.2))

/-- `l` is at the offset of `l'` from an allocation of as many floats as `l` carries. -/
def StandsFor (log : List Issue) (l l' : Loc) : Prop :=
  ∃ e ∈ log, l.obj = e.floats ∧ l' = e.ptr.add l.off

theorem StandsFor.add {log : List Issue} {l l' : Loc} (h : StandsFor log l l') (n : ℕ) :
    StandsFor log (l.add n) (l'.add n) := by
  obtain ⟨e, he, hobj, rfl⟩ := h
  exact ⟨e, he, hobj, Loc.add_add _ _ _⟩

/-! ## Graphs that differ in pointers only -/

/-- A record without its pointers. -/
def TaskParams.unplaced (t : TaskParams) : TaskParams :=
  { t with x := ⟨0, 0⟩, y := ⟨0, 0⟩, aux := none }

section
variable (R : Loc → Loc → Prop)

/-- The records agree but for pointers, and those of a tile are related. -/
structure SameTask (t t' : TaskParams) : Prop where
  rest : t.unplaced = t'.unplaced
  aux : t.aux.isSome = t'.aux.isSome
  spans : t.IsDot → R t.x t'.x ∧ R t.y t'.y

/-- The entries of the task tables agree but for pointers. -/
structure SameEntry (t t' : Task) : Prop where
  id : t.id = t'.id
  consumers : t.consumers = t'.consumers
  depInit : t.depInit = t'.depInit
  params : SameTask R t.toTaskParams t'.toTaskParams

structure SameGraph (g g' : GraphImpl) : Prop where
  tasks : List.Forall₂ (SameEntry R) g.tasks g'.tasks
  max : g.max = g'.max
  terminal : g.terminal = g'.terminal
  frozen : g.frozen = g'.frozen

structure SameState (s s' : BuildState) : Prop where
  g : SameGraph R s.g s'.g
  ports : s.ports = s'.ports
  mem : s.mem = s'.mem

/-- Where `x'` returns, so does `x`, with a related result. -/
def Follows {α β : Type} (x : Except String α) (x' : Except String β) (P : α → β → Prop) : Prop :=
  ∀ b, x' = .ok b → ∃ a, x = .ok a ∧ P a b

end

section
variable {R : Loc → Loc → Prop}

namespace Follows
variable {α β γ δ : Type} {x : Except String α} {x' : Except String β} {P : α → β → Prop}

theorem ok {a : α} {b : β} (h : P a b) : Follows (.ok a) (.ok b) P := by
  rintro b' hb
  obtain rfl := Except.ok.inj hb
  exact ⟨a, rfl, h⟩

theorem error {e e' : String} : Follows (.error e : Except String α) (.error e') P := by
  intro b hb
  cases hb

theorem bind {f : α → Except String γ} {f' : β → Except String δ} {Q : γ → δ → Prop}
    (h : Follows x x' P) (hf : ∀ a b, P a b → Follows (f a) (f' b) Q) :
    Follows (x >>= f) (x' >>= f') Q := by
  intro d hd
  obtain ⟨b, hb, hd⟩ := GraphImpl.bind_ok.mp hd
  obtain ⟨a, rfl, hab⟩ := h b hb
  exact hf a b hab d hd

end Follows

theorem forall₂_modify {α β : Type} {r : α → β → Prop} {l : List α} {l' : List β}
    (h : List.Forall₂ r l l') (i : ℕ) {f : α → α} {f' : β → β} (hf : ∀ a b, r a b → r (f a) (f' b)) :
    List.Forall₂ r (l.modify i f) (l'.modify i f') := by
  induction h generalizing i with
  | nil => simp
  | @cons a b l l' hab _ ih =>
    cases i with
    | zero => exact .cons (hf a b hab) ‹_›
    | succ i => exact .cons hab (ih i)

theorem map_consumers {l l' : List Task} (h : List.Forall₂ (SameEntry R) l l') :
    l.map Task.consumers = l'.map Task.consumers := by
  induction h with
  | nil => rfl
  | cons hab _ ih => exact congrArg₂ List.cons hab.consumers ih

theorem SameTask.rawSignal : SameTask R rawSignal rawSignal where
  rest := rfl
  aux := rfl
  spans h := by rcases h with h | h <;> cases h

namespace SameGraph
variable {g g' : GraphImpl}

theorem size_eq (h : SameGraph R g g') : g.size = g'.size := h.tasks.length_eq

theorem cons_eq (h : SameGraph R g g') (i : ℕ) : g.cons i = g'.cons i := by
  have hget (g : GraphImpl) : g.cons i = (g.tasks.map Task.consumers).getD i [] := by
    rw [GraphImpl.cons, GraphImpl.task, List.getD_eq_getElem?_getD, List.getD_eq_getElem?_getD,
      List.getElem?_map]
    cases g.tasks[i]? <;> rfl
  rw [hget g, hget g', map_consumers h.tasks]

theorem add (h : SameGraph R g g') {t t' : TaskParams} (ht : SameTask R t t') :
    Follows (g.add t) (g'.add t') fun r r' => SameGraph R r.1 r'.1 ∧ r.2 = r'.2 := by
  rw [GraphImpl.add, GraphImpl.add, h.frozen, h.max, h.size_eq]
  split_ifs
  · exact .error
  · exact .error
  · refine .ok ⟨⟨?_, rfl, h.terminal, rfl⟩, rfl⟩
    exact List.rel_append h.tasks (.cons ⟨rfl, rfl, rfl, ht⟩ .nil)

theorem edge (h : SameGraph R g g') (p c : ℕ) :
    Follows (g.edge p c) (g'.edge p c) fun r r' => SameGraph R r r' := by
  rw [GraphImpl.edge, GraphImpl.edge, h.frozen, h.size_eq, h.cons_eq]
  split_ifs
  · exact .error
  · exact .error
  · exact .error
  · refine .ok ⟨?_, h.max, h.terminal, rfl⟩
    apply forall₂_modify
    · apply forall₂_modify h.tasks
      exact fun a b hab => ⟨hab.id, by rw [hab.consumers], hab.depInit, hab.params⟩
    · exact fun a b hab => ⟨hab.id, hab.consumers, by rw [hab.depInit], hab.params⟩

theorem write (h : SameGraph R g g') (i : ℕ) {f f' : TaskParams → TaskParams}
    (hf : ∀ t t', SameTask R t t' → SameTask R (f t) (f' t')) :
    SameGraph R (g.write i f) (g'.write i f') where
  tasks := forall₂_modify h.tasks i fun _ _ hab =>
    ⟨hab.id, hab.consumers, hab.depInit, hf _ _ hab.params⟩
  max := h.max
  terminal := h.terminal
  frozen := h.frozen

theorem addRelay (h : SameGraph R g g') (q : ℕ) :
    Follows (addRelay g q) (addRelay g' q) fun r r' => SameGraph R r.1 r'.1 ∧ r.2 = r'.2 := by
  apply (h.add SameTask.rawSignal).bind
  rintro ⟨g1, id⟩ ⟨g1', id'⟩ ⟨h1, rfl⟩
  apply (h1.edge q id).bind
  intro g2 g2' h2
  exact .ok ⟨h2, rfl⟩

theorem openPort (h : SameGraph R g g') (p : ℕ) :
    Follows (openPort g p) (openPort g' p) fun r r' => SameGraph R r.1 r'.1 ∧ r.2 = r'.2 := by
  apply (h.addRelay p).bind
  rintro ⟨g1, trunk⟩ ⟨g1', trunk'⟩ ⟨h1, rfl⟩
  apply (h1.addRelay trunk).bind
  rintro ⟨g2, leaf⟩ ⟨g2', leaf'⟩ ⟨h2, rfl⟩
  exact .ok ⟨h2, rfl⟩

theorem nextTrunk (h : SameGraph R g g') (po : Port) :
    Follows (nextTrunk g po) (nextTrunk g' po) fun r r' => SameGraph R r.1 r'.1 ∧ r.2 = r'.2 := by
  rw [FastLlm.nextTrunk, FastLlm.nextTrunk]
  split_ifs
  · apply (h.addRelay po.trunk).bind
    rintro ⟨g1, nt⟩ ⟨g1', nt'⟩ ⟨h1, rfl⟩
    exact .ok ⟨h1, rfl⟩
  · exact .ok ⟨h, rfl⟩

theorem nextLeaf (h : SameGraph R g g') (po : Port) :
    Follows (nextLeaf g po) (nextLeaf g' po) fun r r' => SameGraph R r.1 r'.1 ∧ r.2 = r'.2 := by
  rw [FastLlm.nextLeaf, FastLlm.nextLeaf]
  split_ifs
  · apply (h.nextTrunk po).bind
    rintro ⟨g1, po1⟩ ⟨g1', po1'⟩ ⟨h1, rfl⟩
    apply (h1.addRelay po1.trunk).bind
    rintro ⟨g2, leaf⟩ ⟨g2', leaf'⟩ ⟨h2, rfl⟩
    exact .ok ⟨h2, rfl⟩
  · exact .ok ⟨h, rfl⟩

end SameGraph

namespace SameState
variable {s s' : BuildState}

theorem port (h : SameState R s s') (p : ℕ) :
    Follows (s.port p) (s'.port p) fun r r' => SameGraph R r.1 r'.1 ∧ r.2 = r'.2 := by
  rw [BuildState.port, BuildState.port, h.ports]
  cases s'.ports p with
  | some po => exact .ok ⟨h.g, rfl⟩
  | none => exact h.g.openPort p

theorem depEdge (h : SameState R s s') (p c : ℕ) :
    Follows (s.depEdge p c) (s'.depEdge p c) fun r r' => SameState R r r' := by
  rw [BuildState.depEdge, BuildState.depEdge, h.g.cons_eq]
  split_ifs
  · apply (h.g.edge p c).bind
    intro g1 g1' h1
    exact .ok ⟨h1, h.ports, h.mem⟩
  · apply (h.port p).bind
    rintro ⟨g1, po1⟩ ⟨g1', po1'⟩ ⟨h1, rfl⟩
    apply (h1.nextLeaf po1).bind
    rintro ⟨g2, po2⟩ ⟨g2', po2'⟩ ⟨h2, rfl⟩
    apply (h2.edge po2.leaf c).bind
    intro g3 g3' h3
    exact .ok ⟨h3, by rw [h.ports], h.mem⟩

end SameState
end

/-! ## Programs that differ in pointers only -/

/-- The programs issue the same commands but for pointers, whatever related pointers the allocators
return, and end in related results. -/
inductive Twin (R : Loc → Loc → Prop) {α β : Type} (V : α → β → Prop) : Build α → Build β → Prop
  | pure {a : α} {b : β} : V a b → Twin R V (.pure a) (.pure b)
  | add {t t' : TaskParams} {k : ℕ → Build α} {k' : ℕ → Build β} : SameTask R t t' →
      (∀ id, Twin R V (k id) (k' id)) → Twin R V (.step (.add t) k) (.step (.add t') k')
  | depEdge (p c : ℕ) {k : Unit → Build α} {k' : Unit → Build β} :
      (∀ u, Twin R V (k u) (k' u)) → Twin R V (.step (.depEdge p c) k) (.step (.depEdge p c) k')
  | edge (p c : ℕ) {k : Unit → Build α} {k' : Unit → Build β} :
      (∀ u, Twin R V (k u) (k' u)) → Twin R V (.step (.edge p c) k) (.step (.edge p c) k')
  | write (i : ℕ) {f f' : TaskParams → TaskParams} {k : Unit → Build α} {k' : Unit → Build β} :
      (∀ t t', SameTask R t t' → SameTask R (f t) (f' t')) → (∀ u, Twin R V (k u) (k' u)) →
      Twin R V (.step (.write i f) k) (.step (.write i f') k')
  | slotAlloc (n : UInt32) {k : Loc → Build α} {k' : Loc → Build β} :
      (∀ l l', R l l' → Twin R V (k l) (k' l')) →
      Twin R V (.step (.slotAlloc n) k) (.step (.slotAlloc n) k')
  | alloc (bytes align : UInt64) {k : Loc → Build α} {k' : Loc → Build β} :
      (∀ l l', R l l' → Twin R V (k l) (k' l')) →
      Twin R V (.step (.alloc bytes align) k) (.step (.alloc bytes align) k')
  | die (msg : String) {k : Empty → Build α} {k' : Empty → Build β} :
      Twin R V (.step (.die msg) k) (.step (.die msg) k')

theorem runLog_extends {α : Type} {x : Build α} {s : BuildState × List Issue} {a : α}
    {s' : BuildState × List Issue} (h : CmdProg.exec BuildState.runLog x s = .ok (a, s')) :
    s.2 <+: s'.2 := by
  induction x generalizing s with
  | pure b =>
    cases h
    exact List.prefix_rfl
  | step c k ih =>
    obtain ⟨⟨r, s1⟩, h1, h2⟩ := GraphImpl.bind_ok.mp h
    refine List.IsPrefix.trans ?_ (ih r h2)
    cases c with
    | slotAlloc n =>
      obtain ⟨⟨p, st⟩, -, h3⟩ := GraphImpl.bind_ok.mp h1
      cases h3
      exact List.prefix_append _ _
    | alloc bytes align =>
      obtain ⟨⟨p, st⟩, -, h3⟩ := GraphImpl.bind_ok.mp h1
      cases h3
      exact List.prefix_append _ _
    | _ =>
      obtain ⟨⟨p, st⟩, -, h3⟩ := GraphImpl.bind_ok.mp h1
      cases h3
      exact List.prefix_rfl

/-- The log changes nothing else. -/
theorem runLog_of_run {α : Type} {x : Build α} {s s' : BuildState} {a : α} (log : List Issue)
    (h : CmdProg.exec BuildState.run x s = .ok (a, s')) :
    ∃ log', CmdProg.exec BuildState.runLog x (s, log) = .ok (a, (s', log')) := by
  induction x generalizing s log with
  | pure b =>
    cases h
    exact ⟨log, rfl⟩
  | step c k ih =>
    obtain ⟨⟨r, s1⟩, h1, h2⟩ := GraphImpl.bind_ok.mp h
    have hstep : ∃ log1, BuildState.runLog c (s, log) = .ok (r, (s1, log1)) := by
      cases c <;> simp only [BuildState.runLog, h1] <;> exact ⟨_, rfl⟩
    obtain ⟨log1, h3⟩ := hstep
    obtain ⟨log2, h4⟩ := ih r log1 h2
    refine ⟨log2, ?_⟩
    rw [CmdProg.exec, h3]
    exact h4

theorem Twin.bind {R : Loc → Loc → Prop} {α β γ δ : Type} {V : α → β → Prop} {W : γ → δ → Prop}
    {x : Build α} {x' : Build β} {f : α → Build γ} {f' : β → Build δ} (h : Twin R V x x')
    (hf : ∀ a b, V a b → Twin R W (f a) (f' b)) : Twin R W (x >>= f) (x' >>= f') := by
  induction h with
  | pure hab => exact hf _ _ hab
  | add ht _ ih => exact .add ht ih
  | depEdge p c _ ih => exact .depEdge p c ih
  | edge p c _ ih => exact .edge p c ih
  | write i ht _ ih => exact .write i ht ih
  | slotAlloc n _ ih => exact .slotAlloc n ih
  | alloc bytes align _ ih => exact .alloc bytes align ih
  | die msg => exact .die msg

section
variable {log log0 : List Issue} {s s' : BuildState}

theorem run_of_runLog {c : Cmd} {a : c.Res} {r : BuildState × List Issue}
    (h : BuildState.runLog c (s, log0) = .ok (a, r)) : s.run c = .ok (a, r.1) := by
  cases c <;>
  · obtain ⟨⟨b, st⟩, h1, h2⟩ := GraphImpl.bind_ok.mp h
    cases h2
    exact h1

theorem exec_runFat {α : Type} {c : Cmd} {k : c.Res → Build α} {a : c.Res} {s1 : BuildState}
    (h : BuildState.runFat c s = .ok (a, s1)) :
    CmdProg.exec BuildState.runFat (.step c k) s = CmdProg.exec BuildState.runFat (k a) s1 := by
  rw [CmdProg.exec, h]
  rfl

theorem SameState.addTask {R : Loc → Loc → Prop} (hs : SameState R s s') {t t' : TaskParams}
    (ht : SameTask R t t') :
    Follows (BuildState.runFat (.add t) s) (s'.run (.add t'))
      fun r r' => r.1 = r'.1 ∧ SameState R r.2 r'.2 :=
  (hs.g.add ht).bind fun _ _ hr => .ok ⟨hr.2, hr.1, hs.ports, hs.mem⟩

theorem SameState.addDep {R : Loc → Loc → Prop} (hs : SameState R s s') (p c : ℕ) :
    Follows (BuildState.runFat (.depEdge p c) s) (s'.run (.depEdge p c))
      fun r r' => SameState R r.2 r'.2 :=
  (hs.depEdge p c).bind fun _ _ hr => .ok hr

theorem SameState.addEdge {R : Loc → Loc → Prop} (hs : SameState R s s') (p c : ℕ) :
    Follows (BuildState.runFat (.edge p c) s) (s'.run (.edge p c))
      fun r r' => SameState R r.2 r'.2 :=
  (hs.g.edge p c).bind fun _ _ hr => .ok ⟨hr, hs.ports, hs.mem⟩

theorem SameState.slotAlloc {R : Loc → Loc → Prop} (hs : SameState R s s') (n : UInt32) :
    Follows (BuildState.runFat (.slotAlloc n) s) (s'.run (.slotAlloc n))
      fun r r' => r.1 = ⟨n.toNat, 0⟩ ∧ SameState R r.2 r'.2 := by
  have hmem : Follows (s.mem.slotAlloc n) (s'.mem.slotAlloc n) fun r r' => r.1 = r'.1 := by
    rw [hs.mem]
    exact fun b hb => ⟨b, hb, rfl⟩
  exact hmem.bind fun r r' hr => .ok ⟨rfl, hs.g, hs.ports, hr⟩

theorem SameState.alloc {R : Loc → Loc → Prop} (hs : SameState R s s') (bytes align : UInt64) :
    Follows (BuildState.runFat (.alloc bytes align) s) (s'.run (.alloc bytes align))
      fun r r' => r.1 = ⟨bytes.toNat / 4, 0⟩ ∧ SameState R r.2 r'.2 := by
  have hmem : Follows (s.mem.alloc bytes align) (s'.mem.alloc bytes align)
      fun r r' => r.1 = r'.1 := by
    rw [hs.mem]
    exact fun b hb => ⟨b, hb, rfl⟩
  exact hmem.bind fun r r' hr => .ok ⟨rfl, hs.g, hs.ports, hr⟩

/-- A pointer to the start of an allocation that is in the log in the end. -/
theorem standsFor_of_mem {l l' : Loc} {n : ℕ} (hl : l = ⟨n, 0⟩) (h : (⟨l', n⟩ : Issue) ∈ log) :
    StandsFor log l l' := by
  rw [hl]
  exact ⟨_, h, rfl, (Loc.add_zero l').symm⟩

/-- Where the build returns, so does the run with bounded pointers, with a graph that differs in
pointers only, and the pointers of its tiles stand for those of the build. -/
theorem runFat_of_runLog {α β : Type} {V : α → β → Prop} {x : Build α} {x' : Build β}
    (h : Twin (StandsFor log) V x x') (hs : SameState (StandsFor log) s s') {b : β}
    {r : BuildState × List Issue} (hrun : CmdProg.exec BuildState.runLog x' (s', log0) = .ok (b, r))
    (hlog : r.2 <+: log) :
    ∃ a s1, CmdProg.exec BuildState.runFat x s = .ok (a, s1) ∧ V a b ∧
      SameState (StandsFor log) s1 r.1 := by
  induction h generalizing s s' log0 with
  | pure hab =>
    cases hrun
    exact ⟨_, s, rfl, hab, hs⟩
  | add ht _ ih =>
    obtain ⟨⟨id', q⟩, h1, h2⟩ := GraphImpl.bind_ok.mp hrun
    obtain ⟨⟨id, s1⟩, h3, rfl, hs1⟩ := hs.addTask ht _ (run_of_runLog h1)
    obtain ⟨a, s2, h4, hab⟩ := ih _ hs1 h2
    exact ⟨a, s2, (exec_runFat h3).trans h4, hab⟩
  | depEdge p c _ ih =>
    obtain ⟨⟨u, q⟩, h1, h2⟩ := GraphImpl.bind_ok.mp hrun
    obtain ⟨⟨_, s1⟩, h3, hs1⟩ := hs.addDep p c _ (run_of_runLog h1)
    obtain ⟨a, s2, h4, hab⟩ := ih _ hs1 h2
    exact ⟨a, s2, (exec_runFat h3).trans h4, hab⟩
  | edge p c _ ih =>
    obtain ⟨⟨u, q⟩, h1, h2⟩ := GraphImpl.bind_ok.mp hrun
    obtain ⟨⟨_, s1⟩, h3, hs1⟩ := hs.addEdge p c _ (run_of_runLog h1)
    obtain ⟨a, s2, h4, hab⟩ := ih _ hs1 h2
    exact ⟨a, s2, (exec_runFat h3).trans h4, hab⟩
  | @write i f f' k k' hf _ ih =>
    obtain ⟨⟨u, q⟩, h1, h2⟩ := GraphImpl.bind_ok.mp hrun
    cases h1
    have hs1 : SameState (StandsFor log) { s with g := s.g.write i f }
        { s' with g := s'.g.write i f' } := ⟨hs.g.write i hf, hs.ports, hs.mem⟩
    obtain ⟨a, s2, h4, hab⟩ := ih () hs1 h2
    exact ⟨a, s2, h4, hab⟩
  | slotAlloc n _ ih =>
    obtain ⟨⟨l', q⟩, h1, h2⟩ := GraphImpl.bind_ok.mp hrun
    obtain ⟨⟨l, s1⟩, h3, hl, hs1⟩ := hs.slotAlloc n _ (run_of_runLog h1)
    have hmem : (⟨l', n.toNat⟩ : Issue) ∈ log := by
      obtain ⟨⟨l'', st⟩, -, h5⟩ := GraphImpl.bind_ok.mp h1
      cases h5
      exact hlog.subset ((runLog_extends h2).subset
        (List.mem_append_right _ (List.mem_singleton_self _)))
    obtain ⟨a, s2, h4, hab⟩ := ih _ _ (standsFor_of_mem hl hmem) hs1 h2
    exact ⟨a, s2, (exec_runFat h3).trans h4, hab⟩
  | alloc bytes align _ ih =>
    obtain ⟨⟨l', q⟩, h1, h2⟩ := GraphImpl.bind_ok.mp hrun
    obtain ⟨⟨l, s1⟩, h3, hl, hs1⟩ := hs.alloc bytes align _ (run_of_runLog h1)
    have hmem : (⟨l', bytes.toNat / 4⟩ : Issue) ∈ log := by
      obtain ⟨⟨l'', st⟩, -, h5⟩ := GraphImpl.bind_ok.mp h1
      cases h5
      exact hlog.subset ((runLog_extends h2).subset
        (List.mem_append_right _ (List.mem_singleton_self _)))
    obtain ⟨a, s2, h4, hab⟩ := ih _ _ (standsFor_of_mem hl hmem) hs1 h2
    exact ⟨a, s2, (exec_runFat h3).trans h4, hab⟩
  | die msg => cases hrun

end

/-! ## The builder -/

open Build

/-- Columns at related places, as far apart. -/
structure SameCols (R : Loc → Loc → Prop) (c c' : Cols) : Prop where
  base : R c.base c'.base
  stride : c.stride = c'.stride

section
variable {R : Loc → Loc → Prop} {α β : Type}

theorem twin_add {t t' : TaskParams} (h : SameTask R t t') : Twin R Eq (add t) (add t') :=
  .add h fun _ => .pure rfl

theorem twin_depEdge (p c : ℕ) : Twin R Eq (depEdge p c) (depEdge p c) :=
  .depEdge p c fun _ => .pure rfl

theorem twin_write (i : ℕ) {f f' : TaskParams → TaskParams}
    (h : ∀ t t', SameTask R t t' → SameTask R (f t) (f' t')) :
    Twin R Eq (write i f) (write i f') :=
  .write i h fun _ => .pure rfl

theorem twin_slotAlloc (n : UInt32) : Twin R R (slotAlloc n) (slotAlloc n) :=
  .slotAlloc n fun _ _ h => .pure h

theorem twin_alloc (bytes align : UInt64) : Twin R R (alloc bytes align) (alloc bytes align) :=
  .alloc bytes align fun _ _ h => .pure h

theorem twin_tensor (D : Decoder) (t : TensorName) : Twin R Eq (tensor D t) (tensor D t) := by
  rw [tensor]
  cases D.weights t with
  | some w => exact .pure rfl
  | none => exact .die _

theorem Twin.imp {V W : α → β → Prop} {x : Build α} {x' : Build β} (h : Twin R V x x')
    (hV : ∀ a b, V a b → W a b) : Twin R W x x' := by
  have hbind := h.bind fun a b hab => (Twin.pure (hV a b hab) : Twin R W (.pure a) (.pure b))
  rw [← bind_pure x, ← bind_pure x']
  exact hbind

theorem twin_forM {ι : Type} (l : List ι) {f f' : ι → Build PUnit}
    (h : ∀ i, Twin R Eq (f i) (f' i)) : Twin R Eq (l.forM f) (l.forM f') := by
  induction l with
  | nil => exact .pure rfl
  | cons i l ih => exact (h i).bind fun _ _ _ => ih

theorem twin_mapM {ι : Type} (l : List ι) {f : ι → Build α} {f' : ι → Build β} {V : α → β → Prop}
    (h : ∀ i, Twin R V (f i) (f' i)) : Twin R (List.Forall₂ V) (l.mapM f) (l.mapM f') := by
  induction l with
  | nil => exact .pure .nil
  | cons i l ih =>
    rw [List.mapM_cons, List.mapM_cons]
    apply (h i).bind
    intro a b hab
    apply ih.bind
    intro as bs habs
    exact .pure (.cons hab habs)

theorem twin_foldlM {ι : Type} (l : List ι) {f : α → ι → Build α} {f' : β → ι → Build β}
    {V : α → β → Prop} (h : ∀ a b i, V a b → Twin R V (f a i) (f' b i)) {a : α} {b : β}
    (hab : V a b) : Twin R V (l.foldlM f a) (l.foldlM f' b) := by
  induction l generalizing a b with
  | nil => exact .pure hab
  | cons i l ih =>
    rw [List.foldlM_cons, List.foldlM_cons]
    exact (h a b i hab).bind fun _ _ hcd => ih hcd

theorem twin_positions [Inhabited α] [Inhabited β] (m : ℕ) {f : ℕ → Build α} {f' : ℕ → Build β}
    {V : α → β → Prop} (hdef : V default default) (h : ∀ p, Twin R V (f p) (f' p)) :
    Twin R (fun r r' => ∀ p, V (r p) (r' p)) (positions m f) (positions m f') := by
  apply (twin_mapM (List.range m) h).bind
  intro as bs habs
  apply Twin.pure
  intro p
  induction habs generalizing p with
  | nil => exact hdef
  | cons hab _ ih =>
    cases p with
    | zero => exact hab
    | succ p => exact ih p

theorem twin_positions_eq [Inhabited α] (m : ℕ) {f f' : ℕ → Build α}
    (h : ∀ p, Twin R Eq (f p) (f' p)) : Twin R Eq (positions m f) (positions m f') :=
  (twin_positions m rfl h).imp fun _ _ hab => funext hab

theorem twin_dependOn (id : ℕ) (deps : List ℕ) : Twin R Eq (dependOn id deps) (dependOn id deps) :=
  twin_forM deps fun d => twin_depEdge d id

theorem twin_fanIn (producers : List ℕ) : Twin R Eq (fanIn producers) (fanIn producers) := by
  apply (twin_add SameTask.rawSignal).bind
  rintro sig _ rfl
  exact (twin_dependOn sig producers).bind fun _ _ _ => .pure rfl

theorem twin_addOp {k : TaskKind} {aux aux' : Option Aux} (haux : aux.isSome = aux'.isSome)
    (deps : List ℕ) (hk : k ≠ .STREAM_DOT) (hi : k ≠ .STREAM_DOT_IDX) :
    Twin R Eq (addOp k aux deps) (addOp k aux' deps) := by
  have htask : SameTask R { kind := k, affinity := .CPU, aux := aux }
      { kind := k, affinity := .CPU, aux := aux' } :=
    ⟨rfl, haux, fun h => (h.elim hk hi).elim⟩
  apply (twin_add htask).bind
  rintro id _ rfl
  exact (twin_dependOn id deps).bind fun _ _ _ => .pure rfl

/-- Operations whose parameter blocks are of one kind. -/
theorem twin_addAuxOp {k : TaskKind} {a a' : Aux} (ha : auxBytes a = auxBytes a') (deps : List ℕ)
    (hk : k ≠ .STREAM_DOT) (hi : k ≠ .STREAM_DOT_IDX) :
    Twin R Eq (addAuxOp k a deps) (addAuxOp k a' deps) := by
  have haux : Twin R (fun p p' => p.isSome = p'.isSome) (auxAlloc a) (auxAlloc a') := by
    rw [auxAlloc, auxAlloc, ha]
    exact (twin_alloc _ _).bind fun _ _ _ => .pure rfl
  exact haux.bind fun p p' hp => twin_addOp hp deps hk hi

end

section
variable {R : Loc → Loc → Prop} (hR : ∀ l l' n, R l l' → R (l.add n) (l'.add n)) {c c' : Cols}
include hR

theorem SameCols.col (h : SameCols R c c') (p : ℕ) : R (c.col p) (c'.col p) := by
  rw [Cols.col, Cols.col, h.stride]
  exact hR _ _ _ h.base

theorem twin_addActQ8 (dep : ℕ) {x x' : Loc} (hx : R x x') (n : UInt32) :
    Twin R Eq (addActQ8 dep x n) (addActQ8 dep x' n) := by
  apply (twin_addOp rfl [dep] (by decide) (by decide)).bind
  rintro id _ rfl
  apply (twin_write id _).bind fun _ _ _ => .pure rfl
  intro t t' h
  refine ⟨?_, h.aux, fun _ => ⟨hx, hR _ _ _ hx⟩⟩
  exact congrArg (fun u : TaskParams => { u with rows := n.toNat / 32, cols := n.toNat }) h.rest

omit hR in
theorem twin_tileLoop {tile tile' : UInt32 → UInt32 → TaskParams} {rows rowsz : UInt32}
    (htile : ∀ r0 r, SameTask R (tile r0 r) (tile' r0 r)) (deps : List ℕ) (fuel : ℕ) (r0 : UInt32)
    (tiles : List ℕ) : Twin R Eq (tileLoop tile rows rowsz deps fuel r0 tiles)
      (tileLoop tile' rows rowsz deps fuel r0 tiles) := by
  induction fuel generalizing r0 tiles with
  | zero => exact .die _
  | succ fuel ih =>
    rw [tileLoop, tileLoop]
    by_cases hr : r0 < rows
    · rw [if_pos hr, if_pos hr]
      apply (twin_add (htile _ _)).bind
      rintro id _ rfl
      exact (twin_dependOn id deps).bind fun _ _ _ => ih _ _
    · rw [if_neg hr, if_neg hr]
      exact .pure rfl

omit hR in
theorem twin_addTiles {tile tile' : UInt32 → UInt32 → TaskParams} {rows rowsz : UInt32}
    (htile : ∀ r0 r, SameTask R (tile r0 r) (tile' r0 r)) (deps : List ℕ) :
    Twin R Eq (addTiles tile rows rowsz deps) (addTiles tile' rows rowsz deps) := by
  apply (twin_tileLoop htile deps (2 ^ 32) 0 []).bind
  rintro tiles _ rfl
  match tiles with
  | [t] => exact .pure rfl
  | [] => exact twin_fanIn []
  | t :: u :: rest => exact twin_fanIn (t :: u :: rest)

theorem twin_addDot (o : BuildOpts) (w : WTensor) {x x' y y' : Loc} (hx : R x x') (hy : R y y')
    (deps : List ℕ) (rowsz : UInt32) {slot slot' : Option Loc} (hs : slot.isSome = slot'.isSome) :
    Twin R Eq (addDot o w x y deps rowsz slot) (addDot o w x' y' deps rowsz slot') := by
  apply twin_addTiles
  intro r0 r
  refine ⟨?_, ?_, fun _ => ⟨hx, hR _ _ _ hy⟩⟩
  · simp only [TaskParams.unplaced, dotTile, hs]
  · simp only [dotTile, Option.isSome_map, hs]

theorem twin_addDotM (o : BuildOpts) (w : WTensor) {x x' y y' : Cols} (hx : SameCols R x x')
    (hy : SameCols R y y') (m : ℕ) (deps : List ℕ) (rowsz : UInt32) :
    Twin R Eq (addDotM o w x y m deps rowsz) (addDotM o w x' y' m deps rowsz) := by
  rw [addDotM, addDotM]
  split_ifs
  · apply (twin_mapM (V := Eq) (List.range m) fun p =>
      twin_addDot hR o w (hx.col hR p) (hy.col hR p) deps rowsz rfl).bind
    intro sigs sigs' hsigs
    rw [List.forall₂_eq_eq_eq] at hsigs
    rw [hsigs]
    exact twin_fanIn sigs'
  · exact twin_addDot hR o w hx.base hy.base deps rowsz rfl
  · apply twin_addTiles
    intro r0 r
    refine ⟨?_, rfl, fun _ => ⟨hx.base, hR _ _ _ hy.base⟩⟩
    simp only [TaskParams.unplaced, dotTileM, hx.stride, hy.stride]

theorem twin_stageDot (o : BuildOpts) (w : WTensor) {x x' y y' : Cols} (hx : SameCols R x x')
    (hy : SameCols R y y') (m : ℕ) (pdeps : ℕ → ℕ) (rowsz : UInt32) :
    Twin R Eq (stageDot o w x y m pdeps rowsz) (stageDot o w x' y' m pdeps rowsz) := by
  rw [stageDot, stageDot]
  split_ifs
  · apply (twin_addDotM hR o w hx hy m _ rowsz).bind
    rintro id _ rfl
    exact .pure rfl
  · exact twin_positions_eq m fun p =>
      twin_addDot hR o w (hx.col hR p) (hy.col hR p) _ rowsz rfl

omit hR in
theorem twin_bufAllocCols (n : UInt32) (m : ℕ) :
    Twin R (SameCols R) (bufAllocCols n m) (bufAllocCols n m) :=
  (twin_alloc _ _).bind fun _ _ h => .pure ⟨h, rfl⟩

omit hR in
theorem twin_slotAllocCols (n : UInt32) (m : ℕ) :
    Twin R (SameCols R) (slotAllocCols n m) (slotAllocCols n m) :=
  (twin_slotAlloc _).bind fun _ _ h => .pure ⟨h, rfl⟩

/-! ## The stages -/

variable (D : Decoder) (l rowsz : UInt32) (m : ℕ)

omit hR in
/-- A look-up and what follows it. -/
theorem Twin.tensor {α β : Type} {V : α → β → Prop} {t : TensorName} {f : WTensor → Build α}
    {f' : WTensor → Build β} (h : ∀ w, Twin R V (f w) (f' w)) :
    Twin R V (tensor D t >>= f) (tensor D t >>= f') := by
  apply (twin_tensor D t).bind
  rintro w _ rfl
  exact h w

omit hR in
theorem twin_addRmsNorm (w : WTensor) (n : UInt32) {x x' y y' : Loc} (deps : List ℕ) :
    Twin R Eq (addRmsNorm D w x y n deps) (addRmsNorm D w x' y' n deps) :=
  twin_addAuxOp (by rfl) deps (by decide) (by decide)

omit hR in
theorem twin_addRope (n k i j : UInt32) {x x' pos pos' : Loc} (deps : List ℕ) :
    Twin R Eq (addRope D x pos n k i j deps) (addRope D x' pos' n k i j deps) :=
  twin_addAuxOp (by rfl) deps (by decide) (by decide)

omit hR in
theorem twin_addKvAppend (p : ℕ) {kvb kvb' kva kva' : Cols} (deps : List ℕ) :
    Twin R Eq (addKvAppend D l p kvb kva deps) (addKvAppend D l p kvb' kva' deps) :=
  twin_addAuxOp (by rfl) deps (by decide) (by decide)

theorem twin_normQ8 (w : WTensor) (n k : UInt32) {x x' y y' : Loc} (hy : R y y')
    (deps : List ℕ) :
    Twin R Eq (addRmsNorm D w x y n deps >>= fun id => addActQ8 id y k)
      (addRmsNorm D w x' y' n deps >>= fun id => addActQ8 id y' k) := by
  apply (twin_addRmsNorm D w n deps).bind
  rintro id _ rfl
  exact twin_addActQ8 hR id hy k

theorem twin_addSiluQ8 {gate gate' up up' h h' : Loc} (hh : R h h') (n : UInt32) (deps : List ℕ) :
    Twin R Eq (addSiluQ8 gate up h n deps) (addSiluQ8 gate' up' h' n deps) := by
  have hop : Twin R Eq (addAuxOp .SILU_MUL (.siluMul ⟨gate, up, h, n.toNat⟩) deps)
      (addAuxOp .SILU_MUL (.siluMul ⟨gate', up', h', n.toNat⟩) deps) :=
    twin_addAuxOp (by rfl) deps (by decide) (by decide)
  apply hop.bind
  rintro tS _ rfl
  exact twin_addActQ8 hR tS hh n

/-- The residual streams have the same tasks behind them. -/
def SameDeps (r r' : Residual) : Prop := r.dep = r'.dep

theorem twin_stageA {r r' : Residual} (hr : SameDeps r r') {xn xn' : Cols}
    (hx : SameCols R xn xn') : Twin R Eq (stageA D l m r xn) (stageA D l m r' xn') := by
  apply twin_positions_eq
  intro p
  apply Twin.tensor
  intro w
  rw [hr]
  exact twin_normQ8 hR D w _ _ (hx.col hR p) _

theorem twin_stageC {kva kva' ckv ckv' : Cols} (hc : SameCols R ckv ckv') (skva : ℕ → ℕ) :
    Twin R Eq (stageC D l m kva ckv skva) (stageC D l m kva' ckv' skva) := by
  apply twin_positions_eq
  intro p
  apply Twin.tensor
  intro w
  exact twin_normQ8 hR D w _ _ (hc.col hR p) _

omit hR in
theorem twin_addHeads (p : ℕ) {q q' ctx ctx' scr scr' : Loc} (deps : List ℕ) :
    Twin R Eq (addHeads D l p q ctx scr deps) (addHeads D l p q' ctx' scr' deps) := by
  have hop (hh : ℕ) (q ctx q' ctx' scr scr' : Loc) :
      Twin R Eq (addAuxOp .ATTN_HEAD (.attnHead
        { q := q, kcache := kcOf D l, vcache := vcOf D l, scratch := scr, out := ctx
          pos := D.pos.add p, scale := D.hp.kqScale, head := hh, nHead := D.hp.nHead.toNat
          dk := D.hp.dk.toNat, dv := D.hp.dv.toNat }) deps)
        (addAuxOp .ATTN_HEAD (.attnHead
        { q := q', kcache := kcOf D l, vcache := vcOf D l, scratch := scr', out := ctx'
          pos := D.pos.add p, scale := D.hp.kqScale, head := hh, nHead := D.hp.nHead.toNat
          dk := D.hp.dk.toNat, dv := D.hp.dv.toNat }) deps) :=
    twin_addAuxOp (by rfl) deps (by decide) (by decide)
  apply (twin_mapM (V := Eq) _ fun hh => hop hh q ctx q' ctx' _ _).bind
  intro heads heads' hheads
  rw [List.forall₂_eq_eq_eq] at hheads
  rw [hheads]
  exact twin_fanIn heads'

theorem twin_stageEAt {qb qb' kva kva' kvb kvb' ctx ctx' : Cols} (hctx : SameCols R ctx ctx')
    (sq skva skvb : ℕ → ℕ) (p : ℕ) (appCum : Option ℕ) :
    Twin R Eq (stageEAt D l qb kva kvb ctx sq skva skvb p appCum)
      (stageEAt D l qb' kva' kvb' ctx' sq skva skvb p appCum) := by
  have hchain (tApp : ℕ) : Twin R Eq (appendChain appCum tApp) (appendChain appCum tApp) := by
    cases appCum with
    | none => exact .pure rfl
    | some a => exact twin_fanIn [a, tApp]
  apply (twin_addRope D _ _ _ _ _).bind
  rintro tRq _ rfl
  apply (twin_addRope D _ _ _ _ _).bind
  rintro tRk _ rfl
  apply (twin_addKvAppend D l p _).bind
  rintro tApp _ rfl
  apply (hchain tApp).bind
  rintro appCum' _ rfl
  apply (twin_alloc _ _).bind
  intro scr scr' _
  apply (twin_addHeads D l p _).bind
  rintro tHeads _ rfl
  apply (twin_addActQ8 hR tHeads (hctx.col hR p) _).bind
  rintro cq8 _ rfl
  exact .pure rfl

theorem twin_stageE {qb qb' kva kva' kvb kvb' ctx ctx' : Cols} (hctx : SameCols R ctx ctx')
    (sq skva skvb : ℕ → ℕ) :
    Twin R Eq (stageE D l m qb kva kvb ctx sq skva skvb)
      (stageE D l m qb' kva' kvb' ctx' sq skva skvb) := by
  have hround (s s' : Option ℕ × List ℕ) (p : ℕ) (hs : s = s') :
      Twin R Eq (do
        let r ← stageEAt D l qb kva kvb ctx sq skva skvb p s.1
        Pure.pure (some r.1, s.2 ++ [r.2])) (do
        let r ← stageEAt D l qb' kva' kvb' ctx' sq skva skvb p s'.1
        Pure.pure (some r.1, s'.2 ++ [r.2])) := by
    rw [hs]
    apply (twin_stageEAt hR D l hctx sq skva skvb p s'.1).bind
    rintro r _ rfl
    exact .pure rfl
  apply (twin_foldlM (List.range m) hround rfl).bind
  rintro r _ rfl
  exact .pure rfl

theorem twin_stageG {r r' : Residual} (hr : SameDeps r r') {ao ao' x2 x2' xf xf' : Cols}
    (hxf : SameCols R xf xf') (so : ℕ → ℕ) :
    Twin R Eq (stageG D l m r ao x2 xf so) (stageG D l m r' ao' x2' xf' so) := by
  have hadd (a b y a' b' y' : Loc) (n : ℕ) (deps : List ℕ) :
      Twin R Eq (addAuxOp .ADD2 (.add2 { a := a, b := b, y := y, n := n }) deps)
        (addAuxOp .ADD2 (.add2 { a := a', b := b', y := y', n := n }) deps) :=
    twin_addAuxOp (by rfl) deps (by decide) (by decide)
  apply twin_positions_eq
  intro p
  rw [hr]
  apply (hadd _ _ _ _ _ _ _ _).bind
  rintro tx2 _ rfl
  apply Twin.tensor
  intro w
  apply (twin_addRmsNorm D w _ _).bind
  rintro fn _ rfl
  apply (twin_addActQ8 hR fn (hxf.col hR p) _).bind
  rintro fq8 _ rfl
  exact .pure rfl

/-- What the FFN of a layer finds, with related norms. -/
structure SameFfn (R : Loc → Loc → Prop) (i i' : FfnIn) : Prop where
  xf : SameCols R i.xf i'.xf
  tx2 : i.tx2 = i'.tx2
  fn : i.fn = i'.fn
  fq8 : i.fq8 = i'.fq8

theorem twin_attention {r r' : Residual} (hr : SameDeps r r') :
    Twin R (SameFfn R) (attention D l m rowsz r) (attention D l m rowsz r') := by
  apply (twin_bufAllocCols _ m).bind
  intro xn xn' hxn
  apply (twin_slotAllocCols _ m).bind
  intro qb qb' hqb
  apply (twin_slotAllocCols _ m).bind
  intro kva kva' hkva
  apply (twin_bufAllocCols _ m).bind
  intro ckv ckv' hckv
  apply (twin_slotAllocCols _ m).bind
  intro kvb kvb' hkvb
  apply (twin_bufAllocCols _ m).bind
  intro ctx ctx' hctx
  apply (twin_slotAllocCols _ m).bind
  intro ao ao' hao
  apply (twin_bufAllocCols _ m).bind
  intro x2 x2' _
  apply (twin_bufAllocCols _ m).bind
  intro xf xf' hxf
  apply (twin_stageA hR D l m hr hxn).bind
  rintro aq _ rfl
  apply Twin.tensor
  intro wq
  apply (twin_stageDot hR D.o wq hxn hqb m aq rowsz).bind
  rintro sq _ rfl
  apply Twin.tensor
  intro wkva
  apply (twin_stageDot hR D.o wkva hxn hkva m aq rowsz).bind
  rintro skva _ rfl
  apply (twin_stageC hR D l m hckv skva).bind
  rintro kq8 _ rfl
  apply Twin.tensor
  intro wkvb
  apply (twin_stageDot hR D.o wkvb hckv hkvb m kq8 rowsz).bind
  rintro skvb _ rfl
  apply (twin_stageE hR D l m hctx sq skva skvb).bind
  rintro cq8 _ rfl
  apply Twin.tensor
  intro wo
  apply (twin_stageDot hR D.o wo hctx hao m cq8 rowsz).bind
  rintro so _ rfl
  apply (twin_stageG hR D l m hr hxf so).bind
  rintro g _ rfl
  exact .pure ⟨hxf, rfl, rfl, rfl⟩

/-! ## FFN -/

variable {i i' : FfnIn} (hi : SameFfn R i i')
include hi

theorem twin_gateUpDown (wg wu wd : LayerTensor) (n : UInt32) {gg gg' uu uu' hh hh' dd dd' : Cols}
    (hg : SameCols R gg gg') (hu : SameCols R uu uu') (hh0 : SameCols R hh hh')
    (hd : SameCols R dd dd') :
    Twin R Eq (gateUpDown D wg wu wd l m rowsz n i gg uu hh dd)
      (gateUpDown D wg wu wd l m rowsz n i' gg' uu' hh' dd') := by
  rw [gateUpDown, gateUpDown, hi.fq8]
  apply Twin.tensor
  intro w
  apply (twin_stageDot hR D.o w hi.xf hg m _ rowsz).bind
  rintro sg _ rfl
  apply Twin.tensor
  intro w
  apply (twin_stageDot hR D.o w hi.xf hu m _ rowsz).bind
  rintro su _ rfl
  apply (twin_positions_eq m fun p => twin_addSiluQ8 hR (hh0.col hR p) n _).bind
  rintro hq8 _ rfl
  apply Twin.tensor
  intro w
  exact twin_stageDot hR D.o w hh0 hd m hq8 rowsz

omit hR hi in
theorem twin_merge (a a' : WmergeP) (deps : List ℕ) :
    Twin R Eq (addAuxOp .WMERGE (.wmerge a) deps) (addAuxOp .WMERGE (.wmerge a') deps) :=
  twin_addAuxOp (by rfl) deps (by decide) (by decide)

theorem twin_ffnDense (xo xo' : Cols) :
    Twin R Eq (ffnDense D l m rowsz i xo) (ffnDense D l m rowsz i' xo') := by
  apply (twin_slotAllocCols _ m).bind
  intro gg gg' hgg
  apply (twin_slotAllocCols _ m).bind
  intro uu uu' huu
  apply (twin_bufAllocCols _ m).bind
  intro hh hh' hhh
  apply (twin_slotAllocCols _ m).bind
  intro dd dd' hdd
  apply (twin_gateUpDown hR D l rowsz m hi _ _ _ _ hgg huu hhh hdd).bind
  rintro sd _ rfl
  rw [hi.tx2]
  exact twin_positions_eq m fun p => twin_merge _ _ _

theorem twin_addRouter (p : ℕ) :
    Twin R (fun r r' => r.tRt = r'.tRt) (addRouter D l rowsz i p) (addRouter D l rowsz i' p) := by
  have hsel (a a' : RouterP) (deps : List ℕ) :
      Twin R Eq (addAuxOp .ROUTER_SEL (.router a) deps) (addAuxOp .ROUTER_SEL (.router a') deps) :=
    twin_addAuxOp (by rfl) deps (by decide) (by decide)
  apply (twin_slotAlloc _).bind
  intro rlog rlog' hrlog
  apply Twin.tensor
  intro w
  rw [hi.fn]
  apply (twin_addDot hR D.o w (hi.xf.col hR p) hrlog _ rowsz rfl).bind
  rintro tRl _ rfl
  apply (twin_alloc _ _).bind
  intro ids ids' _
  apply (twin_alloc _ _).bind
  intro gate gate' _
  apply (hsel _ _ _).bind
  rintro tRt _ rfl
  exact .pure rfl

omit hi in
theorem twin_addExpert (wge wue wde : WTensor) {xf xf' de de' : Loc} (hxf : R xf xf')
    (hde : R de de') (ids ids' : Loc) (deps : List ℕ) (k : ℕ) :
    Twin R Eq (addExpert D wge wue wde rowsz xf de ids deps k)
      (addExpert D wge wue wde rowsz xf' de' ids' deps k) := by
  apply (twin_slotAlloc _).bind
  intro ge ge' hge
  apply (twin_slotAlloc _).bind
  intro ue ue' hue
  apply (twin_addDot hR D.o wge hxf hge deps rowsz (by rfl)).bind
  rintro tGe _ rfl
  apply (twin_addDot hR D.o wue hxf hue deps rowsz (by rfl)).bind
  rintro tUe _ rfl
  apply (twin_alloc _ _).bind
  intro he he' hhe
  apply (twin_addSiluQ8 hR hhe _ _).bind
  rintro tHq8 _ rfl
  exact twin_addDot hR D.o wde hhe (hR _ _ _ hde) _ rowsz (by rfl)

theorem twin_addExperts (wge wue wde : WTensor) (ids ids' : Loc) (tRt p : ℕ) :
    Twin R (fun r r' => r.1 = r'.1) (addExperts D wge wue wde rowsz m i ids tRt p)
      (addExperts D wge wue wde rowsz m i' ids' tRt p) := by
  apply (twin_slotAlloc _).bind
  intro de de' hde
  rw [hi.fq8]
  apply (twin_mapM (V := Eq) _ fun k =>
    twin_addExpert hR D rowsz wge wue wde (hi.xf.col hR p) hde ids ids' _ k).bind
  intro downs downs' hdowns
  rw [List.forall₂_eq_eq_eq] at hdowns
  rw [hdowns]
  apply (twin_fanIn downs').bind
  rintro sig _ rfl
  exact .pure rfl

theorem twin_ffnMoe (xo xo' : Cols) :
    Twin R Eq (ffnMoe D l m rowsz i xo) (ffnMoe D l m rowsz i' xo') := by
  apply Twin.tensor
  intro wge
  apply Twin.tensor
  intro wue
  apply Twin.tensor
  intro wde
  apply (twin_positions m (by rfl) fun p => twin_addRouter hR D l rowsz hi p).bind
  intro rt rt' hrt
  have hgate : Twin R Eq (expertGate D m fun p => (rt p).tRt)
      (expertGate D m fun p => (rt' p).tRt) := by
    rw [funext hrt, expertGate]
    split_ifs
    · apply (twin_fanIn _).bind
      rintro sig _ rfl
      exact .pure rfl
    · exact .pure rfl
  apply hgate.bind
  rintro gate _ rfl
  apply (twin_positions m (by rfl) fun p =>
    twin_addExperts hR D rowsz m hi wge wue wde (rt p).ids (rt' p).ids (gate p) p).bind
  intro rdown rdown' hrdown
  apply Twin.tensor
  intro wgs
  apply (twin_slotAllocCols _ m).bind
  intro gs gs' hgs
  apply (twin_slotAllocCols _ m).bind
  intro us us' hus
  apply (twin_bufAllocCols _ m).bind
  intro hs hs' hhs
  apply (twin_slotAllocCols _ m).bind
  intro ds ds' hds
  apply (twin_gateUpDown hR D l rowsz m hi _ _ _ _ hgs hus hhs hds).bind
  rintro sds _ rfl
  apply twin_positions_eq
  intro p
  rw [hrdown, hi.tx2]
  exact twin_merge _ _ _

end

/-! ## The pass -/

section
variable {R : Loc → Loc → Prop} (hR : ∀ l l' n, R l l' → R (l.add n) (l'.add n)) (D : Decoder)
  (m : ℕ)
include hR

theorem twin_layer (l rowsz : UInt32) {r r' : Residual} (hr : SameDeps r r') :
    Twin R SameDeps (layer D m rowsz r l) (layer D m rowsz r' l) := by
  apply (twin_attention hR D l rowsz m hr).bind
  intro i i' hi
  apply (twin_bufAllocCols _ m).bind
  intro xo xo' _
  have hffn : Twin R Eq (ffn D l m rowsz i xo) (ffn D l m rowsz i' xo') := by
    rw [ffn, ffn]
    split_ifs
    · exact twin_ffnDense hR D l rowsz m hi xo xo'
    · exact twin_ffnMoe hR D l rowsz m hi xo xo'
  apply hffn.bind
  rintro tLo _ rfl
  exact .pure rfl

theorem twin_finalNorm {r r' : Residual} (hr : SameDeps r r') {xF xF' : Cols}
    (hx : SameCols R xF xF') : Twin R Eq (finalNorm D m r xF) (finalNorm D m r' xF') := by
  apply twin_positions_eq
  intro p
  apply Twin.tensor
  intro w
  rw [hr]
  exact twin_normQ8 hR D w _ _ (hx.col hR p) _

theorem twin_head (rowsz : UInt32) {xF xF' : Cols} (hx : SameCols R xF xF') (fq8 : ℕ → ℕ) :
    Twin R (fun r r' => r.2 = r'.2) (head D m rowsz xF fq8) (head D m rowsz xF' fq8) := by
  rw [head, head]
  split_ifs
  · exact .pure rfl
  · apply (twin_slotAlloc _).bind
    intro lg lg' hlg
    have hcols : SameCols R ⟨lg, D.hp.nVocab⟩ ⟨lg', D.hp.nVocab⟩ := ⟨hlg, rfl⟩
    apply Twin.tensor
    intro w
    apply (twin_addDotM hR D.o w hx hcols m _ rowsz).bind
    rintro sig _ rfl
    exact .pure rfl

theorem twin_wire : Twin R (fun _ _ => True) (wire D m) (wire D m) := by
  have hbuf (p : ℕ) : Twin R (fun _ _ => True) (bufAlloc D.hp.nEmbd) (bufAlloc D.hp.nEmbd) :=
    (twin_alloc _ _).imp fun _ _ _ => trivial
  apply (twin_positions m trivial hbuf).bind
  intro xCur xCur' _
  have hr0 : SameDeps ⟨xCur, fun _ => none⟩ ⟨xCur', fun _ => none⟩ := rfl
  apply (twin_foldlM _ (fun r r' l hr => twin_layer hR D m (.ofNat l) (rowszOf D.o m) hr) hr0).bind
  intro r r' hr
  apply (twin_bufAllocCols _ m).bind
  intro xF xF' hxF
  apply (twin_finalNorm hR D m hr hxF).bind
  rintro fq8 _ rfl
  apply (twin_head hR D m (headRowszOf D.o) hxF fq8).bind
  intro h h' hsigs
  have hterm : SameTask R { kind := .SIGNAL, affinity := .CPU }
      { kind := .SIGNAL, affinity := .CPU } := SameTask.rawSignal
  apply (twin_add hterm).bind
  rintro term _ rfl
  rw [hsigs]
  have hedges : Twin R Eq (h'.2.forM fun d => edge d term) (h'.2.forM fun d => edge d term) :=
    twin_forM _ fun d => .edge d term fun _ => .pure rfl
  apply hedges.bind
  rintro _ _ rfl
  exact .pure trivial

end
end FastLlm
