import FastLlm.Model.BuildGraph

/-!
# What the builder asks for

The builder asks for tasks and for dependencies between them, with a dependency of a
task only on tasks it has already asked for.  How `dep_edge` meets a request is not
part of the plan: an id is any number above the ids before it, since signals of the
relay trees take some of them.

## Main definitions

* `Plan` — the tasks and dependencies asked for.
* `Plan.spec` — what a command adds to the plan, and what it needs of it.
-/

namespace FastLlm

/-- The tasks and dependencies asked for; `tight` when no relay can have come after the
last task. -/
structure Plan where
  next : ℕ
  task : ℕ → Option TaskParams
  deps : List (ℕ × ℕ)
  tight : Bool
  mem : DecoderMem

namespace Plan

def create (mem : DecoderMem) : Plan := ⟨0, fun _ => none, [], false, mem⟩

/-- Task `i` was asked for. -/
def Has (s : Plan) (i : ℕ) : Prop := (s.task i).isSome = true

def add (s : Plan) (id : ℕ) (t : TaskParams) : Plan :=
  { s with next := id + 1, task := Function.update s.task id (some t), tight := true }

/-- A dependency that `dep_edge` is to meet. -/
def dep (s : Plan) (p c : ℕ) : Plan := { s with deps := s.deps ++ [(p, c)], tight := false }

/-- A dependency that is an edge of the graph. -/
def link (s : Plan) (p c : ℕ) : Plan := { s with deps := s.deps ++ [(p, c)] }

def write (s : Plan) (i : ℕ) (f : TaskParams → TaskParams) : Plan :=
  { s with task := Function.update s.task i ((s.task i).map f) }

def withMem (s : Plan) (mem : DecoderMem) : Plan := { s with mem := mem }

/-- The number of consumers asked for `p`. -/
def out (s : Plan) (p : ℕ) : ℕ := s.deps.countP fun e => e.1 = p

/-- What a command needs of the plan, and the plan after it. -/
def spec (adm : TaskParams → Prop) (excused : String → Prop) :
    (c : Cmd) → (c.Res → Plan → Prop) → Plan → Prop
  | .add t, Q, s => adm t ∧ ∀ id, s.next ≤ id → Q id (s.add id t)
  | .depEdge p c, Q, s => s.Has p ∧ s.Has c ∧ p < c ∧ Q () (s.dep p c)
  | .edge p c, Q, s =>
      s.Has p ∧ s.Has c ∧ p < c ∧ s.out p < kMaxConsumers - 1 ∧ Q () (s.link p c)
  | .write i f, Q, s => s.Has i ∧ (∀ t, s.task i = some t → adm (f t)) ∧ Q () (s.write i f)
  | .slotAlloc n, Q, s => Meets excused (s.mem.slotAlloc n) fun r => Q r.2 (s.withMem r.1)
  | .alloc bytes align, Q, s =>
      Meets excused (s.mem.alloc bytes align) fun r => Q r.2 (s.withMem r.1)
  | .die msg, _, _ => excused msg

theorem spec_mono (adm : TaskParams → Prop) (excused : String → Prop) :
    CmdProg.SpecMono (spec adm excused) := by
  intro c Q Q' s hQ h
  cases c with
  | add t => exact ⟨h.1, fun id hid => hQ _ _ (h.2 id hid)⟩
  | depEdge p c => exact ⟨h.1, h.2.1, h.2.2.1, hQ _ _ h.2.2.2⟩
  | edge p c => exact ⟨h.1, h.2.1, h.2.2.1, h.2.2.2.1, hQ _ _ h.2.2.2.2⟩
  | write i f => exact ⟨h.1, h.2.1, hQ _ _ h.2.2⟩
  | slotAlloc n => exact Meets.mono h fun r hr => hQ _ _ hr
  | alloc bytes align => exact Meets.mono h fun r hr => hQ _ _ hr
  | die msg => exact h

/-! ## Simp set -/

section
variable (s : Plan) (i id p q c : ℕ) (t : TaskParams) (f : TaskParams → TaskParams)
  (mem : DecoderMem)

@[simp] theorem has_create : ¬ (create mem).Has i := by simp [Has, create]
@[simp] theorem next_create : (create mem).next = 0 := rfl
@[simp] theorem deps_create : (create mem).deps = [] := rfl

@[simp] theorem has_add : (s.add id t).Has i ↔ i = id ∨ s.Has i := by
  by_cases h : i = id
  · subst h; simp [Has, add]
  · simp [Has, add, h]

@[simp] theorem next_add : (s.add id t).next = id + 1 := rfl
@[simp] theorem deps_add : (s.add id t).deps = s.deps := rfl

@[simp] theorem task_add : (s.add id t).task i = if i = id then some t else s.task i := by
  by_cases h : i = id
  · subst h; simp [add]
  · simp [add, h]

@[simp] theorem has_dep : (s.dep p c).Has i ↔ s.Has i := Iff.rfl
@[simp] theorem next_dep : (s.dep p c).next = s.next := rfl
@[simp] theorem task_dep : (s.dep p c).task i = s.task i := rfl
@[simp] theorem deps_dep : (s.dep p c).deps = s.deps ++ [(p, c)] := rfl

@[simp] theorem out_dep : (s.dep p c).out q = s.out q + if p = q then 1 else 0 := by
  by_cases h : p = q <;> simp [out, h]

@[simp] theorem has_link : (s.link p c).Has i ↔ s.Has i := Iff.rfl
@[simp] theorem next_link : (s.link p c).next = s.next := rfl
@[simp] theorem task_link : (s.link p c).task i = s.task i := rfl
@[simp] theorem deps_link : (s.link p c).deps = s.deps ++ [(p, c)] := rfl

@[simp] theorem out_link : (s.link p c).out q = s.out q + if p = q then 1 else 0 :=
  out_dep s p q c

@[simp] theorem has_write : (s.write p f).Has i ↔ s.Has i := by
  by_cases h : i = p
  · subst h; simp [Has, write]
  · simp [Has, write, h]

@[simp] theorem next_write : (s.write p f).next = s.next := rfl
@[simp] theorem deps_write : (s.write p f).deps = s.deps := rfl

@[simp] theorem task_write :
    (s.write p f).task i = if i = p then (s.task p).map f else s.task i := by
  by_cases h : i = p
  · subst h; simp [write]
  · simp [write, h]

@[simp] theorem has_withMem : (s.withMem mem).Has i ↔ s.Has i := Iff.rfl
@[simp] theorem next_withMem : (s.withMem mem).next = s.next := rfl
@[simp] theorem task_withMem : (s.withMem mem).task i = s.task i := rfl
@[simp] theorem deps_withMem : (s.withMem mem).deps = s.deps := rfl

theorem out_add : (s.add id t).out p = s.out p := rfl
theorem out_write : (s.write i f).out p = s.out p := rfl

end

theorem out_eq_zero {s : Plan} {p : ℕ} : s.out p = 0 ↔ ∀ c, (p, c) ∉ s.deps := by
  rw [out, List.countP_eq_zero]
  constructor
  · intro h c hc
    exact h (p, c) hc (by simp)
  · intro h e he hep
    have hfst : e.1 = p := by simpa using hep
    exact h e.2 (by rw [← hfst]; exact he)

end Plan
end FastLlm
