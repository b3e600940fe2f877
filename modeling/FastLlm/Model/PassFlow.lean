import Mathlib
import FastLlm.Lib.TaskTriple
import FastLlm.Model.OpBuffers
import FastLlm.Model.PlanGrowth

/-!
# Tasks of a plan in memory

The tasks the builder asks for, with their programs, over the memory of the arena.  What the builder
gets of the arena is handed out for writing; the slots of the region that it has not taken are not.
The mapped model file and the positions are never written.

## Main definitions

* `Plan.effect` — what a command does to the plan when it is in order.
* `Plan.flow` — the tasks of a plan with their programs.
* `Setting`, `Setting.model` — what a graph is built in, and the tasks of its plans.
-/

namespace FastLlm
open Assn Build
open TaskModel (Triple)

/-! ## What is handed out -/

/-- Word `l` lies in a block of the arena. -/
def Arena.InBlock (a : Arena) (l : Loc) : Prop :=
  l.obj ≠ 0 ∧ ∃ b, a.blocks[l.obj - 1]? = some b ∧ 4 * l.off + 4 ≤ b.2.toNat

theorem Arena.InBlock.append {a a' : Arena} {l : Loc} (h : a.InBlock l)
    (ha : a.blocks <+: a'.blocks) : a'.InBlock l := by
  obtain ⟨hobj, b, hb, hl⟩ := h
  refine ⟨hobj, b, ?_, hl⟩
  obtain ⟨bs, hbs⟩ := ha
  rw [← hbs, List.getElem?_append_left (List.getElem?_eq_some_iff.mp hb).1]
  exact hb

/-- The words of the blocks that tasks may write: not the positions, and not the slots that nobody
has taken. -/
def DecoderMem.heap (mem : DecoderMem) (pos : Loc) : Set Loc :=
  {l | mem.arena.InBlock l ∧ l.obj ≠ pos.obj ∧
    (l.obj = mem.slots.obj → l.off < mem.slots.off + mem.slotsUsed.toNat)}

/-- The mapped model file and the positions. -/
def constAt (pos : Loc) : Set Loc := {l | l.obj = 0 ∨ l.obj = pos.obj}

theorem DecoderMem.heap_disjoint (mem : DecoderMem) (pos : Loc) :
    Disjoint (mem.heap pos) (constAt pos) := by
  rw [Set.disjoint_left]
  rintro l ⟨⟨hobj, -⟩, hpos, -⟩ (h | h)
  · exact hobj h
  · exact hpos h

/-! ## Plans -/

namespace Plan

/-- The plan after a command that is in order. -/
def effect : (c : Cmd) → (c.Res → Plan → Prop) → Plan → Prop
  | .add t, Q, s => ∀ id, s.next ≤ id → Q id (s.add id t)
  | .depEdge p c, Q, s => p < c → Q () (s.dep p c)
  | .edge p c, Q, s => p < c → Q () (s.link p c)
  | .write i f, Q, s => Q () (s.write i f)
  | .slotAlloc n, Q, s => ∀ r, s.mem.slotAlloc n = .ok r → Q r.2 (s.withMem r.1)
  | .alloc bytes align, Q, s => ∀ r, s.mem.alloc bytes align = .ok r → Q r.2 (s.withMem r.1)
  | .die _, _, _ => True

theorem effect_mono : CmdProg.SpecMono effect := by
  intro c Q Q' s hQ h
  cases c with
  | add t => exact fun id hid => hQ _ _ (h id hid)
  | depEdge p c => exact fun hlt => hQ _ _ (h hlt)
  | edge p c => exact fun hlt => hQ _ _ (h hlt)
  | write i f => exact hQ _ _ h
  | slotAlloc n => exact fun r hr => hQ _ _ (h r hr)
  | alloc bytes align => exact fun r hr => hQ _ _ (h r hr)
  | die msg => trivial

/-- A run that is in order has the effect of its commands. -/
theorem spec_and_effect {adm : TaskParams → Prop} {excused : String → Prop} {α : Type}
    {x : Build α} {Q Q' : α → Plan → Prop} {s : Plan}
    (h : CmdProg.wp (spec adm excused) x Q s) (h' : CmdProg.wp effect x Q' s) :
    CmdProg.wp (spec adm excused) x (fun a s => Q a s ∧ Q' a s) s := by
  have hmeets {β : Type} {x : Except String β} {P P' : β → Prop} (h : Meets excused x P)
      (h' : ∀ b, x = .ok b → P' b) : Meets excused x fun b => P b ∧ P' b := by
    cases x with
    | error e => exact h
    | ok b => exact ⟨h, h' b rfl⟩
  refine CmdProg.wp_and (spec_mono adm excused) (fun c Q Q' s h h' => ?_) h h'
  cases c with
  | add t => exact ⟨h.1, fun id hid => ⟨h.2 id hid, h' id hid⟩⟩
  | depEdge p c => exact ⟨h.1, h.2.1, h.2.2.1, h.2.2.2, h' h.2.2.1⟩
  | edge p c => exact ⟨h.1, h.2.1, h.2.2.1, h.2.2.2.1, h.2.2.2.2, h' h.2.2.1⟩
  | write i f => exact ⟨h.1, h.2.1, h.2.2, h'⟩
  | slotAlloc n => exact hmeets h h'
  | alloc bytes align => exact hmeets h h'
  | die msg => exact h

/-- The tasks of a plan, run from the memory `μ`. -/
def flow (E : FloatOps) (pos : Loc) (μ : Loc → Word) (s : Plan) : TaskFlow Loc Word where
  next := s.next
  prog i := (s.task i).map (execTaskScalar E)
  dep := s.Dep
  init := μ
  heap := s.mem.heap pos
  const := constAt pos

end Plan

section
variable {E : FloatOps} {pos : Loc} {μ : Loc → Word} {s s' : Plan} {t : TaskParams}
  {deps : List ℕ} {id : ℕ}

theorem NewTask.adds (h : NewTask s s' t deps id) :
    (s.flow E pos μ).Adds (s'.flow E pos μ) (execTaskScalar E t) deps id where
  next_le := h.next_le
  next_eq := h.next_eq
  prog_eq := by
    change (fun i => (s'.task i).map _) = Function.update (fun i => (s.task i).map _) id _
    rw [h.task_eq]
    funext i
    by_cases hi : i = id
    · rw [hi, Function.update_self, Function.update_self]
      rfl
    · rw [Function.update_of_ne hi, Function.update_of_ne hi]
  dep_mono i j hd := (h.dep_iff i j).mpr (.inl hd)
  dep_new d hd := (h.dep_iff d id).mpr (.inr ⟨hd, rfl⟩)
  init_eq := rfl
  const_eq := rfl
  heap_eq := by
    change s'.mem.heap pos = s.mem.heap pos
    rw [h.mem_eq]

end

/-! ## The setting of a graph -/

/-- What a graph is built in: the operations, the decoder, its memory before, and the words the
memory has when the graph runs. -/
structure Setting where
  N : Numerics
  D : Decoder
  mem : DecoderMem
  μ : Loc → Word

namespace Setting
variable (S : Setting)

/-- The memory in front of the builder is that of the decoder, with more taken. -/
structure Grows (mem : DecoderMem) : Prop where
  slots : mem.slots = S.mem.slots
  total : mem.slotsFloats = S.mem.slotsFloats
  used : S.mem.slotsUsed.toNat ≤ mem.slotsUsed.toNat
  room : mem.slotsUsed.toNat ≤ S.mem.slotsFloats.toNat
  blocks : S.mem.arena.blocks <+: mem.arena.blocks

/-- The tasks of the plans of a graph. -/
def model : TaskModel Cmd Cmd.Res Plan Loc Word where
  spec := Plan.effect
  mono := Plan.effect_mono
  flow s := s.flow S.N.E S.D.pos S.μ
  inv s := (s.flow S.N.E S.D.pos S.μ).Sound ∧ S.Grows s.mem ∧ ∀ p c, s.Dep p c → p < c
  sound _ h := h.1

/-- What the builder finds: slots inside a block, all zero from the first one it may take, the words
of the model file, and positions outside the file. -/
structure Laid : Prop where
  slots : ∃ b, S.mem.slots.obj ≠ 0 ∧ S.mem.arena.blocks[S.mem.slots.obj - 1]? = some b ∧
    4 * (S.mem.slots.off + S.mem.slotsFloats.toNat) ≤ b.2.toNat
  slots_pos : S.mem.slots.obj ≠ S.D.pos.obj
  pos_le : S.D.pos.obj ≤ S.mem.arena.blocks.length
  zero : ∀ l, l.obj = S.mem.slots.obj → S.mem.slots.off + S.mem.slotsUsed.toNat ≤ l.off → S.μ l = 0
  file : ∀ l, l.obj = 0 → S.μ l = S.N.file l

end Setting

/-! ## New tasks -/

variable {S : Setting} {s s' : Plan} {t : TaskParams} {deps : List ℕ} {id n m : ℕ}
  {P X K : Assn Loc Word} {P' Y : ℕ → Assn Loc Word} {α β : Type}

/-- `add` and the dependencies of the task. -/
def addWith (t : TaskParams) (deps : List ℕ) : Build ℕ := do
  let id ← add t
  dependOn id deps
  pure id

/-- A task is added, and then its dependencies, one by one. -/
theorem effect_newTask {f : ℕ → Build Unit} (hid : s.next ≤ id)
    (hf : ∀ d s1, CmdProg.wp Plan.effect (f d) (fun _ s2 => d < id ∧ s2.next = s1.next ∧
      s2.task = s1.task ∧ s2.deps = s1.deps ++ [(d, id)] ∧ s2.mem = s1.mem) s1) :
    CmdProg.wp Plan.effect (deps.forM f)
      (fun _ s' => NewTask s s' t deps id ∧ ∀ d ∈ deps, d < id) (s.add id t) := by
  apply CmdProg.wp_forM Plan.effect_mono
    fun done s' => NewTask s s' t done id ∧ ∀ d ∈ done, d < id
  · exact ⟨⟨hid, rfl, rfl, by simp [Plan.add], rfl⟩, by simp⟩
  · intro done d rest s1 _ h
    obtain ⟨h1, hdone⟩ := h
    apply CmdProg.wp_mono Plan.effect_mono (hf d s1)
    rintro _ s2 ⟨hlt, hnext, htask, hdeps, hmem⟩
    refine ⟨⟨h1.next_le, hnext.trans h1.next_eq, htask.trans h1.task_eq, ?_,
      hmem.trans h1.mem_eq⟩, ?_⟩
    · rw [hdeps, h1.deps_eq]
      simp
    · intro e he
      rcases List.mem_append.mp he with he | he
      · exact hdone e he
      · exact List.mem_singleton.mp he ▸ hlt

theorem effect_addWith (t : TaskParams) (deps : List ℕ) (s : Plan) :
    CmdProg.wp Plan.effect (addWith t deps)
      (fun id s' => NewTask s s' t deps id ∧ ∀ d ∈ deps, d < id) s := by
  intro id hid
  change CmdProg.wp Plan.effect (dependOn id deps >>= fun _ => pure id) _ _
  rw [CmdProg.wp_bind]
  exact effect_newTask (f := fun d => depEdge d id) hid fun d s1 hlt => ⟨hlt, rfl, rfl, rfl, rfl⟩

/-- **A new task.** -/
theorem triple_newTask {x : Build ℕ}
    (hx : ∀ s, CmdProg.wp Plan.effect x
      (fun id s' => NewTask s s' t deps id ∧ ∀ d ∈ deps, d < id) s)
    (hread : P.Reads deps P') (hown : X.Owns deps)
    (hp : Performs (constAt S.D.pos) S.μ (execTaskScalar S.N.E t) P X Y) :
    S.model.Triple (P + X) x fun id => P' id + Y id := by
  rintro s _ ⟨hF, hg, hlt⟩ hheap ⟨A, B, hAB, rfl, hP, hX⟩
  apply CmdProg.wp_mono Plan.effect_mono (hx s)
  rintro id s' ⟨hnew, hdeps⟩
  have hadd : (S.model.flow s).Adds (S.model.flow s') (execTaskScalar S.N.E t) deps id := hnew.adds
  obtain ⟨hF', ⟨C, hC, hhold⟩, htouch⟩ := hadd.step hF hread hown hAB hheap hP hX hp
  have hlt' (p c : ℕ) (hp : s'.Dep p c) : p < c := by
    rcases (hnew.dep_iff p c).mp hp with hp | ⟨hp, rfl⟩
    · exact hlt p c hp
    · exact hdeps p hp
  refine ⟨⟨⟨hF', hnew.mem_eq ▸ hg, hlt'⟩, hadd.continues, fun i hi l hl => ?_⟩, C,
    hC.trans Set.subset_union_left, hhold⟩
  exact (htouch i hi l hl).imp_left .inl

theorem triple_addWith (hread : P.Reads deps P') (hown : X.Owns deps)
    (hp : Performs (constAt S.D.pos) S.μ (execTaskScalar S.N.E t) P X Y) :
    S.model.Triple (P + X) (addWith t deps) fun id => P' id + Y id :=
  triple_newTask (effect_addWith t deps) hread hown hp

/-- A signal is over when what it waits for is. -/
theorem triple_fanIn (hread : P.Reads deps P') : S.model.Triple P (fanIn deps) P' := by
  have h : S.model.Triple (P + 0) (fanIn deps) fun id => P' id + 0 :=
    triple_addWith (t := rawSignal) hread owns_zero performs_pure
  simpa using h

/-! ## Memory -/

/-- The builder takes more. -/
theorem within_withMem {mem : DecoderMem} {A : Set Loc} (hs : S.model.inv s)
    (hg : S.Grows mem) (hheap : s.mem.heap S.D.pos ⊆ mem.heap S.D.pos) :
    S.model.Within A s (s.withMem mem) := by
  have hcont : (S.model.flow s).Continues (S.model.flow (s.withMem mem)) :=
    ⟨le_rfl, fun _ _ => rfl, fun _ _ h => h, rfl, rfl, hheap⟩
  refine ⟨⟨?_, hg, hs.2.2⟩, hcont, fun i hi l hl => ?_⟩
  · exact ⟨hs.1.has_lt, fun i => (hs.1.reads i).trans (Set.union_subset_union_left _ hheap),
      fun i => (hs.1.writes i).trans hheap, mem.heap_disjoint S.D.pos, hs.1.ordered⟩
  · exact absurd (hs.1.has_lt i hl.has) (Nat.not_lt.mpr hi)

/-- What was handed out is as it was. -/
theorem holds_new {mem : DecoderMem} {x : Loc} {n : ℕ} (hs : S.model.inv s)
    (hno : ∀ i < n, x.add i ∉ s.mem.heap S.D.pos ∧ x.add i ∉ constAt S.D.pos) :
    (idle [] x (x.contents n S.μ)).holds (S.model.flow (s.withMem mem)) (x.span n) := by
  have hold : (idle [] x (x.contents n S.μ)).holds (S.model.flow s) (x.span n) := by
    rw [idle, Loc.length_contents, owned_congr fun l hl => Loc.fill_contents hl]
    refine holds_owned_init hs.1 ?_
    rintro _ ⟨i, hi, rfl⟩
    exact fun h => h.elim (hno i hi).1 (hno i hi).2
  exact hold

/-- A block of its own. -/
theorem triple_alloc (hL : S.Laid) (bytes align : UInt64) :
    S.model.Triple 0 (alloc bytes align) fun x =>
      idle [] x (x.contents (bytes.toNat / 4) S.μ) := by
  intro s A hs _ _
  rintro ⟨mem, x⟩ halloc
  obtain ⟨⟨arena, y⟩, ha, hret⟩ := GraphImpl.bind_ok.mp halloc
  cases hret
  rw [Arena.alloc] at ha
  split_ifs at ha
  cases ha
  set k := s.mem.arena.blocks.length with hk
  have hblock : (s.mem.arena.blocks ++ [(s.mem.arena.bump align, bytes)])[k]? =
      some (s.mem.arena.bump align, bytes) := List.getElem?_concat_length
  have hgrow (l : Loc) (h : s.mem.arena.InBlock l) : l.obj - 1 < k := by
    obtain ⟨-, b, hb, -⟩ := h
    exact (List.getElem?_eq_some_iff.mp hb).1
  have hlen := hs.2.1.blocks.length_le
  have hg : S.Grows { s.mem with arena := { s.mem.arena with
      used := s.mem.arena.bump align + bytes
      blocks := s.mem.arena.blocks ++ [(s.mem.arena.bump align, bytes)] } } :=
    ⟨hs.2.1.slots, hs.2.1.total, hs.2.1.used, hs.2.1.room,
      hs.2.1.blocks.trans (List.prefix_append _ _)⟩
  have hnew (i : ℕ) : (⟨k + 1, 0⟩ : Loc).add i ∉ s.mem.heap S.D.pos := by
    intro h
    exact absurd (hgrow _ h.1) (by simp)
  refine ⟨within_withMem hs hg ?_, _, ?_, holds_new hs fun i _ => ⟨hnew i, ?_⟩⟩
  · rintro l ⟨hin, hpos, hslot⟩
    exact ⟨hin.append (List.prefix_append _ _), hpos, hslot⟩
  · rintro _ ⟨i, hi, rfl⟩
    refine .inr ⟨⟨⟨Nat.succ_ne_zero k, _, hblock, ?_⟩, ?_, fun hobj => ?_⟩, hnew i⟩
    · simp only [Loc.off_add]
      omega
    · have := hL.pos_le
      simp only [Loc.obj_add]
      omega
    · obtain ⟨b, -, hb, -⟩ := hL.slots
      have := (List.getElem?_eq_some_iff.mp hb).1
      change k + 1 = s.mem.slots.obj at hobj
      rw [hs.2.1.slots] at hobj
      omega
  · have := hL.pos_le
    rintro (h | h)
    · exact absurd h (Nat.succ_ne_zero k)
    · simp only [Loc.obj_add] at h
      omega

/-- Fresh slots are zero. -/
theorem triple_slotAlloc (hL : S.Laid) (n : UInt32) :
    S.model.Triple 0 (slotAlloc n) fun x => idle [] x (List.replicate n.toNat 0) := by
  intro s A hs _ _
  rintro ⟨mem, x⟩ halloc
  change s.mem.slotAlloc n = _ at halloc
  obtain ⟨b, hobj, hb, hfit⟩ := hL.slots
  have hused : s.mem.slotsUsed.toNat ≤ S.mem.slotsFloats.toNat := hs.2.1.room
  have hblock := b.2.toNat_lt
  have hn := n.toNat_lt
  have hsum : (s.mem.slotsUsed + n.toUInt64).toNat = s.mem.slotsUsed.toNat + n.toNat := by
    rw [UInt64.toNat_add, UInt32.toNat_toUInt64, Nat.mod_eq_of_lt (by omega)]
  rw [DecoderMem.slotAlloc] at halloc
  split_ifs at halloc with hover
  cases halloc
  rw [hs.2.1.total, UInt64.lt_iff_toNat_lt, hsum] at hover
  have hg : S.Grows { s.mem with slotsUsed := s.mem.slotsUsed + n.toUInt64 } := by
    refine ⟨hs.2.1.slots, hs.2.1.total, ?_, ?_, hs.2.1.blocks⟩
    · have := hs.2.1.used
      simp only [hsum]
      omega
    · simp only [hsum]
      omega
  set x := s.mem.slots.add s.mem.slotsUsed.toNat with hx
  have hxobj (i : ℕ) : (x.add i).obj = S.mem.slots.obj := by simp [hx, hs.2.1.slots]
  have hxoff (i : ℕ) : (x.add i).off = S.mem.slots.off + s.mem.slotsUsed.toNat + i := by
    simp [hx, hs.2.1.slots, Nat.add_assoc]
  have hnew (i : ℕ) : x.add i ∉ s.mem.heap S.D.pos := by
    rintro ⟨-, -, h⟩
    have := h (by rw [hxobj, hs.2.1.slots])
    rw [hxoff, hs.2.1.slots] at this
    omega
  have hzero : x.contents n.toNat S.μ = List.replicate n.toNat 0 := by
    have hrep := @Loc.contents_eq x (List.replicate n.toNat (0 : Word)) S.μ
    rw [List.length_replicate] at hrep
    refine hrep fun i hi => ?_
    have hle : S.mem.slots.off + S.mem.slotsUsed.toNat ≤ (x.add i).off := by
      have := hs.2.1.used
      rw [hxoff]
      omega
    rw [hL.zero _ (hxobj i) hle]
    simp [hi]
  rw [← hzero]
  refine ⟨within_withMem hs hg ?_, _, ?_, holds_new hs fun i _ => ⟨hnew i, ?_⟩⟩
  · rintro l ⟨hin, hpos, hslot⟩
    refine ⟨hin, hpos, fun h => (hslot h).trans_le ?_⟩
    simp only [hsum]
    omega
  · rintro _ ⟨i, hi, rfl⟩
    refine .inr ⟨⟨⟨by rwa [hxobj], b, ?_, ?_⟩, by rw [hxobj]; exact hL.slots_pos, fun _ => ?_⟩,
      hnew i⟩
    · rw [hxobj]
      obtain ⟨rest, hrest⟩ := hs.2.1.blocks
      change s.mem.arena.blocks[_]? = _
      rw [← hrest, List.getElem?_append_left (List.getElem?_eq_some_iff.mp hb).1, hb]
    · rw [hxoff]
      omega
    · rw [hxoff]
      change _ < s.mem.slots.off + (s.mem.slotsUsed + n.toUInt64).toNat
      rw [hsum, hs.2.1.slots]
      omega
  · rintro (h | h)
    · exact hobj (by rwa [hxobj] at h)
    · exact hL.slots_pos (by rwa [hxobj] at h)

/-- A block for parameters, which no task touches. -/
theorem triple_auxAlloc (hL : S.Laid) (a : Aux) {f : Option Aux → Build β} {Q : β → Assn Loc Word}
    (hf : S.model.Triple P (f (some a)) Q) : S.model.Triple P (auxAlloc a >>= f) Q := by
  rw [auxAlloc, bind_assoc]
  refine (triple_alloc hL (auxBytes a) 64).seq (K := P) (by rw [zero_add]) fun x => ?_
  exact hf.pre (add_le_right _ _)

/-- A build dies of a missing tensor. -/
theorem triple_tensor {D : Decoder} {name : TensorName} {f : WTensor → Build β}
    {Q : β → Assn Loc Word} (h : ∀ w, D.weights name = some w → S.model.Triple P (f w) Q) :
    S.model.Triple P (tensor D name >>= f) Q := by
  rw [tensor]
  cases hw : D.weights name with
  | none => exact fun _ _ _ _ _ => trivial
  | some w => exact h w hw

/-- A loop over the positions with a result for each. -/
theorem triple_positions [Inhabited α] {f : ℕ → Build α} {P : ℕ → Assn Loc Word}
    {Q : ℕ → α → Assn Loc Word}
    (h : ∀ p < m, S.model.Triple (P p + K) (f p) fun a => Q p a + K) :
    S.model.Triple (∑ p ∈ Finset.range m, P p + K) (positions m f) fun r =>
      ∑ p ∈ Finset.range m, Q p (r p) + K := by
  exact Triple.mapM_bind h fun _ _ => .pure le_rfl

end FastLlm
