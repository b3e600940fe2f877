import FastLlm.Model.Spans
import FastLlm.Model.Tiles

/-!
# A growing plan

A piece of the builder adds tasks behind those there are, and makes only its own tasks wait.  So
what comes before a task is settled once the piece that adds it is through: among the tasks before
it, the quantizations of the columns that a tile reads.

## Main definitions

* `TaskParams.Quantizes`, `TaskParams.IsQuantDot` — a task that writes the appendices of a column,
  and a tile that may read them.
* `Plan.Ext` — a plan continued by later tasks.
* `Plan.Behind`, `Plan.Supplies`, `Plan.NoQuant` — quantizations before a task.
* `Grown` — a plan continued by tiles that come behind their quantizations iff `c`.
* `Yields` — what a run of a piece leaves, whatever its tasks are and however it fails.
* `yields_addDot`, `yields_stageDot`, … — the helpers of the builder.
-/

namespace FastLlm
open Relation

namespace TaskParams

/-- The task quantizes the column of `n` floats at `x` into the appendices behind it. -/
structure Quantizes (t : TaskParams) (x : Loc) (n : ℕ) : Prop where
  kind : t.kind = .ACT_Q8
  x_eq : t.x = x
  y_eq : t.y = x.add (xqOf n / 4)
  rows : t.rows = n / 32
  cols : t.cols = n

/-- A tile of a quantized matrix. -/
def IsQuantDot (t : TaskParams) : Prop := t.IsDot ∧ t.fmt ≠ .F32

end TaskParams

theorem actQ8_quantizes (x : Loc) (n : UInt32) : (actQ8 x n).Quantizes x n.toNat :=
  ⟨rfl, rfl, rfl, rfl, rfl⟩

/-! ## Later tasks -/

namespace Plan

/-- `c` waits for `p`. -/
def Dep (s : Plan) (p c : ℕ) : Prop := (p, c) ∈ s.deps

/-- The number of blocks of the arena. -/
def blocks (s : Plan) : ℕ := s.mem.arena.blocks.length

/-- Dependencies lead to later tasks, and what is quantized lies in the arena. -/
structure Tidy (s : Plan) : Prop where
  has_lt : ∀ i, s.Has i → i < s.next
  dep : ∀ p c, s.Dep p c → s.Has p ∧ s.Has c ∧ p < c
  quant : ∀ q t, s.task q = some t → t.kind = .ACT_Q8 → t.x.obj ≤ s.blocks

theorem Tidy.create (mem : DecoderMem) : (create mem).Tidy where
  has_lt i hi := absurd hi (by simp)
  dep p c h := absurd h List.not_mem_nil
  quant q t h := absurd h (by simp [Plan.create])

theorem has_of_task {s : Plan} {i : ℕ} {t : TaskParams} (h : s.task i = some t) : s.Has i := by
  rw [Has, h]
  rfl

/-- Task `i` was asked for with a record in `T`. -/
def At (s : Plan) (i : ℕ) (T : TaskParams → Prop) : Prop := ∃ t, s.task i = some t ∧ T t

theorem At.has {s : Plan} {i : ℕ} {T : TaskParams → Prop} (h : s.At i T) : s.Has i := by
  obtain ⟨t, ht, -⟩ := h
  exact has_of_task ht

/-- `s'` continues `s` by later tasks; what the tasks of `s` wait for stays as it is. -/
structure Ext (s s' : Plan) : Prop where
  old : s.Tidy
  new : s'.Tidy
  next_le : s.next ≤ s'.next
  blocks_le : s.blocks ≤ s'.blocks
  task_eq : ∀ i < s.next, s'.task i = s.task i
  dep_iff : ∀ p, ∀ c < s.next, s'.Dep p c ↔ s.Dep p c

namespace Ext
variable {s s1 s2 : Plan}

theorem refl (hs : s.Tidy) : Ext s s :=
  ⟨hs, hs, le_rfl, le_rfl, fun _ _ => rfl, fun _ _ _ => Iff.rfl⟩

theorem trans (h : Ext s s1) (h' : Ext s1 s2) : Ext s s2 where
  old := h.old
  new := h'.new
  next_le := h.next_le.trans h'.next_le
  blocks_le := h.blocks_le.trans h'.blocks_le
  task_eq i hi := (h'.task_eq i (hi.trans_le h.next_le)).trans (h.task_eq i hi)
  dep_iff p c hc := (h'.dep_iff p c (hc.trans_le h.next_le)).trans (h.dep_iff p c hc)

theorem task_of (h : Ext s s1) {i : ℕ} {t : TaskParams} (ht : s.task i = some t) :
    s1.task i = some t :=
  (h.task_eq i (h.old.has_lt i (has_of_task ht))).trans ht

theorem has (h : Ext s s1) {i : ℕ} (hi : s.Has i) : s1.Has i := by
  rw [Has, h.task_eq i (h.old.has_lt i hi)]
  exact hi

theorem at_of (h : Ext s s1) {i : ℕ} {T : TaskParams → Prop} (hi : s.At i T) : s1.At i T := by
  obtain ⟨t, ht, hT⟩ := hi
  exact ⟨t, h.task_of ht, hT⟩

/-- What comes before a task of the old plan. -/
theorem path_iff (h : Ext s s1) {q i : ℕ} (hi : i < s.next) :
    TransGen s1.Dep q i ↔ TransGen s.Dep q i := by
  constructor
  · intro hp
    induction hp with
    | single he => exact .single ((h.dep_iff _ _ hi).mp he)
    | tail _ he ih =>
      -- the task before the last one is an old one too
      have hlt := (h.new.dep _ _ he).2.2
      exact (ih (hlt.trans hi)).tail ((h.dep_iff _ _ hi).mp he)
  · intro hp
    induction hp with
    | single he => exact .single ((h.dep_iff _ _ hi).mpr he)
    | tail _ he ih =>
      have hlt := (h.old.dep _ _ he).2.2
      exact (ih (hlt.trans hi)).tail ((h.dep_iff _ _ hi).mpr he)

theorem reflPath_iff (h : Ext s s1) {q i : ℕ} (hi : i < s.next) :
    ReflTransGen s1.Dep q i ↔ ReflTransGen s.Dep q i := by
  rw [reflTransGen_iff_eq_or_transGen, reflTransGen_iff_eq_or_transGen, h.path_iff hi]

end Ext

/-- A path leads to a later task. -/
theorem Tidy.path_lt {s : Plan} (h : s.Tidy) {q i : ℕ} (hp : TransGen s.Dep q i) : q < i := by
  induction hp with
  | single he => exact (h.dep _ _ he).2.2
  | tail _ he ih => exact ih.trans (h.dep _ _ he).2.2

theorem Tidy.reflPath_le {s : Plan} (h : s.Tidy) {q i : ℕ} (hp : ReflTransGen s.Dep q i) :
    q ≤ i := by
  rcases reflTransGen_iff_eq_or_transGen.mp hp with rfl | hp
  · exact le_rfl
  · exact (h.path_lt hp).le

/-! ## Quantizations before a task -/

/-- Each column that `t` reads is quantized before task `i`. -/
def Behind (s : Plan) (i : ℕ) (t : TaskParams) : Prop :=
  ∀ k < t.columns, ∃ q, s.At q (·.Quantizes (t.inCol k) t.cols) ∧ TransGen s.Dep q i

/-- The column of `n` floats at `x` is quantized by one of `deps` or before it. -/
def Supplies (s : Plan) (deps : List ℕ) (x : Loc) (n : ℕ) : Prop :=
  ∃ q, s.At q (·.Quantizes x n) ∧ ∃ d ∈ deps, ReflTransGen s.Dep q d

/-- Neither task `i` nor one before it quantizes in block `o`. -/
def NoQuant (s : Plan) (o i : ℕ) : Prop :=
  ∀ q t, s.task q = some t → t.kind = .ACT_Q8 → t.x.obj = o → ¬ ReflTransGen s.Dep q i

theorem At.supplies {s : Plan} {deps : List ℕ} {d : ℕ} {x : Loc} {n : ℕ}
    (h : s.At d (·.Quantizes x n)) (hd : d ∈ deps) : s.Supplies deps x n :=
  ⟨d, h, d, hd, .refl⟩

namespace Ext
variable {s s1 : Plan} (h : Ext s s1)
include h

theorem behind_iff {i : ℕ} (hi : i < s.next) (t : TaskParams) : s1.Behind i t ↔ s.Behind i t := by
  refine forall₂_congr fun k _ => exists_congr fun q => ?_
  rw [h.path_iff hi]
  refine and_congr_left fun hp => ?_
  rw [At, At, h.task_eq q ((h.old.path_lt hp).trans hi)]

theorem supplies_iff {deps : List ℕ} (hdeps : ∀ d ∈ deps, s.Has d) (x : Loc) (n : ℕ) :
    s1.Supplies deps x n ↔ s.Supplies deps x n := by
  refine exists_congr fun q => ?_
  have hpath : (∃ d ∈ deps, ReflTransGen s1.Dep q d) ↔ ∃ d ∈ deps, ReflTransGen s.Dep q d :=
    exists_congr fun d => and_congr_right fun hd =>
      h.reflPath_iff (h.old.has_lt d (hdeps d hd))
  rw [hpath]
  refine and_congr_left fun ⟨d, hd, hp⟩ => ?_
  rw [At, At, h.task_eq q ((h.old.reflPath_le hp).trans_lt (h.old.has_lt d (hdeps d hd)))]

theorem noQuant {o i : ℕ} (hi : s.Has i) (hno : s.NoQuant o i) : s1.NoQuant o i := by
  intro q t ht hk hx hp
  have hlt := h.old.has_lt i hi
  rw [h.reflPath_iff hlt] at hp
  have hq := (h.old.reflPath_le hp).trans_lt hlt
  exact hno q t ((h.task_eq q hq).symm.trans ht) hk hx hp

end Ext
end Plan

open Plan

/-! ## A new task -/

/-- `id` is the next task, with record `t` and the dependencies `deps`. -/
structure NewTask (s s' : Plan) (t : TaskParams) (deps : List ℕ) (id : ℕ) : Prop where
  next_le : s.next ≤ id
  next_eq : s'.next = id + 1
  task_eq : s'.task = Function.update s.task id (some t)
  deps_eq : s'.deps = s.deps ++ deps.map fun d => (d, id)
  mem_eq : s'.mem = s.mem

/-- `s'` continues `s` by tiles that are all behind the quantizations of their columns iff `c`; what
else is quantized lies in the blocks `X`. -/
structure Grown (X : Set ℕ) (c : Prop) (s s' : Plan) : Prop extends Ext s s' where
  quants : ∀ q t, s.next ≤ q → s'.task q = some t → t.kind = .ACT_Q8 → t.x.obj ∈ X
  behind : (∀ i t, s.next ≤ i → s'.task i = some t → t.IsQuantDot → s'.Behind i t) ↔ c

namespace Grown
variable {X : Set ℕ} {c d : Prop} {s s1 s2 : Plan}

theorem refl (hs : s.Tidy) : Grown X True s s where
  toExt := .refl hs
  quants q t hq ht := absurd (hs.has_lt q (has_of_task ht)) (Nat.not_lt.mpr hq)
  behind := iff_true_intro fun i t hi ht =>
    absurd (hs.has_lt i (has_of_task ht)) (Nat.not_lt.mpr hi)

theorem trans (h : Grown X c s s1) (h' : Grown X d s1 s2) : Grown X (c ∧ d) s s2 where
  toExt := h.toExt.trans h'.toExt
  quants q t hq ht hk := by
    by_cases hlt : q < s1.next
    · exact h.quants q t hq ((h'.task_eq q hlt).symm.trans ht) hk
    · exact h'.quants q t (Nat.not_lt.mp hlt) ht hk
  behind := by
    rw [← h.behind, ← h'.behind]
    constructor
    · intro hall
      refine ⟨fun i t hi ht hdot => ?_, fun i t hi ht hdot => hall i t (h.next_le.trans hi) ht hdot⟩
      have hlt := h.new.has_lt i (has_of_task ht)
      exact (h'.behind_iff hlt t).mp (hall i t hi (h'.task_of ht) hdot)
    · rintro ⟨hold, hnew⟩ i t hi ht hdot
      by_cases hlt : i < s1.next
      · exact (h'.behind_iff hlt t).mpr (hold i t hi ((h'.task_eq i hlt).symm.trans ht) hdot)
      · exact hnew i t (Nat.not_lt.mp hlt) ht hdot

theorem congr (h : Grown X c s s1) (hcd : c ↔ d) : Grown X d s s1 :=
  { h with behind := h.behind.trans hcd }

theorem mono {X' : Set ℕ} (h : Grown X c s s1) (hX : X ⊆ X') : Grown X' c s s1 :=
  { h with quants := fun q t hq ht hk => hX (h.quants q t hq ht hk) }

/-- A piece without tiles in front. -/
theorem skip (h : Grown X True s s1) (h' : Grown X c s1 s2) : Grown X c s s2 :=
  (h.trans h').congr (and_iff_right trivial)

/-- A piece without tiles behind. -/
theorem last (h : Grown X c s s1) (h' : Grown X True s1 s2) : Grown X c s s2 :=
  (h.trans h').congr (and_iff_left trivial)

end Grown

namespace NewTask
variable {s s' : Plan} {t : TaskParams} {deps : List ℕ} {id : ℕ}

theorem dep_iff (h : NewTask s s' t deps id) (p c : ℕ) :
    s'.Dep p c ↔ s.Dep p c ∨ p ∈ deps ∧ c = id := by
  rw [Plan.Dep, Plan.Dep, h.deps_eq, List.mem_append]
  simp [eq_comm]

theorem task_iff (h : NewTask s s' t deps id) (i : ℕ) :
    s'.task i = if i = id then some t else s.task i := by
  rw [h.task_eq, Function.update_apply]

theorem task_self (h : NewTask s s' t deps id) : s'.task id = some t := by
  rw [h.task_iff, if_pos rfl]

section
variable (h : NewTask s s' t deps id) (hs : s.Tidy) (hdeps : ∀ d ∈ deps, s.Has d)
include h hs

theorem not_has : ¬ s.Has id := fun hid => absurd (hs.has_lt id hid) (Nat.not_lt.mpr h.next_le)

include hdeps

theorem ext (ht : t.kind = .ACT_Q8 → t.x.obj ≤ s.blocks) : Ext s s' where
  old := hs
  new := by
    have hblocks : s'.blocks = s.blocks := by rw [Plan.blocks, h.mem_eq]; rfl
    have hhas (i : ℕ) (hi : s.Has i) : s'.Has i := by
      rw [Plan.Has, h.task_iff]
      split
      · rfl
      · exact hi
    refine ⟨fun i hi => ?_, fun p c hpc => ?_, fun q u hu hk => ?_⟩
    · rw [h.next_eq]
      by_cases hid : i = id
      · omega
      · rw [Plan.Has, h.task_iff, if_neg hid] at hi
        have := hs.has_lt i hi
        have := h.next_le
        omega
    · rcases (h.dep_iff p c).mp hpc with hold | ⟨hp, rfl⟩
      · obtain ⟨h1, h2, h3⟩ := hs.dep p c hold
        exact ⟨hhas p h1, hhas c h2, h3⟩
      · have hlt := hs.has_lt p (hdeps p hp)
        exact ⟨hhas p (hdeps p hp), has_of_task (h.task_self), hlt.trans_le h.next_le⟩
    · rw [hblocks]
      rw [h.task_iff] at hu
      split at hu
      · cases hu
        exact ht hk
      · exact hs.quant q u hu hk
  next_le := by
    rw [h.next_eq]
    exact h.next_le.trans (Nat.le_succ id)
  blocks_le := by rw [Plan.blocks, Plan.blocks, h.mem_eq]
  task_eq i hi := by rw [h.task_iff, if_neg (hi.trans_le h.next_le).ne]
  dep_iff p c hc := by
    rw [h.dep_iff, or_iff_left]
    rintro ⟨-, rfl⟩
    exact absurd hc (Nat.not_lt.mpr h.next_le)

/-- What comes before the new task is one of its dependencies, or comes before one. -/
theorem path_iff (ht : t.kind = .ACT_Q8 → t.x.obj ≤ s.blocks) (q : ℕ) :
    TransGen s'.Dep q id ↔ ∃ d ∈ deps, ReflTransGen s.Dep q d := by
  have hext := h.ext hs hdeps ht
  rw [TransGen.tail'_iff]
  refine exists_congr fun d => ?_
  have hdep : s'.Dep d id ↔ d ∈ deps := by
    rw [h.dep_iff]
    constructor
    · rintro (hold | ⟨hd, -⟩)
      · exact absurd (hs.dep d id hold).2.1 (h.not_has hs)
      · exact hd
    · intro hd
      exact .inr ⟨hd, rfl⟩
  rw [hdep, and_comm]
  exact and_congr_right fun hd => hext.reflPath_iff (hs.has_lt d (hdeps d hd))

theorem grown {X : Set ℕ} (ht : t.kind = .ACT_Q8 → t.x.obj ∈ X ∧ t.x.obj ≤ s.blocks) :
    Grown X (t.IsQuantDot → ∀ k < t.columns, s.Supplies deps (t.inCol k) t.cols) s s' := by
  have hq (hk : t.kind = .ACT_Q8) := (ht hk).2
  have hext := h.ext hs hdeps hq
  -- the only new record
  have hnew (i : ℕ) (u : TaskParams) (hi : s.next ≤ i) (hu : s'.task i = some u) :
      i = id ∧ u = t := by
    rw [h.task_iff] at hu
    split at hu
    · next hid => exact ⟨hid, (Option.some.inj hu).symm⟩
    · exact absurd (hs.has_lt i (has_of_task hu)) (Nat.not_lt.mpr hi)
  refine ⟨hext, fun q u hqn hu hk => ?_, ?_⟩
  · obtain ⟨rfl, rfl⟩ := hnew q u hqn hu
    exact (ht hk).1
  · have hcols (hdot : t.IsQuantDot) : s'.Behind id t ↔
        ∀ k < t.columns, s.Supplies deps (t.inCol k) t.cols := by
      refine forall₂_congr fun k _ => exists_congr fun q => ?_
      rw [h.path_iff hs hdeps hq]
      refine and_congr_left fun ⟨d, hd, hp⟩ => ?_
      have hlt := (hs.reflPath_le hp).trans_lt (hs.has_lt d (hdeps d hd))
      rw [Plan.At, Plan.At, hext.task_eq q hlt]
    constructor
    · intro hall hdot
      exact (hcols hdot).mp (hall id t h.next_le h.task_self hdot)
    · intro hsup i u hi hu hdot
      obtain ⟨rfl, rfl⟩ := hnew i u hi hu
      exact (hcols hdot).mpr (hsup hdot)

/-- A task without a quantization before it. -/
theorem noQuant (hk : t.kind ≠ .ACT_Q8) {o : ℕ} (hno : ∀ d ∈ deps, s.NoQuant o d) :
    s'.NoQuant o id := by
  intro q u hu hku hx hp
  rcases reflTransGen_iff_eq_or_transGen.mp hp with rfl | hp
  · rw [h.task_self, Option.some.injEq] at hu
    exact hk (hu ▸ hku)
  · obtain ⟨d, hd, hpd⟩ := (h.path_iff hs hdeps (fun hk' => absurd hk' hk) q).mp hp
    have hlt := (hs.reflPath_le hpd).trans_lt (hs.has_lt d (hdeps d hd))
    rw [h.task_iff, if_neg (hlt.trans_le h.next_le).ne] at hu
    exact hno d hd q u hu hku hx hpd

/-- The new task has no consumer. -/
theorem unfed (c : ℕ) : ¬ s'.Dep id c := by
  rw [h.dep_iff]
  rintro (hold | ⟨hid, -⟩)
  · exact h.not_has hs (hs.dep id c hold).1
  · exact h.not_has hs (hdeps id hid)

end
end NewTask

/-! ## Runs -/

/-- Where a run of `x` from `s` does not fail it ends in `Q`; every request on the way has a
producer and a later consumer. -/
def Yields {α : Type} (x : Build α) (s : Plan) (Q : α → Plan → Prop) : Prop :=
  CmdProg.wp (Plan.spec (fun _ => True) fun _ => True) x Q s

namespace Yields
variable {α β : Type} {s : Plan}

theorem pure {a : α} {Q : α → Plan → Prop} (h : Q a s) : Yields (Pure.pure a) s Q := h

theorem mono {x : Build α} {Q Q' : α → Plan → Prop} (h : Yields x s Q)
    (hQ : ∀ a s', Q a s' → Q' a s') : Yields x s Q' :=
  CmdProg.wp_mono (Plan.spec_mono _ _) h hQ

theorem bind {x : Build α} {f : α → Build β} {P : α → Plan → Prop} {Q : β → Plan → Prop}
    (hx : Yields x s P) (hf : ∀ a s', P a s' → Yields (f a) s' Q) : Yields (x >>= f) s Q := by
  rw [Yields, CmdProg.wp_bind]
  exact mono hx hf

/-- A piece without tiles in front. -/
theorem skip {X : Set ℕ} {c : Prop} {x : Build α} {f : α → Build β} {V : α → Plan → Prop}
    {W : β → Plan → Prop} (hx : Yields x s fun a s1 => Grown X True s s1 ∧ V a s1)
    (hf : ∀ a s1, Ext s s1 → V a s1 → Yields (f a) s1 fun b s2 => Grown X c s1 s2 ∧ W b s2) :
    Yields (x >>= f) s fun b s2 => Grown X c s s2 ∧ W b s2 :=
  hx.bind fun a s1 h1 => (hf a s1 h1.1.toExt h1.2).mono fun _ _ h2 => ⟨h1.1.skip h2.1, h2.2⟩

/-- A piece without tiles behind. -/
theorem last {X : Set ℕ} {c : Prop} {x : Build α} {f : α → Build β} {V : α → Plan → Prop}
    {W : β → Plan → Prop} (hx : Yields x s fun a s1 => Grown X c s s1 ∧ V a s1)
    (hf : ∀ a s1, Ext s s1 → V a s1 → Yields (f a) s1 fun b s2 => Grown X True s1 s2 ∧ W b s2) :
    Yields (x >>= f) s fun b s2 => Grown X c s s2 ∧ W b s2 :=
  hx.bind fun a s1 h1 => (hf a s1 h1.1.toExt h1.2).mono fun _ _ h2 => ⟨h1.1.last h2.1, h2.2⟩

end Yields

open Build
variable {X : Set ℕ} {s : Plan}

/-! ## Memory and tensors -/

/-- Memory is not part of the requests. -/
theorem Grown.withMem (hs : s.Tidy) {mem : DecoderMem}
    (hle : s.blocks ≤ mem.arena.blocks.length) : Grown X True s (s.withMem mem) := by
  have htidy : (s.withMem mem).Tidy :=
    ⟨hs.has_lt, hs.dep, fun q t ht hk => (hs.quant q t ht hk).trans hle⟩
  refine ⟨⟨hs, htidy, le_rfl, hle, fun _ _ => rfl, fun _ _ _ => Iff.rfl⟩, fun q t hq ht => ?_,
    iff_true_intro fun i t hi ht => ?_⟩
  · exact absurd (hs.has_lt q (has_of_task ht)) (Nat.not_lt.mpr hq)
  · exact absurd (hs.has_lt i (has_of_task ht)) (Nat.not_lt.mpr hi)

theorem yields_slotAlloc {n : UInt32} (hs : s.Tidy) :
    Yields (slotAlloc n) s fun _ s' => Grown X True s s' ∧ True := by
  change Meets _ (s.mem.slotAlloc n) _
  rw [DecoderMem.slotAlloc]
  split_ifs
  · exact trivial
  · exact ⟨.withMem hs le_rfl, trivial⟩

/-- A block of its own. -/
theorem yields_alloc {bytes align : UInt64} (hs : s.Tidy) :
    Yields (alloc bytes align) s fun l s' => Grown X True s s' ∧
      s.blocks < l.obj ∧ l.obj ≤ s'.blocks ∧ s'.deps = s.deps := by
  change Meets _ (s.mem.alloc bytes align) _
  rw [DecoderMem.alloc, Arena.alloc]
  split_ifs
  · exact trivial
  · have hlen (b : UInt64 × UInt64) : (s.mem.arena.blocks ++ [b]).length = s.blocks + 1 :=
      List.length_append
    refine ⟨.withMem hs ?_, Nat.lt_succ_self _, ?_, rfl⟩
    · rw [hlen]
      exact Nat.le_succ _
    · exact (hlen _).ge

theorem yields_slotAllocCols {n : UInt32} {m : ℕ} (hs : s.Tidy) :
    Yields (slotAllocCols n m) s fun _ s' => Grown X True s s' ∧ True :=
  (yields_slotAlloc hs).skip fun _ _ h1 _ => .pure ⟨.refl h1.new, trivial⟩

theorem yields_bufAllocCols {n : UInt32} {m : ℕ} (hs : s.Tidy) :
    Yields (bufAllocCols n m) s fun c s' => Grown X True s s' ∧
      s.blocks < c.base.obj ∧ c.base.obj ≤ s'.blocks :=
  (yields_alloc hs).skip fun _ _ h1 hl => .pure ⟨.refl h1.new, hl.1, hl.2.1⟩

theorem yields_auxAlloc {a : Aux} (hs : s.Tidy) :
    Yields (auxAlloc a) s fun b s' => Grown X True s s' ∧ b = some a ∧ s'.deps = s.deps :=
  (yields_alloc hs).skip fun _ _ h1 hl => .pure ⟨.refl h1.new, rfl, hl.2.2⟩

/-- A build dies of a missing tensor. -/
theorem yields_tensor {α : Type} {D : Decoder} {n : TensorName} {f : WTensor → Build α}
    {Q : α → Plan → Prop} (h : ∀ w, D.weights n = some w → Yields (f w) s Q) :
    Yields (tensor D n >>= f) s Q := by
  rw [tensor]
  cases hw : D.weights n with
  | none => exact trivial
  | some w => exact h w hw

/-! ## Operations -/

theorem yields_addWith {t : TaskParams} (deps : List ℕ) (hs : s.Tidy)
    (hdeps : ∀ d ∈ deps, s.Has d) :
    Yields (do
      let id ← add t
      dependOn id deps
      Pure.pure id) s fun id s' => NewTask s s' t deps id := by
  have hadd : Yields (add t) s fun id s' => s.next ≤ id ∧ s' = s.add id t :=
    ⟨trivial, fun id hid => ⟨hid, rfl⟩⟩
  apply hadd.bind
  rintro id _ ⟨hid, rfl⟩
  have hloop := CmdProg.wp_forM (l := deps) (f := fun d => depEdge d id)
    (Plan.spec_mono (fun _ => True) fun _ => True) (fun done s' => s'.next = id + 1 ∧
      s'.task = (s.add id t).task ∧ s'.deps = s.deps ++ done.map (fun d => (d, id)) ∧
      s'.mem = s.mem) (s := s.add id t) ?_ ?_
  · apply Yields.bind hloop
    rintro _ s' ⟨hnext, htask, hdeps', hmem⟩
    exact .pure ⟨hid, hnext, htask, hdeps', hmem⟩
  · exact ⟨rfl, rfl, by simp, rfl⟩
  · intro done d rest s1 hl ⟨hnext, htask, hdeps1, hmem⟩
    have hd : s.Has d := hdeps d (by rw [hl]; simp)
    have hhas (i : ℕ) : s1.Has i ↔ (s.add id t).Has i := by rw [Plan.Has, htask]; rfl
    refine ⟨(hhas d).mpr (by simp [hd]), (hhas id).mpr (by simp), (hs.has_lt d hd).trans_le hid,
      hnext, htask, ?_, hmem⟩
    rw [deps_dep, hdeps1]
    simp

theorem yields_fanIn (producers : List ℕ) (hs : s.Tidy) (hp : ∀ p ∈ producers, s.Has p) :
    Yields (fanIn producers) s fun sig s' => NewTask s s' rawSignal producers sig :=
  yields_addWith _ hs hp

/-- A task that is neither a tile nor a quantization. -/
theorem NewTask.plain {s' : Plan} {t : TaskParams} {deps : List ℕ} {id : ℕ}
    (h : NewTask s s' t deps id) (hs : s.Tidy) (hdeps : ∀ d ∈ deps, s.Has d)
    (hk : t.kind ≠ .STREAM_DOT ∧ t.kind ≠ .STREAM_DOT_IDX ∧ t.kind ≠ .ACT_Q8) :
    Grown X True s s' :=
  (h.grown hs hdeps fun hq => absurd hq hk.2.2).congr
    (iff_true_intro fun hdot => (hdot.1.elim hk.1 hk.2.1).elim)

/-- `id` is a new operation behind `deps`, which got no other consumer. -/
structure NewOp (s s' : Plan) (deps : List ℕ) (id : ℕ) : Prop where
  has : s'.Has id
  next_le : s.next ≤ id
  fed : ∀ p c, s'.Dep p c → s.Dep p c ∨ p ∈ deps
  noQuant : ∀ o, (∀ d ∈ deps, s.NoQuant o d) → s'.NoQuant o id

/-- An operation with a parameter block. -/
theorem yields_addAuxOp {k : TaskKind} {a : Aux} (deps : List ℕ) (hs : s.Tidy)
    (hk : k ≠ .STREAM_DOT ∧ k ≠ .STREAM_DOT_IDX ∧ k ≠ .ACT_Q8) (hdeps : ∀ d ∈ deps, s.Has d) :
    Yields (addAuxOp k a deps) s fun id s' => Grown X True s s' ∧ NewOp s s' deps id := by
  apply (yields_auxAlloc hs).skip
  rintro b s1 h1 ⟨rfl, hold⟩
  have hdeps1 : ∀ d ∈ deps, s1.Has d := fun d hd => h1.has (hdeps d hd)
  apply (yields_addWith deps h1.new hdeps1).mono
  intro id s2 h2
  refine ⟨h2.plain h1.new hdeps1 hk, has_of_task h2.task_self, h1.next_le.trans h2.next_le,
    fun p c hpc => ?_, fun o ho =>
      h2.noQuant h1.new hdeps1 hk.2.2 fun d hd => h1.noQuant (hdeps d hd) (ho d hd)⟩
  rcases (h2.dep_iff p c).mp hpc with hdep | ⟨hp, -⟩
  · rw [Plan.Dep, hold] at hdep
    exact .inl hdep
  · exact .inr hp

/-- The quantization of a column. -/
theorem yields_addActQ8 {dep : ℕ} {x : Loc} {n : UInt32} (hs : s.Tidy) (hdep : s.Has dep)
    (hX : x.obj ∈ X) (hx : x.obj ≤ s.blocks) :
    Yields (addActQ8 dep x n) s fun id s' => NewTask s s' (actQ8 x n) [dep] id ∧
      Grown X True s s' := by
  have hdeps : ∀ d ∈ [dep], s.Has d := by simpa using hdep
  apply (yields_addWith [dep] hs hdeps).bind
  intro id s1 h1
  have hwrite : NewTask s (s1.write id fun t =>
      { t with x := x, y := x.add (xqOf n.toNat / 4), rows := n.toNat / 32, cols := n.toNat })
      (actQ8 x n) [dep] id := by
    refine ⟨h1.next_le, h1.next_eq, ?_, h1.deps_eq, h1.mem_eq⟩
    rw [Plan.write, h1.task_self, h1.task_eq, Function.update_idem]
    rfl
  refine ⟨has_of_task h1.task_self, fun _ _ => trivial, hwrite, ?_⟩
  refine (hwrite.grown hs hdeps fun _ => ⟨hX, hx⟩).congr (iff_true_intro fun hdot => ?_)
  exact absurd hdot.1 (by rintro (h | h) <;> cases h)

/-! ## Loops over positions -/

/-- The rounds of a loop add tiles that are behind their quantizations iff `c`: so does the loop. -/
theorem yields_mapM {α : Type} {f : ℕ → Build α} {n : ℕ} (c : ℕ → Prop) (V : ℕ → α → Plan → Prop)
    (hV : ∀ k a s1 s2, Ext s1 s2 → V k a s1 → V k a s2) (hs : s.Tidy)
    (h : ∀ k s1, k < n → Ext s s1 →
      Yields (f k) s1 fun a s2 => Grown X (c k) s1 s2 ∧ V k a s2) :
    Yields ((List.range n).mapM f) s fun as s' => Grown X (∀ k < n, c k) s s' ∧
      as.length = n ∧ ∀ k a, as[k]? = some a → V k a s' := by
  have hloop := CmdProg.wp_mapM_range (n := n) (f := f)
    (Plan.spec_mono (fun _ => True) fun _ => True) (fun n as s' =>
      Grown X (∀ k < n, c k) s s' ∧ as.length = n ∧ ∀ k a, as[k]? = some a → V k a s')
    (s := s) ?_ ?_
  · exact hloop
  · exact ⟨(Grown.refl hs).congr (iff_of_true trivial fun k hk => absurd hk (Nat.not_lt_zero k)),
      rfl, fun k a hk => absurd hk (by simp)⟩
  · intro k as s1 hk ⟨h1, hlen, hold⟩
    apply Yields.mono (h k s1 hk h1.toExt)
    rintro a s2 ⟨h2, ha⟩
    refine ⟨(h1.trans h2).congr Nat.forall_lt_succ_right.symm, ?_, fun j b hb => ?_⟩
    · rw [List.length_append, hlen]
      rfl
    · by_cases hj : j < k
      · rw [List.getElem?_append_left (by omega)] at hb
        exact hV j b s1 s2 h2.toExt (hold j b hb)
      · have hlt := (List.getElem?_eq_some_iff.mp hb).1
        rw [List.length_append, List.length_singleton, hlen] at hlt
        obtain rfl : j = k := by omega
        rw [← hlen, List.getElem?_concat_length, Option.some.injEq] at hb
        exact hb ▸ ha

/-- A loop that collects ids. -/
theorem yields_mapM_ids {f : ℕ → Build ℕ} {n : ℕ} (hs : s.Tidy)
    (h : ∀ k s1, k < n → Ext s s1 → Yields (f k) s1 fun a s2 => Grown X True s1 s2 ∧ s2.Has a) :
    Yields ((List.range n).mapM f) s fun as s' => Grown X True s s' ∧ ∀ a ∈ as, s'.Has a := by
  apply (yields_mapM (fun _ => True) (fun _ a s' => s'.Has a) (fun _ _ _ _ he ha => he.has ha) hs
    h).mono
  rintro as s' ⟨h1, _, has⟩
  refine ⟨h1.congr (iff_true_intro fun _ _ => trivial), fun a ha => ?_⟩
  obtain ⟨k, hk⟩ := List.mem_iff_getElem?.mp ha
  exact has k a hk

/-- A loop over the positions with a result for each. -/
theorem yields_positions {α : Type} [Inhabited α] {f : ℕ → Build α} {m : ℕ} (c : ℕ → Prop)
    (V : ℕ → α → Plan → Prop) (hV : ∀ p a s1 s2, Ext s1 s2 → V p a s1 → V p a s2) (hs : s.Tidy)
    (h : ∀ p s1, p < m → Ext s s1 →
      Yields (f p) s1 fun a s2 => Grown X (c p) s1 s2 ∧ V p a s2) :
    Yields (positions m f) s fun r s' => Grown X (∀ p < m, c p) s s' ∧
      ∀ p < m, V p (r p) s' := by
  apply (yields_mapM c V hV hs h).bind
  rintro as s1 ⟨h1, hlen, has⟩
  refine .pure ⟨h1, fun p hp => ?_⟩
  have hlt : p < as.length := hlen.symm ▸ hp
  change V p (as.getD p default) s1
  rw [List.getD_eq_getElem _ _ hlt]
  exact has p _ (List.getElem?_eq_getElem hlt)

/-- The same, without tiles that come too early. -/
theorem yields_positions_true {α : Type} [Inhabited α] {f : ℕ → Build α} {m : ℕ}
    (V : ℕ → α → Plan → Prop) (hV : ∀ p a s1 s2, Ext s1 s2 → V p a s1 → V p a s2) (hs : s.Tidy)
    (h : ∀ p s1, p < m → Ext s s1 →
      Yields (f p) s1 fun a s2 => Grown X True s1 s2 ∧ V p a s2) :
    Yields (positions m f) s fun r s' => Grown X True s s' ∧ ∀ p < m, V p (r p) s' :=
  (yields_positions (fun _ => True) V hV hs h).mono fun _ _ h =>
    ⟨h.1.congr (iff_true_intro fun _ _ => trivial), h.2⟩

/-! ## Dots -/

/-- The columns that a tile behind `deps` reads are quantized before it. -/
def Plan.TileFed (s : Plan) (deps : List ℕ) (t : TaskParams) : Prop :=
  t.IsQuantDot → ∀ k < t.columns, s.Supplies deps (t.inCol k) t.cols

section
variable {tile : UInt32 → UInt32 → TaskParams} {rows rowsz : UInt32} {deps : List ℕ} {c : Prop}

theorem Plan.Ext.tileFed_iff {s1 : Plan} (h : Ext s s1) (hdeps : ∀ d ∈ deps, s.Has d)
    (t : TaskParams) : s1.TileFed deps t ↔ s.TileFed deps t :=
  imp_congr_right fun _ => forall₂_congr fun k _ => h.supplies_iff hdeps (t.inCol k) t.cols

/-- The rounds of the tile loop from row `r0` on. -/
theorem yields_tileLoop (hkind : ∀ r0 r, (tile r0 r).kind ≠ .ACT_Q8) (fuel : ℕ) (r0 : UInt32)
    (tiles : List ℕ) (hs : s.Tidy) (hdeps : ∀ d ∈ deps, s.Has d)
    (hc : ∀ r0 r, s.TileFed deps (tile r0 r) ↔ c) :
    Yields (tileLoop tile rows rowsz deps fuel r0 tiles) s fun out s' =>
      Grown X (r0 < rows → c) s s' ∧ ∃ new, out = tiles ++ new ∧
        (∀ i ∈ new, s.next ≤ i ∧ s'.Has i) ∧ ∀ p q, s'.Dep p q → s.Dep p q ∨ p ∈ deps := by
  induction fuel generalizing r0 tiles s with
  | zero => exact trivial
  | succ fuel ih =>
    rw [tileLoop]
    by_cases hr : r0 < rows
    · rw [if_pos hr]
      have htask := yields_addWith (t := tile r0 (if rows - r0 < rowsz then rows - r0 else rowsz))
        deps hs hdeps
      rw [Yields, CmdProg.wp_bind] at htask
      apply Yields.bind htask
      intro id s1 h1
      rw [CmdProg.wp_bind] at h1
      apply Yields.bind h1
      intro _ s2 h2
      have h2 : NewTask s s2 _ deps id := h2
      have hg := h2.grown (X := X) hs hdeps fun hk => absurd hk (hkind _ _)
      have hdeps2 : ∀ d ∈ deps, s2.Has d := fun d hd => hg.has (hdeps d hd)
      apply (ih (r0 + rowsz) (tiles ++ [id]) hg.new hdeps2 fun r0 r =>
        (hg.tileFed_iff hdeps _).trans (hc r0 r)).mono
      rintro out s3 ⟨h3, new, rfl, hnew, hsrc⟩
      refine ⟨(hg.trans h3).congr ?_, id :: new, by simp, fun i hi => ?_, fun p q hpq => ?_⟩
      · have hone := hc r0 (if rows - r0 < rowsz then rows - r0 else rowsz)
        rw [Plan.TileFed] at hone
        rw [hone]
        exact ⟨fun h _ => h.1, fun h => ⟨h hr, fun _ => h hr⟩⟩
      · rcases List.mem_cons.mp hi with rfl | hi
        · exact ⟨h2.next_le, h3.has (has_of_task h2.task_self)⟩
        · exact ⟨hg.next_le.trans (hnew i hi).1, (hnew i hi).2⟩
      · rcases hsrc p q hpq with hold | hp
        · exact ((h2.dep_iff p q).mp hold).imp_right And.left
        · exact .inr hp
    · rw [if_neg hr]
      exact .pure ⟨(Grown.refl hs).congr (iff_of_true trivial fun h => absurd h hr), [], by simp,
        by simp, fun p q hpq => .inl hpq⟩

theorem yields_addTiles (hkind : ∀ r0 r, (tile r0 r).kind ≠ .ACT_Q8) (hs : s.Tidy)
    (hdeps : ∀ d ∈ deps, s.Has d) (hc : ∀ r0 r, s.TileFed deps (tile r0 r) ↔ c) :
    Yields (addTiles tile rows rowsz deps) s fun id s' =>
      Grown X (0 < rows → c) s s' ∧ s'.Has id ∧ ∀ q, ¬ s'.Dep id q := by
  apply (yields_tileLoop hkind (2 ^ 32) 0 [] hs hdeps hc).last
  rintro tiles s1 h1 ⟨new, hnew, hhas, hsrc⟩
  rw [List.nil_append] at hnew
  subst hnew
  have hfan : Yields (fanIn tiles) s1 fun id s' =>
      Grown X True s1 s' ∧ s'.Has id ∧ ∀ q, ¬ s'.Dep id q := by
    apply (yields_fanIn tiles h1.new fun p hp => (hhas p hp).2).mono
    intro id s2 h2
    exact ⟨h2.plain h1.new (fun p hp => (hhas p hp).2) (by decide), has_of_task h2.task_self,
      h2.unfed h1.new fun p hp => (hhas p hp).2⟩
  match tiles with
  | [t] =>
    obtain ⟨hle, ht⟩ := hhas t (List.mem_singleton_self t)
    refine .pure ⟨.refl h1.new, ht, fun q hq => ?_⟩
    -- what has a consumer is older than the tile
    have hold : s.Has t := by
      rcases hsrc t q hq with hdep | hmem
      · exact (hs.dep t q hdep).1
      · exact hdeps t hmem
    exact absurd (hs.has_lt t hold) (Nat.not_lt.mpr hle)
  | [] => exact hfan
  | _ :: _ :: _ => exact hfan

end

/-- Some tile of the matrix may read appendices. -/
def WTensor.Quantized (w : WTensor) : Prop := w.fmt ≠ .F32 ∧ w.rows ≠ 0

theorem quantized_iff {w : WTensor} {c : Prop} :
    (0 < w.rows → w.fmt ≠ .F32 → c) ↔ (w.Quantized → c) := by
  rw [UInt32.pos_iff_ne_zero]
  exact ⟨fun h hq => h hq.2 hq.1, fun h hr hf => h ⟨hf, hr⟩⟩

theorem tileFed_dotTile (o : BuildOpts) (w : WTensor) (x y : Loc) (idSlot : Option Loc)
    (deps : List ℕ) (r0 r : UInt32) : s.TileFed deps (dotTile o w x y idSlot r0 r) ↔
      (w.fmt ≠ .F32 → s.Supplies deps x w.cols.toNat) := by
  have hdot : (dotTile o w x y idSlot r0 r).IsDot := by
    cases idSlot
    · exact .inl rfl
    · exact .inr rfl
  have hcol : (dotTile o w x y idSlot r0 r).inCol 0 = x := by
    rw [TaskParams.inCol, Nat.zero_mul]
    rfl
  have hquant : (dotTile o w x y idSlot r0 r).IsQuantDot ↔ w.fmt ≠ .F32 := and_iff_right hdot
  rw [Plan.TileFed, hquant]
  refine imp_congr_right fun _ => ⟨fun h => ?_, fun h k hk => ?_⟩
  · have hone := h 0 Nat.one_pos
    rw [hcol] at hone
    exact hone
  · obtain rfl : k = 0 := Nat.lt_one_iff.mp hk
    rw [hcol]
    exact h

/-- The tiles of a dot over one column. -/
theorem yields_addDot {o : BuildOpts} {w : WTensor} {x y : Loc} (deps : List ℕ) {rowsz : UInt32}
    {idSlot : Option Loc} (hs : s.Tidy) (hdeps : ∀ d ∈ deps, s.Has d) :
    Yields (addDot o w x y deps rowsz idSlot) s fun id s' =>
      Grown X (w.Quantized → s.Supplies deps x w.cols.toNat) s s' ∧ s'.Has id ∧
        ∀ q, ¬ s'.Dep id q := by
  have hkind (r0 r : UInt32) : (dotTile o w x y idSlot r0 r).kind ≠ .ACT_Q8 := by
    cases idSlot <;> exact TaskKind.noConfusion
  apply (yields_addTiles (X := X) hkind hs hdeps (tileFed_dotTile o w x y idSlot deps)).mono
  rintro id s' ⟨h, hid⟩
  exact ⟨h.congr quantized_iff, hid⟩

/-- The same behind a quantization of the column. -/
theorem yields_addDot_fed {o : BuildOpts} {w : WTensor} {x y : Loc} (deps : List ℕ) {rowsz : UInt32}
    {idSlot : Option Loc} (hs : s.Tidy) (hdeps : ∀ d ∈ deps, s.Has d)
    (hq : s.Supplies deps x w.cols.toNat) :
    Yields (addDot o w x y deps rowsz idSlot) s fun id s' =>
      Grown X True s s' ∧ s'.Has id ∧ ∀ q, ¬ s'.Dep id q :=
  (yields_addDot deps hs hdeps).mono fun _ _ h =>
    ⟨h.1.congr (iff_true_intro fun _ => hq), h.2⟩

theorem columns_dotTileM {o : BuildOpts} {w : WTensor} {x y : Cols} {m : ℕ} (hm : 1 ≤ m)
    (r0 r : UInt32) : (dotTileM o w x y m r0 r).columns = m :=
  if_pos (Nat.one_le_iff_ne_zero.mp hm)

/-- The tiles of a dot over the columns of all positions, each quantized by one of `deps`. -/
theorem yields_addDotM {o : BuildOpts} {w : WTensor} {x y : Cols} {m : ℕ} {deps : List ℕ}
    {rowsz : UInt32} (hm : 1 ≤ m) (hs : s.Tidy) (hdeps : ∀ d ∈ deps, s.Has d)
    (hq : ∀ p < m, s.Supplies deps (x.col p) w.cols.toNat) :
    Yields (addDotM o w x y m deps rowsz) s fun id s' =>
      Grown X True s s' ∧ s'.Has id ∧ ∀ q, ¬ s'.Dep id q := by
  rw [addDotM]
  split_ifs with hoff hone
  · have hdot (p : ℕ) (s1 : Plan) (hp : p < m) (h1 : Ext s s1) :
        Yields (addDot o w (x.col p) (y.col p) deps rowsz none) s1 fun id s' =>
          Grown X True s1 s' ∧ s'.Has id :=
      (yields_addDot_fed deps h1.new (fun d hd => h1.has (hdeps d hd))
        ((h1.supplies_iff hdeps _ _).mpr (hq p hp))).mono fun _ _ h => ⟨h.1, h.2.1⟩
    apply (yields_mapM_ids hs hdot).skip
    intro sigs s1 h1 hsigs
    apply (yields_fanIn sigs h1.new hsigs).mono
    intro id s2 h2
    exact ⟨h2.plain h1.new hsigs (by decide), has_of_task h2.task_self, h2.unfed h1.new hsigs⟩
  · have hfirst := hq 0 hm
    rw [Cols.col_zero] at hfirst
    exact yields_addDot_fed deps hs hdeps hfirst
  · have hfed (r0 r : UInt32) : s.TileFed deps (dotTileM o w x y m r0 r) ↔ True := by
      refine iff_true_intro fun _ k hk => ?_
      rw [columns_dotTileM hm] at hk
      exact hq k hk
    apply (yields_addTiles (X := X) (fun _ _ => TaskKind.noConfusion) hs hdeps hfed).mono
    rintro id s' ⟨h, hid⟩
    exact ⟨h.congr (iff_true_intro fun _ => trivial), hid⟩

/-- One shared-weight stage behind the quantizations of its columns. -/
theorem yields_stageDot {o : BuildOpts} {w : WTensor} {x y : Cols} {m : ℕ} {pdeps : ℕ → ℕ}
    {rowsz : UInt32} (hs : s.Tidy)
    (hq : ∀ p < m, s.At (pdeps p) (·.Quantizes (x.col p) w.cols.toNat)) :
    Yields (stageDot o w x y m pdeps rowsz) s fun sig s' =>
      Grown X True s s' ∧ ∀ p < m, s'.Has (sig p) := by
  rw [stageDot]
  split_ifs with hmc
  · have hmem {p : ℕ} (hp : p < m) : pdeps p ∈ (List.range m).map pdeps :=
      List.mem_map.mpr ⟨p, List.mem_range.mpr hp, rfl⟩
    have hdeps : ∀ d ∈ (List.range m).map pdeps, s.Has d := by
      intro d hd
      obtain ⟨p, hp, rfl⟩ := List.mem_map.mp hd
      exact (hq p (List.mem_range.mp hp)).has
    apply (yields_addDotM (by omega) hs hdeps fun p hp => (hq p hp).supplies (hmem hp)).skip
    rintro id s1 h1 ⟨hid, _⟩
    exact .pure ⟨.refl h1.new, fun _ _ => hid⟩
  · apply yields_positions_true (fun _ id s' => s'.Has id) (fun _ _ _ _ he h => he.has h) hs
    intro p s1 hp h1
    have hqp := h1.at_of (hq p hp)
    apply (yields_addDot_fed [pdeps p] h1.new (by simpa using hqp.has)
      (hqp.supplies (List.mem_singleton_self _))).mono
    intro id s2 h2
    exact ⟨h2.1, h2.2.1⟩

end FastLlm
