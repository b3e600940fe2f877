import Mathlib
import FastLlm.Model.PassValues
import FastLlm.Runtime.OpPlaces
import FastLlm.Runtime.WordAssn

/-!
# The buffers of an operation

What an operation leaves is computed on buffers that are allocations of their own.  In the memory of
a pass the buffers lie where the graph says.  When those that are written are apart from the others,
the operation does there what it does on buffers of its own (`performs_op`).

## Main definitions

* `Buf` — a buffer of an operation in memory.
* `inputs`, `outputs`, `results` — what is known of the buffers before and after.
-/

namespace FastLlm
open Assn
open MemProg (Sim Places)

/-- A buffer of an operation: words that are never written, words the operation reads, words it
changes in place, and words it writes whatever was there. -/
inductive Buf
  | const (x : Loc) (v : List Word)
  | read (ds : List ℕ) (x : Loc) (v : List Word)
  | edit (ds : List ℕ) (x : Loc) (v new : List Word)
  | write (ds : List ℕ) (x : Loc) (old new : List Word)

namespace Buf

@[simp] def loc : Buf → Loc
  | const x _ | read _ x _ | edit _ x _ _ | write _ x _ _ => x

/-- What the operation may look at. -/
@[simp] def known : Buf → List Word
  | const _ v | read _ _ v | edit _ _ v _ => v
  | write _ _ _ _ => []

@[simp] def len : Buf → ℕ
  | const _ v | read _ _ v | edit _ _ v _ => v.length
  | write _ _ old _ => old.length

/-- The tasks the operation has to wait for. -/
@[simp] def deps : Buf → List ℕ
  | const _ _ => []
  | read ds _ _ | edit ds _ _ _ | write ds _ _ _ => ds

/-- What is left in a buffer that is written. -/
@[simp] def new : Buf → Option (List Word)
  | const _ _ | read _ _ _ => none
  | edit _ _ _ new | write _ _ _ new => some new

@[simp] def input : Buf → Assn Loc Word
  | read ds x v => ready ds x v
  | _ => 0

@[simp] def output : Buf → Assn Loc Word
  | edit ds x v _ => idle ds x v
  | write ds x old _ => idle ds x old
  | _ => 0

@[simp] def result (id : ℕ) : Buf → Assn Loc Word
  | edit _ x _ new | write _ x _ new => idle [id] x new
  | _ => 0

/-- Where a buffer lies that is read. -/
def inAt : Buf → Set Loc
  | read _ x v => x.span v.length
  | _ => ∅

/-- Where a buffer lies that is written. -/
def outAt : Buf → Set Loc
  | edit _ x v _ => x.span v.length
  | write _ x old _ => x.span old.length
  | _ => ∅

end Buf

/-- What is known of the buffers that are read, -/
def inputs (bs : List Buf) : Assn Loc Word := (bs.map Buf.input).sum

/-- of those that are written, -/
def outputs (bs : List Buf) : Assn Loc Word := (bs.map Buf.output).sum

/-- and of those when task `id` has written them. -/
def results (bs : List Buf) (id : ℕ) : Assn Loc Word := (bs.map (Buf.result id)).sum

section
variable {b : Buf} {bs : List Buf} {id : ℕ}

@[simp] theorem inputs_nil : inputs [] = 0 := rfl
@[simp] theorem inputs_cons : inputs (b :: bs) = b.input + inputs bs := rfl
@[simp] theorem outputs_nil : outputs [] = 0 := rfl
@[simp] theorem outputs_cons : outputs (b :: bs) = b.output + outputs bs := rfl
@[simp] theorem results_nil : results [] id = 0 := rfl
@[simp] theorem results_cons : results (b :: bs) id = b.result id + results bs id := rfl

end

/-- Buffer `k` is as `P k` says. -/
def EachBuf (P : ℕ → Buf → Prop) (bs : List Buf) : Prop := ∀ k b, bs[k]? = some b → P k b

@[simp] theorem eachBuf_nil {P : ℕ → Buf → Prop} : EachBuf P [] := by simp [EachBuf]

@[simp] theorem eachBuf_cons {P : ℕ → Buf → Prop} {b : Buf} {bs : List Buf} :
    EachBuf P (b :: bs) ↔ P 0 b ∧ EachBuf (fun k => P (k + 1)) bs := by
  constructor
  · intro h
    exact ⟨h 0 b rfl, fun k c hc => h (k + 1) c hc⟩
  · rintro ⟨h0, h⟩ k c hc
    cases k with
    | zero => exact Option.some.inj hc ▸ h0
    | succ k => exact h k c hc

/-! ## Cells -/

section
variable (bs : List Buf)

/-- The place of a cell of allocation `k` is in buffer `k`. -/
def place (l : Loc) : Loc := ((bs[l.obj]?.map Buf.loc).getD ⟨0, 0⟩).add l.off

/-- The cells of all buffers. -/
def cells : Set Loc := {l | ∃ b, bs[l.obj]? = some b ∧ l.off < b.len}

/-- The cells the operation may look at. -/
def knownCells : Set Loc := {l | ∃ b, bs[l.obj]? = some b ∧ l.off < b.known.length}

/-- The cells it writes. -/
def outCells : Set Loc := {l | ∃ b, bs[l.obj]? = some b ∧ b.new.isSome = true ∧ l.off < b.len}

end

variable {bs : List Buf} {b : Buf} {k n : ℕ}

theorem place_add (h : bs[k]? = some b) (i : ℕ) : place bs ((⟨k, 0⟩ : Loc).add i) = b.loc.add i := by
  simp [place, h, Loc.add]

theorem held_known {x : Loc} (h : bs[k]? = some b) (hx : b.loc = x) (hn : n ≤ b.known.length) :
    Held (place bs) (knownCells bs) ⟨k, 0⟩ x n :=
  fun i hi => ⟨hx ▸ place_add h i, b, h, by simpa using hi.trans_le hn⟩

theorem held_out {x : Loc} (h : bs[k]? = some b) (hx : b.loc = x) (hb : b.new.isSome = true)
    (hn : n ≤ b.len) : Held (place bs) (outCells bs) ⟨k, 0⟩ x n :=
  fun i hi => ⟨hx ▸ place_add h i, b, h, hb, by simpa using hi.trans_le hn⟩

theorem span_subset_outCells (h : bs[k]? = some b) (hb : b.new.isSome = true) (hn : n ≤ b.len) :
    (⟨k, 0⟩ : Loc).span n ⊆ outCells bs := by
  rintro _ ⟨i, hi, rfl⟩
  exact ⟨b, h, hb, by simpa using hi.trans_le hn⟩

@[simp] theorem mk_mem_span {j i : ℕ} :
    (⟨j, i⟩ : Loc) ∈ (⟨k, 0⟩ : Loc).span n ↔ j = k ∧ i < n := by
  simp [Loc.mem_span]

theorem Buf.known_le (b : Buf) : b.known.length ≤ b.len := by
  cases b <;> simp [known, len]

theorem Buf.holds_input {F : TaskFlow Loc Word} {A : Set Loc} (h : b.input.holds F A) :
    A = b.inAt := by
  cases b with
  | read => exact h.1
  | _ => exact h

theorem Buf.holds_output {F : TaskFlow Loc Word} {A : Set Loc} (h : b.output.holds F A) :
    A = b.outAt := by
  cases b with
  | edit | write => exact h.1
  | _ => exact h

theorem Buf.add_mem_outAt {i : ℕ} (hb : b.new.isSome = true) (hi : i < b.len) :
    b.loc.add i ∈ b.outAt := by
  cases b with
  | edit | write => exact Loc.add_mem_span hi
  | _ => cases hb

@[simp] theorem length_runOp (op : Exec Unit) (kn : List (List Word)) (obj n : ℕ) :
    (runOp op kn obj n).length = n := by simp [runOp]

theorem getD_runOp (op : Exec Unit) (kn : List (List Word)) (obj : ℕ) {n i : ℕ} (hi : i < n) :
    (runOp op kn obj n).getD i 0 = op.final (bufs kn) ⟨obj, i⟩ := by simp [runOp, hi]

namespace Pass
variable (N : Numerics) (D : Decoder) (w : WTensor) (base : BytePtr) (x y : List Word) (n : ℕ)

@[simp] theorem length_dot : (dot N w base x).length = w.rows.toNat := by simp [dot]

@[simp] theorem length_rmsNorm : (rmsNorm N D w x n).length = n := length_runOp _ _ _ _

@[simp] theorem length_add2 : (add2 N D x y).length = D.hp.nEmbd.toNat := length_runOp _ _ _ _

@[simp] theorem length_siluMul : (siluMul N x y n).length = n := length_runOp _ _ _ _

@[simp] theorem length_rope (pos : Word) (nHead stride rotOff nRot : ℕ) :
    (rope N D x pos nHead stride rotOff nRot).length = x.length := length_runOp _ _ _ _

@[simp] theorem length_attnHeads (rows : List KvRow) (pos : Word) :
    (attnHeads N D x rows pos).length = D.hp.nHead.toNat * D.hp.dv.toNat := length_runOp _ _ _ _

@[simp] theorem length_wmerge (g b : Option (List Word)) (nParts nFull : ℕ) :
    (wmerge N D x g y b nParts nFull).length = D.hp.nEmbd.toNat := length_runOp _ _ _ _

@[simp] theorem length_routerSel : (routerSel N D x).1.length = D.hp.nUsed.toNat ∧
    (routerSel N D x).2.length = D.hp.nUsed.toNat := ⟨length_runOp _ _ _ _, length_runOp _ _ _ _⟩

/-- The norm of `n` floats reads no more than those. -/
theorem rmsNorm_take : rmsNorm N D w (x.take n) n = rmsNorm N D w x n := by
  have hplaces : Places id ((⟨0, 0⟩ : Loc).span n ∪ (⟨1, 0⟩ : Loc).span n ∪ (⟨2, 0⟩ : Loc).span n)
      ((⟨0, 0⟩ : Loc).span n ∪ (⟨1, 0⟩ : Loc).span n) ((⟨2, 0⟩ : Loc).span n) :=
    ⟨Set.subset_union_left, Set.subset_union_right, fun _ _ _ _ h => h⟩
  have hsim := sim_opRmsnorm (E := N.E)
    { wnorm := ⟨0, 0⟩, x := ⟨1, 0⟩, y := ⟨2, 0⟩, eps := D.hp.rmsEps, n := n } ⟨0, 0⟩ ⟨1, 0⟩ ⟨2, 0⟩
    hplaces (fun i hi => ⟨rfl, .inl ⟨i, hi, rfl⟩⟩) (fun i hi => ⟨rfl, .inr ⟨i, hi, rfl⟩⟩)
    (fun i hi => ⟨rfl, ⟨i, hi, rfl⟩⟩)
  apply List.ext_getElem (by simp)
  intro i hi hi'
  have hlt : i < n := by simpa using hi
  rw [← List.getD_eq_getElem _ 0 hi, ← List.getD_eq_getElem _ 0 hi', rmsNorm, rmsNorm,
    getD_runOp _ _ _ hlt, getD_runOp _ _ _ hlt]
  refine hsim.final_eq _ _ (fun l hl => ?_) ⟨2, i⟩ (.inr ⟨i, hlt, by simp [Loc.add]⟩)
  rcases hl with ⟨j, hj, rfl⟩ | ⟨j, hj, rfl⟩
  · simp [bufs, Loc.add]
  · simp [bufs, Loc.add, hj]

end Pass

/-! ## Operations in memory -/

section
variable {K : Set Loc} {μ : Loc → Word} {F : TaskFlow Loc Word} {p q : Exec Unit}
  {c : List (List Word)}

/-- The buffers that are never written have the words of the memory. -/
def ConstsIn (K : Set Loc) (μ : Loc → Word) (bs : List Buf) : Prop :=
  ∀ x v, Buf.const x v ∈ bs → x.span v.length ⊆ K ∧ x.contents v.length μ = v

/-- Written buffers are apart from the others. -/
theorem places_of_holds (hconst : ∀ x v, Buf.const x v ∈ bs → x.span v.length ⊆ K)
    (hAB : Disjoint {x | ∃ b ∈ bs, x ∈ b.inAt} {x | ∃ b ∈ bs, x ∈ b.outAt})
    (hK : Disjoint {x | ∃ b ∈ bs, x ∈ b.outAt} K)
    (hpair : bs.Pairwise fun a b => Disjoint a.outAt b.outAt) :
    Places (place bs) (cells bs) (knownCells bs) (outCells bs) where
  known := by
    rintro l ⟨b, hb, hl⟩
    exact ⟨b, hb, hl.trans_le b.known_le⟩
  out := by
    rintro l ⟨b, hb, -, hl⟩
    exact ⟨b, hb, hl⟩
  inj := by
    rintro ⟨k, i⟩ ⟨b, hb, hnew, hi⟩ ⟨j, e⟩ ⟨c, hc, he⟩ heq
    have hplace : c.loc.add e = b.loc.add i := by simpa [place, hb, hc] using heq
    have hbmem : b ∈ bs := List.mem_of_getElem? hb
    have hcmem : c ∈ bs := List.mem_of_getElem? hc
    have hout : b.loc.add i ∈ b.outAt := b.add_mem_outAt hnew hi
    by_cases hkj : j = k
    · subst hkj
      obtain rfl : c = b := Option.some.inj (hc.symm.trans hb)
      have hoff := congrArg Loc.off hplace
      simp only [Loc.off_add] at hoff
      rw [Loc.mk.injEq]
      exact ⟨rfl, by omega⟩
    · -- another buffer
      rw [← hplace] at hout
      have hdisj (hc' : c.loc.add e ∈ c.outAt) : Disjoint b.outAt c.outAt := by
        obtain ⟨hk, rfl⟩ := List.getElem?_eq_some_iff.mp hb
        obtain ⟨hj, rfl⟩ := List.getElem?_eq_some_iff.mp hc
        rw [List.pairwise_iff_getElem] at hpair
        rcases Nat.lt_or_gt_of_ne hkj with hlt | hlt
        · exact (hpair j k hj hk hlt).symm
        · exact hpair k j hk hj hlt
      cases c with
      | const x v =>
        exact absurd (hconst x v hcmem (Loc.add_mem_span he))
          (Set.disjoint_left.mp hK ⟨b, hbmem, hout⟩)
      | read ds x v =>
        exact absurd ⟨b, hbmem, hout⟩
          (Set.disjoint_left.mp hAB ⟨_, hcmem, Loc.add_mem_span he⟩)
      | edit ds x v w =>
        have hmem : (Buf.edit ds x v w).loc.add e ∈ x.span v.length := Loc.add_mem_span he
        exact absurd hmem (Set.disjoint_left.mp (hdisj hmem) hout)
      | write ds x v w =>
        have hmem : (Buf.write ds x v w).loc.add e ∈ x.span v.length := Loc.add_mem_span he
        exact absurd hmem (Set.disjoint_left.mp (hdisj hmem) hout)

/-- **An operation in memory** does what it does on buffers of its own. -/
theorem performs_op {W : Set Loc} (hconst : ConstsIn K μ bs)
    (hkn : EachBuf (fun k b => ∀ i < b.known.length, (c.getD k []).getD i 0 = b.known.getD i 0) bs)
    (hnew : EachBuf (fun k b => ∀ w ∈ b.new, w = runOp q c k b.len) bs)
    (hout : EachBuf (fun k b => b.new.isSome = true → ∀ i < b.len, (⟨k, i⟩ : Loc) ∈ W) bs)
    (hW : W ⊆ outCells bs)
    (hsim : Places (place bs) (cells bs) (knownCells bs) (outCells bs) →
      Sim (place bs) (cells bs) (knownCells bs) W p q) :
    Performs K μ p (inputs bs) (outputs bs) (results bs) := by
  intro F A B hF hinit hK hheap hAB hP hX
  obtain ⟨hin, -, rfl⟩ := (holds_list_sum fun b F A => b.holds_input).mp hP
  obtain ⟨hheld, hpair, rfl⟩ := (holds_list_sum fun b F A => b.holds_output).mp hX
  have hBK : Disjoint {x | ∃ b ∈ bs, x ∈ b.outAt} K :=
    hK ▸ hF.apart.mono_left (Set.subset_union_right.trans hheap)
  have hs := hsim (places_of_holds (fun x v h => (hconst x v h).1) hAB hBK hpair)
  have hm : ∀ l ∈ knownCells bs, F.after (place bs l) = bufs c l := by
    rintro ⟨k, i⟩ ⟨b, hb, hi⟩
    have hmem : b ∈ bs := List.mem_of_getElem? hb
    have hplace : place bs ⟨k, i⟩ = b.loc.add i := by simp [place, hb]
    rw [hplace, bufs, hkn k b hb i hi]
    cases b with
    | const x v =>
      obtain ⟨hsub, hv⟩ := hconst x v hmem
      have hconst : x.add i ∈ F.const := hK ▸ hsub (Loc.add_mem_span hi)
      change F.after (x.add i) = v.getD i 0
      have hi : i < v.length := hi
      rw [hF.after_const hconst, hinit, ← hv, Loc.getD_contents hi]
    | read ds x v => exact ((hin _ hmem).2 _ (Loc.add_mem_span hi)).1.trans Loc.fill_add
    | edit ds x v w => exact ((hheld _ hmem).2 _ (Loc.add_mem_span hi)).1.trans Loc.fill_add
    | write => exact absurd hi (Nat.not_lt_zero i)
  refine ⟨(hs.reads _ _ hm).trans ?_, (hs.writes _ _ hm).trans ?_, fun id => ?_⟩
  · rintro _ ⟨⟨k, i⟩, ⟨b, hb, hi⟩, rfl⟩
    have hmem : b ∈ bs := List.mem_of_getElem? hb
    have hplace : place bs ⟨k, i⟩ = b.loc.add i := by simp [place, hb]
    rw [hplace]
    cases b with
    | const x v => exact .inr ((hconst x v hmem).1 (Loc.add_mem_span hi))
    | read ds x v => exact .inl (.inl ⟨_, hmem, Loc.add_mem_span hi⟩)
    | edit ds x v w => exact .inl (.inr ⟨_, hmem, Loc.add_mem_span hi⟩)
    | write ds x v w => exact .inl (.inr ⟨_, hmem, Loc.add_mem_span hi⟩)
  · rintro _ ⟨⟨k, i⟩, hl, rfl⟩
    obtain ⟨b, hb, hnew, hi⟩ := hW hl
    have hplace : place bs ⟨k, i⟩ = b.loc.add i := by simp [place, hb]
    rw [hplace]
    exact ⟨b, List.mem_of_getElem? hb, b.add_mem_outAt hnew hi⟩
  · refine ⟨_, subset_rfl, Takes.list_sum (fun b hb => ?_) hpair⟩
    obtain ⟨k, hk⟩ := List.mem_iff_getElem?.mp hb
    have hfinal {w : List Word} (hw : b.new = some w) :
        (idle [id] b.loc w).Takes id (b.loc.span b.len) (p.final F.after) := by
      obtain rfl := hnew k b hk w hw
      rw [idle, length_runOp]
      refine takes_owned ?_
      rintro _ ⟨i, hi, rfl⟩
      rw [Loc.fill_add, getD_runOp _ _ _ hi,
        ← hs.final_eq _ _ hm ⟨k, i⟩ (.inr (hout k b hk (by rw [hw]; rfl) i hi))]
      simp [place, hk]
    cases b with
    | edit ds x v w => exact hfinal rfl
    | write ds x v w => exact hfinal rfl
    | _ => exact takes_zero

/-- The buffers that are read stay as they are. -/
theorem reads_inputs {deps : List ℕ} (h : ∀ b ∈ bs, b.deps ⊆ deps) :
    (inputs bs).Reads deps fun _ => inputs bs := by
  refine Reads.list_sum fun b hb => ?_
  cases b with
  | read ds x v => exact reads_filled (h _ hb)
  | _ => exact reads_zero

theorem owns_outputs {deps : List ℕ} (h : ∀ b ∈ bs, b.deps ⊆ deps) : (outputs bs).Owns deps := by
  refine Owns.list_sum fun b hb => ?_
  cases b with
  | edit ds x v w => exact owns_owned (h _ hb)
  | write ds x v w => exact owns_owned (h _ hb)
  | _ => exact owns_zero

end
end FastLlm
