import Mathlib
import FastLlm.Lib.WriteApart
import FastLlm.Model.PassOps

/-!
# The heads of a position

The values of a pass run all heads one after the other in a memory of their own.  In the graph they
are tasks of their own, which share the query and the cache and write apart: each leaves its part of
what all of them leave one after the other (`attnHeads_eq`).

## Main definitions

* `headOut` — what a head leaves.
* `triple_addHead` — a head as a task.
-/

namespace FastLlm
open Assn Build
open MemProg (Sim Places)
open TaskModel (Triple)

/-! ## One head after the other -/

section
variable (N : Numerics) (D : Decoder)

/-- The parameters of head `hh` on buffers of its own. -/
def headParams (hh : ℕ) : AttnHeadP :=
  { q := ⟨0, 0⟩, kcache := ⟨1, 0⟩, vcache := ⟨2, 0⟩, scratch := ⟨3, hh * D.o.maxKv.toNat⟩
    out := ⟨4, 0⟩, pos := ⟨5, 0⟩, scale := D.hp.kqScale, head := hh, nHead := D.hp.nHead.toNat
    dk := D.hp.dk.toNat, dv := D.hp.dv.toNat }

/-- What head `hh` leaves of the query `q` and `n` rows of the cache. -/
def headOut (q ks vs : List Word) (n hh : ℕ) : List Word :=
  runOp (attnRows N.E (headParams D hh) n ((⟨0, 0⟩ : Loc).add (hh * D.hp.dk.toNat)) ⟨1, 0⟩ ⟨2, 0⟩
    ⟨3, 0⟩ ⟨4, 0⟩) [q, ks, vs] 4 D.hp.dv.toNat

@[simp] theorem length_headOut (q ks vs : List Word) (n hh : ℕ) :
    (headOut N D q ks vs n hh).length = D.hp.dv.toNat := length_runOp _ _ _ _

/-- Head `hh` with its scratch and its output behind those of the heads before it. -/
def headAmong (n hh : ℕ) : Exec Unit :=
  attnRows N.E (headParams D hh) n ((⟨0, 0⟩ : Loc).add (hh * D.hp.dk.toNat)) ⟨1, 0⟩ ⟨2, 0⟩
    ⟨3, hh * D.o.maxKv.toNat⟩ ((⟨4, 0⟩ : Loc).add (hh * D.hp.dv.toNat))

/-- Where the scratch and the output of head `hh` lie among those of all heads. -/
def amongHeads (hh : ℕ) (l : Loc) : Loc :=
  if l.obj = 3 then ⟨3, hh * D.o.maxKv.toNat + l.off⟩
  else if l.obj = 4 then ⟨4, hh * D.hp.dv.toNat + l.off⟩
  else l

variable {N D} {n hh : ℕ}

theorem sim_headAmong :
    Sim (amongHeads D hh)
      ({l | l.obj ≤ 2} ∪ ((⟨3, 0⟩ : Loc).span n ∪ (⟨4, 0⟩ : Loc).span D.hp.dv.toNat)) {l | l.obj ≤ 2}
      ((⟨3, 0⟩ : Loc).span n ∪ (⟨4, 0⟩ : Loc).span D.hp.dv.toNat) (headAmong N D n hh)
      (attnRows N.E (headParams D hh) n ((⟨0, 0⟩ : Loc).add (hh * D.hp.dk.toNat)) ⟨1, 0⟩ ⟨2, 0⟩
        ⟨3, 0⟩ ⟨4, 0⟩) := by
  have hp : Places (amongHeads D hh)
      ({l | l.obj ≤ 2} ∪ ((⟨3, 0⟩ : Loc).span n ∪ (⟨4, 0⟩ : Loc).span D.hp.dv.toNat))
      {l | l.obj ≤ 2} ((⟨3, 0⟩ : Loc).span n ∪ (⟨4, 0⟩ : Loc).span D.hp.dv.toNat) := by
    refine ⟨Set.subset_union_left, Set.subset_union_right, ?_⟩
    rintro _ (⟨i, -, rfl⟩ | ⟨i, -, rfl⟩) k hk heq
    · rcases hk with hk | ⟨j, -, rfl⟩ | ⟨j, -, rfl⟩
      · have hk : k.obj ≤ 2 := hk
        rw [amongHeads, if_neg (by omega), if_neg (by omega)] at heq
        rw [heq] at hk
        simp [amongHeads] at hk
      · simpa [amongHeads, Loc.add] using heq
      · simp [amongHeads, Loc.add] at heq
    · rcases hk with hk | ⟨j, -, rfl⟩ | ⟨j, -, rfl⟩
      · have hk : k.obj ≤ 2 := hk
        rw [amongHeads, if_neg (by omega), if_neg (by omega)] at heq
        rw [heq] at hk
        simp [amongHeads] at hk
      · simp [amongHeads, Loc.add] at heq
      · simpa [amongHeads, Loc.add] using heq
  have hknown {k i j : ℕ} (hk : k ≤ 2) : Held (amongHeads D hh) {l | l.obj ≤ 2}
      ((⟨k, 0⟩ : Loc).add i) ((⟨k, 0⟩ : Loc).add i) j := by
    intro e _
    refine ⟨?_, hk⟩
    rw [amongHeads, if_neg (by simp only [Loc.obj_add]; omega),
      if_neg (by simp only [Loc.obj_add]; omega)]
  refine sim_attnRows (headParams D hh) hp (hknown (by decide)) (fun j _ => hknown (by decide))
    (fun j _ => hknown (by decide)) (fun i hi => ⟨?_, .inl ⟨i, hi, rfl⟩⟩)
    fun i hi => ⟨?_, .inr ⟨i, hi, rfl⟩⟩
  · simp [amongHeads, Loc.add]
  · simp [amongHeads, Loc.add]

theorem amongHeads_of_le {l : Loc} (hl : l.obj ≤ 2) : amongHeads D hh l = l := by
  rw [amongHeads, if_neg (by omega), if_neg (by omega)]

/-- Different heads do not meet. -/
theorem amongHeads_disjoint {j : ℕ} (hn : n ≤ D.o.maxKv.toNat) (hne : hh ≠ j) :
    Disjoint (amongHeads D hh '' ((⟨3, 0⟩ : Loc).span n ∪ (⟨4, 0⟩ : Loc).span D.hp.dv.toNat))
      (amongHeads D j '' ({l | l.obj ≤ 2} ∪
        ((⟨3, 0⟩ : Loc).span n ∪ (⟨4, 0⟩ : Loc).span D.hp.dv.toNat))) := by
  have hrow {k a b : ℕ} (ha : a < k) (hb : b < k) (h : hh * k + a = j * k + b) : False := by
    apply hne
    have hk : 0 < k := Nat.zero_lt_of_lt ha
    have hdiv := congrArg (· / k) h
    simpa [Nat.mul_comm _ k, Nat.mul_add_div hk, Nat.div_eq_of_lt ha, Nat.div_eq_of_lt hb]
      using hdiv
  rw [Set.disjoint_left]
  rintro _ ⟨_, ⟨a, ha, rfl⟩ | ⟨a, ha, rfl⟩, rfl⟩ ⟨l, hl | ⟨b, hb, rfl⟩ | ⟨b, hb, rfl⟩, heq⟩
  · have hl : l.obj ≤ 2 := hl
    rw [amongHeads_of_le hl] at heq
    rw [heq] at hl
    simp [amongHeads] at hl
  · simp only [amongHeads, Loc.add, Loc.mk.injEq, zero_add, if_true, true_and] at heq
    exact hrow (ha.trans_le hn) (hb.trans_le hn) heq.symm
  · simp [amongHeads, Loc.add] at heq
  · have hl : l.obj ≤ 2 := hl
    rw [amongHeads_of_le hl] at heq
    rw [heq] at hl
    simp [amongHeads] at hl
  · simp [amongHeads, Loc.add] at heq
  · simp [amongHeads, Loc.add] at heq
    exact hrow ha hb heq.symm

/-- The heads one after the other leave what each leaves on its own. -/
theorem attnHeads_eq {q : List Word} {rows : List KvRow} {w : Word}
    (hn : (w + 1).toNat ≤ D.o.maxKv.toNat) :
    Pass.attnHeads N D q rows w = (List.range D.hp.nHead.toNat).flatMap
      (headOut N D q (rows.flatMap (·.k)) (rows.flatMap (·.v)) (w + 1).toNat) := by
  set ks := rows.flatMap (·.k)
  set vs := rows.flatMap (·.v)
  set n := (w + 1).toNat
  let m : Loc → Word := bufs [q, ks, vs, [], [], [w]]
  let W (hh : ℕ) : Set Loc :=
    amongHeads D hh '' ((⟨3, 0⟩ : Loc).span n ∪ (⟨4, 0⟩ : Loc).span D.hp.dv.toNat)
  let R (hh : ℕ) : Set Loc := amongHeads D hh '' ({l | l.obj ≤ 2} ∪
    ((⟨3, 0⟩ : Loc).span n ∪ (⟨4, 0⟩ : Loc).span D.hp.dv.toNat))
  have hreads (hh : ℕ) (μ : Loc → Word) : ((headAmong N D n hh).footprint μ).reads ⊆ R hh :=
    sim_headAmong.reads μ (μ ∘ amongHeads D hh) fun _ _ => rfl
  have hwrites (hh : ℕ) (μ : Loc → Word) : ((headAmong N D n hh).footprint μ).writes ⊆ W hh :=
    sim_headAmong.writes μ (μ ∘ amongHeads D hh) fun _ _ => rfl
  have hpos (hh : ℕ) : (⟨5, 0⟩ : Loc) ∉ W hh := by
    rintro ⟨_, ⟨i, -, rfl⟩ | ⟨i, -, rfl⟩, heq⟩ <;> simp [amongHeads, Loc.add] at heq
  have hout {hh d : ℕ} (hlt : hh < D.hp.nHead.toNat) (hd : d < D.hp.dv.toNat) :
      (MemProg.forRange D.hp.nHead.toNat (headAmong N D n)).final m ⟨4, hh * D.hp.dv.toNat + d⟩ =
        (headOut N D q ks vs n hh).getD d 0 := by
    have hmem : (⟨4, d⟩ : Loc) ∈ (⟨4, 0⟩ : Loc).span D.hp.dv.toNat := by simpa using hd
    have hplace : (⟨4, hh * D.hp.dv.toNat + d⟩ : Loc) = amongHeads D hh ⟨4, d⟩ := by
      simp [amongHeads]
    rw [hplace, MemProg.final_forRange_apart (R := R) (W := W) (fun i _ => hreads i)
      (fun i _ => hwrites i) (fun i _ j _ hne => ?_) hlt ⟨_, .inr hmem, rfl⟩, headOut,
      getD_runOp _ _ _ hd]
    · refine sim_headAmong.final_eq m (bufs [q, ks, vs]) (fun l hl => ?_) _ (.inr (.inr hmem))
      rw [amongHeads_of_le hl]
      have hl : l.obj ≤ 2 := hl
      obtain ⟨obj, off⟩ := l
      interval_cases obj <;> rfl
    · exact (amongHeads_disjoint hn hne).mono_right
        (Set.union_subset subset_rfl (Set.image_mono Set.subset_union_right))
  have hrun : (MemProg.forRange D.hp.nHead.toNat fun hh =>
      MemProg.bind (MemProg.get ⟨5, 0⟩) fun u => headAmong N D (u + 1).toNat hh).final m =
        (MemProg.forRange D.hp.nHead.toNat (headAmong N D n)).final m :=
    MemProg.final_forRange_get (h := fun hh u => headAmong N D (u + 1).toNat hh) (W := W)
      (fun hh _ => hwrites hh) fun hh _ => hpos hh
  have hlen : ∀ hh < D.hp.nHead.toNat, (headOut N D q ks vs n hh).length = D.hp.dv.toNat :=
    fun hh _ => length_headOut _ _ _ _ _ _ _
  apply List.ext_getElem
  · rw [length_rows hlen]
    exact length_runOp _ _ _ _
  · intro i hi hi'
    have hlt : i < D.hp.nHead.toNat * D.hp.dv.toNat := by rwa [length_rows hlen] at hi'
    obtain ⟨hh, hhh, d, hd, rfl⟩ := exists_mul_add hlt
    rw [← List.getD_eq_getElem _ 0 hi, ← List.getD_eq_getElem _ 0 hi', getD_flatMap_rows hlen hhh hd,
      Pass.attnHeads, getD_runOp _ _ _ hlt, ← hout hhh hd, ← hrun]
    rfl

end

/-! ## Heads as tasks -/

variable {S : Setting} {p n : ℕ} {l : UInt32} {w : Word} {q ctx scr : Loc} {qv ks vs : List Word}
  {deps dq da ds dc : List ℕ}

/-- One head: its scores are forgotten. -/
theorem triple_addHead (hL : S.Laid) {hh : ℕ} {oldS oldC : List Word}
    (hw : S.μ (S.D.pos.add p) = w) (hn : (w + 1).toNat = n) (hlt : hh < S.D.hp.nHead.toNat)
    (hq : qv.length = S.D.hp.nHead.toNat * S.D.hp.dk.toNat)
    (hk : ks.length = n * (S.D.hp.nHead.toNat * S.D.hp.dk.toNat))
    (hv : vs.length = n * (S.D.hp.nHead.toNat * S.D.hp.dv.toNat)) (hos : oldS.length = n)
    (hoc : oldC.length = S.D.hp.dv.toNat) (hdq : dq ⊆ deps) (hda : da ⊆ deps) (hds : ds ⊆ deps)
    (hdc : dc ⊆ deps) :
    S.model.Triple (idle ds (scr.add (hh * S.D.o.maxKv.toNat)) oldS +
        idle dc (ctx.add (hh * S.D.hp.dv.toNat)) oldC +
        (ready dq q qv + (ready da (kcOf S.D l) ks + ready da (vcOf S.D l) vs)))
      (addAuxOp .ATTN_HEAD (.attnHead
        { q := q, kcache := kcOf S.D l, vcache := vcOf S.D l
          scratch := scr.add (hh * S.D.o.maxKv.toNat), out := ctx, pos := S.D.pos.add p
          scale := S.D.hp.kqScale, head := hh, nHead := S.D.hp.nHead.toNat, dk := S.D.hp.dk.toNat
          dv := S.D.hp.dv.toNat }) deps) fun id =>
        idle [id] (ctx.add (hh * S.D.hp.dv.toNat)) (headOut S.N S.D qv ks vs n hh) +
          (ready dq q qv + (ready da (kcOf S.D l) ks + ready da (vcOf S.D l) vs)) := by
  let P : AttnHeadP :=
    { q := q, kcache := kcOf S.D l, vcache := vcOf S.D l
      scratch := scr.add (hh * S.D.o.maxKv.toNat), out := ctx, pos := S.D.pos.add p
      scale := S.D.hp.kqScale, head := hh, nHead := S.D.hp.nHead.toNat, dk := S.D.hp.dk.toNat
      dv := S.D.hp.dv.toNat }
  let alone : Exec Unit := attnRows S.N.E (headParams S.D hh) n
    ((⟨0, 0⟩ : Loc).add (hh * S.D.hp.dk.toNat)) ⟨1, 0⟩ ⟨2, 0⟩ ⟨3, 0⟩ ⟨4, 0⟩
  let bs : List Buf := [.read dq q qv, .read da (kcOf S.D l) ks, .read da (vcOf S.D l) vs,
    .write ds P.scratch oldS (runOp alone [qv, ks, vs] 3 n),
    .write dc (ctx.add (hh * S.D.hp.dv.toNat)) oldC (headOut S.N S.D qv ks vs n hh)]
  have hpart {d : ℕ} : hh * d + d ≤ S.D.hp.nHead.toNat * d := by
    rw [← Nat.succ_mul]
    exact Nat.mul_le_mul_right _ hlt
  have hrow {j d : ℕ} (hj : j < n) :
      (j * S.D.hp.nHead.toNat + hh) * d + d ≤ n * (S.D.hp.nHead.toNat * d) := by
    rw [← Nat.succ_mul, ← Nat.mul_assoc]
    exact Nat.mul_le_mul_right _ (mul_add_lt hj hlt)
  have hqh : Held (place bs) (knownCells bs) ⟨0, 0⟩ q (S.D.hp.nHead.toNat * S.D.hp.dk.toNat) :=
    held_known rfl rfl hq.ge
  have hkh : Held (place bs) (knownCells bs) ⟨1, 0⟩ (kcOf S.D l)
      (n * (S.D.hp.nHead.toNat * S.D.hp.dk.toNat)) := held_known rfl rfl hk.ge
  have hvh : Held (place bs) (knownCells bs) ⟨2, 0⟩ (vcOf S.D l)
      (n * (S.D.hp.nHead.toNat * S.D.hp.dv.toNat)) := held_known rfl rfl hv.ge
  have hrows : Performs (constAt S.D.pos) S.μ
      (attnRows S.N.E P n (q.add (hh * S.D.hp.dk.toNat)) (kcOf S.D l) (vcOf S.D l) P.scratch
        (ctx.add (hh * S.D.hp.dv.toNat))) (inputs bs) (outputs bs) (results bs) := by
    refine performs_op (q := alone) (c := [qv, ks, vs])
      (W := (⟨3, 0⟩ : Loc).span n ∪ (⟨4, 0⟩ : Loc).span S.D.hp.dv.toNat) ?_ ?_ ?_ ?_
      (Set.union_subset (span_subset_outCells rfl rfl hos.ge)
        (span_subset_outCells rfl rfl hoc.ge)) fun hpl =>
          sim_attnRows (headParams S.D hh) hpl
            (hqh.part hpart) (fun j hj => hkh.part (hrow hj)) (fun j hj => hvh.part (hrow hj))
            (held_out rfl rfl rfl hos.ge) (held_out rfl rfl rfl hoc.ge)
    · simp [ConstsIn, bs]
    · simp [bs]
    · simp [bs, hos, hoc, headOut, alone]
    · simp [bs, hos, hoc]
  have hp : Performs (constAt S.D.pos) S.μ (opAttnHead S.N.E P) (inputs bs) (outputs bs)
      (results bs) := by
    rw [opAttnHead_eq]
    refine Performs.get (.inr rfl) ?_
    have hword : S.μ P.pos = w := hw
    rw [hword, hn]
    exact hrows
  have h : S.model.Triple (inputs bs + outputs bs) (addAuxOp .ATTN_HEAD (.attnHead P) deps)
      fun id => inputs bs + results bs id :=
    triple_addAuxOp hL (by simp [bs, hdq, hda, hds, hdc]) hp rfl rfl fun id => rfl
  refine (h.pre (le_of_eq ?_)).post fun id => ?_
  · simp only [bs, inputs_cons, inputs_nil, outputs_cons, outputs_nil, Buf.input, Buf.output,
      add_zero, zero_add]
    ac_rfl
  · simp only [bs, inputs_cons, inputs_nil, results_cons, results_nil, Buf.input, Buf.result,
      add_zero, zero_add]
    calc _ ≤ _ := add_le_add_right (add_le_right _ _) _
      _ = _ := add_comm _ _

/-- **The heads of a position** leave the attention of the position. -/
theorem triple_addHeads (hL : S.Laid) {oldS : ℕ → List Word} {oldC : ℕ → List Word}
    {rows : List KvRow} (hw : S.μ (S.D.pos.add p) = w) (hn : (w + 1).toNat = rows.length)
    (hmax : rows.length ≤ S.D.o.maxKv.toNat)
    (hq : qv.length = S.D.hp.nHead.toNat * S.D.hp.dk.toNat)
    (hk : ∀ r ∈ rows, r.k.length = S.D.hp.nHead.toNat * S.D.hp.dk.toNat)
    (hv : ∀ r ∈ rows, r.v.length = S.D.hp.nHead.toNat * S.D.hp.dv.toNat)
    (hos : ∀ hh, (oldS hh).length = rows.length) (hoc : ∀ hh, (oldC hh).length = S.D.hp.dv.toNat)
    (hdq : dq ⊆ deps) (hda : da ⊆ deps) (hds : ds ⊆ deps) (hdc : dc ⊆ deps) :
    S.model.Triple
      (∑ hh ∈ Finset.range S.D.hp.nHead.toNat, (idle ds (scr.add (hh * S.D.o.maxKv.toNat)) (oldS hh) +
          idle dc (ctx.add (hh * S.D.hp.dv.toNat)) (oldC hh)) +
        (ready dq q qv + (ready da (kcOf S.D l) (rows.flatMap (·.k)) +
          ready da (vcOf S.D l) (rows.flatMap (·.v)))))
      (addHeads S.D l p q ctx scr deps) fun id =>
        idle [id] ctx (Pass.attnHeads S.N S.D qv rows w) +
          (ready dq q qv + (ready da (kcOf S.D l) (rows.flatMap (·.k)) +
            ready da (vcOf S.D l) (rows.flatMap (·.v)))) := by
  have hlen {k : ℕ} {g : KvRow → List Word} (hg : ∀ r ∈ rows, (g r).length = k) :
      (rows.flatMap g).length = rows.length * k := by
    rw [List.length_flatMap, List.map_congr_left hg, List.map_const', List.sum_replicate]
    rfl
  refine Triple.mapM_bind (Q := fun hh id =>
      idle [id] (ctx.add (hh * S.D.hp.dv.toNat)) (headOut S.N S.D qv (rows.flatMap (·.k))
        (rows.flatMap (·.v)) rows.length hh)) (fun hh hlt => ?_) fun heads hheads => ?_
  · exact triple_addHead hL hw hn hlt hq (hlen hk) (hlen hv) (hos hh) (hoc hh) hdq hda hds hdc
  · refine (triple_fanIn (Reads.sum fun hh hlt => reads_idle_self ?_)).last le_rfl
      fun id => le_of_eq ?_
    · rw [← hheads] at hlt
      rw [List.getD_eq_getElem _ _ hlt]
      simp
    · rw [attnHeads_eq (hn.trans_le hmax), hn, idle_flatMap fun _ _ => length_headOut _ _ _ _ _ _ _]

end FastLlm
