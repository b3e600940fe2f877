import FastLlm.Lib.MemSim
import FastLlm.Runtime.DecodeParams

/-!
# The operations at other places

A parameter block says where the buffers of an operation are.  With the same numbers and the buffers
at places `f`, an operation does the same.

## Main definitions

* `Held` — a buffer is at the places `f`.
* `sim_opRmsnorm`, `sim_opRopeDs2`, … — one lemma for each operation.
-/

namespace FastLlm

open MemProg (Sim Places get put)

/-- The `n` words at `x` are at `x'`, in `S`. -/
def Held (f : Loc → Loc) (S : Set Loc) (x x' : Loc) (n : ℕ) : Prop :=
  ∀ i < n, f (x.add i) = x'.add i ∧ x.add i ∈ S

section
variable {E : FloatOps} {f : Loc → Loc} {T A U : Set Loc}

theorem Held.get {x x' : Loc} {n i : ℕ} (h : Held f A x x' n) (hi : i < n) (hA : A ⊆ T) :
    Sim f T A ∅ (get (x'.add i) : Exec Word) (get (x.add i)) :=
  .get (h i hi).1 (h i hi).2 hA

theorem Held.put {x x' : Loc} {n i : ℕ} (h : Held f U x x' n) (hi : i < n) (hp : Places f T A U)
    (v : Word) : Sim f T A {x.add i} (put (x'.add i) v) (put (x.add i) v) :=
  hp.put (h i hi).1 (h i hi).2 v

theorem Held.part {S : Set Loc} {x x' : Loc} {n k m : ℕ} (h : Held f S x x' n) (hk : k + m ≤ n) :
    Held f S (x.add k) (x'.add k) m := by
  intro i hi
  rw [Loc.add_add, Loc.add_add]
  exact h (k + i) (by omega)

theorem Held.take {S : Set Loc} {x x' : Loc} {n m : ℕ} (h : Held f S x x' n) (hm : m ≤ n) :
    Held f S x x' m :=
  fun i hi => h i (hi.trans_le hm)

theorem Held.mono {S S' : Set Loc} {x x' : Loc} {n : ℕ} (h : Held f S x x' n) (hS : S ⊆ S') :
    Held f S' x x' n :=
  fun i hi => ⟨(h i hi).1, hS (h i hi).2⟩

theorem Held.singleton_subset {S : Set Loc} {x x' : Loc} {n i : ℕ} (h : Held f S x x' n)
    (hi : i < n) : {x.add i} ⊆ S :=
  Set.singleton_subset_iff.mpr (h i hi).2

theorem sim_opRmsnorm (P : RmsNormP) (w x y : Loc) (hp : Places f T A U)
    (hw : Held f A w P.wnorm P.n) (hx : Held f A x P.x P.n) (hy : Held f U y P.y P.n) :
    Sim f T A {l | ∃ i < P.n, l ∈ ({y.add i} : Set Loc)} (opRmsnorm E P)
      (opRmsnorm E { P with wnorm := w, x := x, y := y }) :=
  (Sim.loop_reads (fun _ hi _ => (hx.get hi hp.known).bind_reads fun _ => .pure _) _).bind_reads
    fun _ => hp.forRange (fun _ hi => hy.singleton_subset hi) fun _ hi =>
      (hx.get hi hp.known).bind_reads fun _ => (hw.get hi hp.known).bind_reads fun _ =>
        hy.put hi hp _

theorem sim_opAdd2 (P : Add2P) (a b y : Loc) (hp : Places f T A U) (ha : Held f A a P.a P.n)
    (hb : Held f A b P.b P.n) (hy : Held f U y P.y P.n) :
    Sim f T A {l | ∃ i < P.n, l ∈ ({y.add i} : Set Loc)} (opAdd2 E P)
      (opAdd2 E { P with a := a, b := b, y := y }) :=
  hp.forRange (fun _ hi => hy.singleton_subset hi) fun _ hi =>
    (ha.get hi hp.known).bind_reads fun _ => (hb.get hi hp.known).bind_reads fun _ => hy.put hi hp _

theorem sim_opSiluMul (P : SiluMulP) (g u h : Loc) (hp : Places f T A U)
    (hg : Held f A g P.gate P.n) (hu : Held f A u P.up P.n) (hh : Held f U h P.h P.n) :
    Sim f T A {l | ∃ i < P.n, l ∈ ({h.add i} : Set Loc)} (opSiluMul E P)
      (opSiluMul E { P with gate := g, up := u, h := h }) :=
  hp.forRange (fun _ hi => hh.singleton_subset hi) fun _ hi =>
    (hg.get hi hp.known).bind_reads fun _ => (hu.get hi hp.known).bind_reads fun _ => hh.put hi hp _

/-- One pair of a head. -/
theorem sim_ropePair {v v' : Loc} {n j : ℕ} {c s : Word} {r : Word} (hp : Places f T A U)
    (hv : Held f A v v' n) (hU : Held f U v v' n) (hj : 2 * j + 1 < n) :
    Sim f T A ({v.add (2 * j)} ∪ {v.add (2 * j + 1)})
      (do
        let x0 ← get (v'.add (2 * j))
        let x1 ← get (v'.add (2 * j + 1))
        put (v'.add (2 * j)) (E.sub (E.mul x0 c) (E.mul x1 s))
        put (v'.add (2 * j + 1)) (E.add (E.mul x0 s) (E.mul x1 c))
        pure r)
      (do
        let x0 ← get (v.add (2 * j))
        let x1 ← get (v.add (2 * j + 1))
        put (v.add (2 * j)) (E.sub (E.mul x0 c) (E.mul x1 s))
        put (v.add (2 * j + 1)) (E.add (E.mul x0 s) (E.mul x1 c))
        pure r) := by
  have hlt : 2 * j < n := by omega
  have hw := hp.write (hU.singleton_subset hlt)
  refine (hv.get hlt hp.known).bind_reads fun x0 => (hv.get hj hp.known).bind_reads fun x1 =>
    (hU.put hlt hp _).bind fun _ => ?_
  have hlast := (hU.put hj hw (E.add (E.mul x0 s) (E.mul x1 c))).bind (X := ∅)
    fun _ => Sim.pure (f := f) (T := T) r
  rwa [Set.union_empty] at hlast

/-- In place; every pair lies inside the buffer. -/
theorem sim_opRopeDs2 (P : RopeP) (buf pos : Loc) {n : ℕ} (hp : Places f T A U)
    (hbuf : Held f A buf P.buf n) (hU : Held f U buf P.buf n) (hpos : Held f A pos P.pos 1)
    (hn : ∀ h < P.nHead, h * P.headStride + P.rotOff + 2 * ((P.nRot + 1) / 2) ≤ n) :
    Sim f T A {l | ∃ i < n, l = buf.add i} (opRopeDs2 E P)
      (opRopeDs2 E { P with buf := buf, pos := pos }) := by
  let W (h j : ℕ) : Set Loc :=
    {(buf.add (h * P.headStride + P.rotOff)).add (2 * j)} ∪
      {(buf.add (h * P.headStride + P.rotOff)).add (2 * j + 1)}
  have hW : ∀ h < P.nHead, ∀ j < (P.nRot + 1) / 2, W h j ⊆ {l | ∃ i < n, l = buf.add i} := by
    intro h hh j hj
    have := hn h hh
    rintro _ (rfl | rfl)
    · exact ⟨h * P.headStride + P.rotOff + 2 * j, by omega, Loc.add_add _ _ _⟩
    · exact ⟨h * P.headStride + P.rotOff + (2 * j + 1), by omega, Loc.add_add _ _ _⟩
  have hWU : ∀ h < P.nHead, ∀ j < (P.nRot + 1) / 2, W h j ⊆ U := by
    intro h hh j hj l hl
    obtain ⟨i, hi, rfl⟩ := hW h hh j hj hl
    exact (hU i hi).2
  have hrun : Sim f T A {l | ∃ h < P.nHead, l ∈ {l | ∃ j < (P.nRot + 1) / 2, l ∈ W h j} ∪ ∅}
      (opRopeDs2 E P) (opRopeDs2 E { P with buf := buf, pos := pos }) := by
    refine (hpos.get Nat.one_pos hp.known).bind_reads fun w => hp.forRange (fun h hh => ?_)
      fun h hh => (hp.loop (hWU h hh) (fun j hj theta => ?_) _).bind fun _ => .pure ()
    · rintro l (⟨j, hj, hl⟩ | hl)
      · exact hWU h hh j hj hl
      · exact absurd hl (Set.notMem_empty l)
    · have hle := hn h hh
      have hlt : 2 * j + 1 < 2 * ((P.nRot + 1) / 2) := by omega
      exact sim_ropePair hp (hbuf.part hle) (hU.part hle) hlt
  refine hp.sim_mono hrun subset_rfl ?_ ?_ ?_
  · rintro l ⟨h, hh, ⟨j, hj, hl⟩ | hl⟩
    · exact hWU h hh j hj hl
    · exact absurd hl (Set.notMem_empty l)
  · rintro l ⟨h, hh, ⟨j, hj, hl⟩ | hl⟩
    · exact hW h hh j hj hl
    · exact absurd hl (Set.notMem_empty l)
  · rintro _ ⟨i, hi, rfl⟩
    exact .inl (hbuf i hi).2

theorem sim_copyWord {x x' y y' : Loc} {n k i j : ℕ} (hp : Places f T A U) (hx : Held f A x x' n)
    (hy : Held f U y y' k) (hi : i < n) (hj : j < k) :
    Sim f T A {y.add j} (copyWord (x'.add i) (y'.add j)) (copyWord (x.add i) (y.add j)) :=
  (hx.get hi hp.known).bind_reads fun _ => hy.put hj hp _

/-- `fl_op_kv_append` behind the read of the position. -/
def kvRows (p : KvAppendP) (krow vrow : Loc) : Exec Unit :=
  MemProg.forRange p.nHead fun h => do
    let src := p.kvb.add (h * (p.dNope + p.dV))
    MemProg.forRange p.dNope fun d =>
      copyWord (src.add d) (krow.add (h * (p.dNope + p.dRope) + d))
    MemProg.forRange p.dRope fun d =>
      copyWord (p.kpe.add d) (krow.add (h * (p.dNope + p.dRope) + p.dNope + d))
    MemProg.forRange p.dV fun d => copyWord (src.add (p.dNope + d)) (vrow.add (h * p.dV + d))

theorem opKvAppend_eq (p : KvAppendP) :
    opKvAppend p = MemProg.bind (get p.pos) fun w =>
      kvRows p (p.kcache.add (w.toNat * p.nHead * (p.dNope + p.dRope)))
        (p.vcache.add (w.toNat * p.nHead * p.dV)) := rfl

/-- Element `d` of row `h`. -/
theorem mul_add_lt {h n d k : ℕ} (hh : h < n) (hd : d < k) : h * k + d < n * k :=
  calc h * k + d < h * k + k := Nat.add_lt_add_left hd _
    _ = (h + 1) * k := (Nat.succ_mul h k).symm
    _ ≤ n * k := Nat.mul_le_mul_right k hh

theorem exists_mul_add {i n k : ℕ} (hi : i < n * k) : ∃ h < n, ∃ d < k, i = h * k + d := by
  have hk : 0 < k := Nat.pos_of_ne_zero fun h0 => by simp [h0] at hi
  exact ⟨i / k, Nat.div_lt_of_lt_mul (by rwa [Nat.mul_comm]), i % k, Nat.mod_lt _ hk, by
    rw [Nat.mul_comm, Nat.div_add_mod]⟩

theorem sim_kvRows (P : KvAppendP) (kvb kpe kc vc pos krow krow' vrow vrow' : Loc)
    (hp : Places f T A U) (hkvb : Held f A kvb P.kvb (P.nHead * (P.dNope + P.dV)))
    (hkpe : Held f A kpe P.kpe P.dRope)
    (hk : Held f U krow krow' (P.nHead * (P.dNope + P.dRope)))
    (hv : Held f U vrow vrow' (P.nHead * P.dV)) :
    Sim f T A ({l | ∃ i < P.nHead * (P.dNope + P.dRope), l = krow.add i} ∪
        {l | ∃ i < P.nHead * P.dV, l = vrow.add i})
      (kvRows P krow' vrow')
      (kvRows { P with kvb := kvb, kpe := kpe, kcache := kc, vcache := vc, pos := pos }
        krow vrow) := by
  let w := P.dNope + P.dRope
  let nope (h : ℕ) : Set Loc := {l | ∃ d < P.dNope, l ∈ ({krow.add (h * w + d)} : Set Loc)}
  let rope (h : ℕ) : Set Loc :=
    {l | ∃ d < P.dRope, l ∈ ({krow.add (h * w + P.dNope + d)} : Set Loc)}
  let val (h : ℕ) : Set Loc := {l | ∃ d < P.dV, l ∈ ({vrow.add (h * P.dV + d)} : Set Loc)}
  have hnope {h d : ℕ} (hh : h < P.nHead) (hd : d < P.dNope) : h * w + d < P.nHead * w :=
    mul_add_lt hh (Nat.lt_add_right _ hd)
  have hrope {h d : ℕ} (hh : h < P.nHead) (hd : d < P.dRope) :
      h * w + P.dNope + d < P.nHead * w := by
    rw [Nat.add_assoc]
    exact mul_add_lt hh (Nat.add_lt_add_left hd _)
  have hnopeU {h : ℕ} (hh : h < P.nHead) : nope h ⊆ U := by
    rintro _ ⟨d, hd, rfl⟩
    exact (hk _ (hnope hh hd)).2
  have hropeU {h : ℕ} (hh : h < P.nHead) : rope h ⊆ U := by
    rintro _ ⟨d, hd, rfl⟩
    exact (hk _ (hrope hh hd)).2
  have hvalU {h : ℕ} (hh : h < P.nHead) : val h ⊆ U := by
    rintro _ ⟨d, hd, rfl⟩
    exact (hv _ (mul_add_lt hh hd)).2
  have hrun : Sim f T A {l | ∃ h < P.nHead, l ∈ nope h ∪ (rope h ∪ val h)}
      (kvRows P krow' vrow')
      (kvRows { P with kvb := kvb, kpe := kpe, kcache := kc, vcache := vc, pos := pos }
        krow vrow) := by
    refine hp.forRange (fun h hh => Set.union_subset (hnopeU hh)
      (Set.union_subset (hropeU hh) (hvalU hh))) fun h hh => ?_
    have hle : h * (P.dNope + P.dV) + (P.dNope + P.dV) ≤ P.nHead * (P.dNope + P.dV) := by
      rw [← Nat.succ_mul]
      exact Nat.mul_le_mul_right _ hh
    have hsrc := hkvb.part hle
    have hp1 := hp.write (hnopeU hh)
    have hp2 := hp1.write (hropeU hh)
    refine Sim.bind (W := nope h) (hp.forRange
      (fun d hd => hk.singleton_subset (hnope hh hd)) fun d hd =>
        sim_copyWord hp hsrc hk (Nat.lt_add_right _ hd) (hnope hh hd)) fun _ => ?_
    refine Sim.bind (W := rope h) (hp1.forRange
      (fun d hd => hk.singleton_subset (hrope hh hd)) fun d hd =>
        sim_copyWord hp1 (hkpe.mono Set.subset_union_left) hk hd (hrope hh hd)) fun _ => ?_
    exact hp2.forRange (fun d hd => hv.singleton_subset (mul_add_lt hh hd)) fun d hd =>
      sim_copyWord hp2 ((hsrc.mono Set.subset_union_left).mono Set.subset_union_left) hv
        (Nat.add_lt_add_left hd _) (mul_add_lt hh hd)
  refine hp.sim_mono hrun subset_rfl ?_ ?_ ?_
  · rintro l ⟨h, hh, hl | hl | hl⟩
    · exact hnopeU hh hl
    · exact hropeU hh hl
    · exact hvalU hh hl
  · rintro l ⟨h, hh, ⟨d, hd, rfl⟩ | ⟨d, hd, rfl⟩ | ⟨d, hd, rfl⟩⟩
    · exact .inl ⟨_, hnope hh hd, rfl⟩
    · exact .inl ⟨_, hrope hh hd, rfl⟩
    · exact .inr ⟨_, mul_add_lt hh hd, rfl⟩
  · rintro _ (⟨i, hi, rfl⟩ | ⟨i, hi, rfl⟩)
    · obtain ⟨h, hh, d, hd, rfl⟩ := exists_mul_add hi
      refine .inr ⟨h, hh, ?_⟩
      by_cases hlt : d < P.dNope
      · exact .inl ⟨d, hlt, rfl⟩
      · refine .inr (.inl ⟨d - P.dNope, by omega, ?_⟩)
        rw [Nat.add_assoc, Nat.add_sub_cancel' (Nat.not_lt.mp hlt)]
        rfl
    · obtain ⟨h, hh, d, hd, rfl⟩ := exists_mul_add hi
      exact .inr ⟨h, hh, .inr (.inr ⟨d, hd, rfl⟩)⟩

/-! ## Attention -/

theorem sim_attnScore {striped : Bool} {q q' k k' : Loc} {dk : ℕ} (hA : A ⊆ T)
    (hq : Held f A q q' dk) (hk : Held f A k k' dk) :
    Sim f T A ∅ (attnScore E striped q' k' dk) (attnScore E striped q k dk) := by
  cases striped with
  | true =>
    exact (Sim.loop_reads (fun _ hi _ => (hq.get hi hA).bind_reads fun _ =>
      (hk.get hi hA).bind_reads fun _ => .pure _) _).bind_reads fun _ => .pure _
  | false =>
    exact Sim.loop_reads (fun _ hi _ => (hq.get hi hA).bind_reads fun _ =>
      (hk.get hi hA).bind_reads fun _ => .pure _) _

variable (E) in
/-- `fl_op_attn_head` behind the read of the position, with `n` rows in the cache, the query of the
head at `q` and its output at `o`. -/
def attnRows (p : AttnHeadP) (n : ℕ) (q kc vc scr o : Loc) : Exec Unit := do
  let striped : Bool := p.dk % 8 = 0 ∧ p.dv % 4 = 0
  let mx ← MemProg.loop (fun j mx => do
    let k := kc.add ((j * p.nHead + p.head) * p.dk)
    let acc ← attnScore E striped q k p.dk
    let acc := E.mul acc p.scale
    put (scr.add j) acc
    pure (if E.lt mx acc then acc else mx)) n (E.lit (-1) 30)
  let sum ← MemProg.loop (fun j sum => do
    let s ← get (scr.add j)
    let e := E.exp (E.sub s mx)
    put (scr.add j) e
    pure (E.add sum e)) n (E.lit 0 0)
  let inv := E.div (E.lit 1 0) sum
  MemProg.forRange p.dv fun d => put (o.add d) (E.lit 0 0)
  MemProg.forRange n fun j => do
    let s ← get (scr.add j)
    let w := E.mul s inv
    let v := vc.add ((j * p.nHead + p.head) * p.dv)
    MemProg.forRange p.dv fun d => do
      let x ← get (v.add d)
      let a ← get (o.add d)
      put (o.add d) (if striped then E.fma w x a else E.add a (E.mul w x))

theorem opAttnHead_eq (p : AttnHeadP) :
    opAttnHead E p = MemProg.bind (get p.pos) fun w => attnRows E p (w + 1).toNat
      (p.q.add (p.head * p.dk)) p.kcache p.vcache p.scratch (p.out.add (p.head * p.dv)) := rfl

theorem sim_attnRows (P : AttnHeadP) {q q' kc kc' vc vc' scr scr' o o' : Loc} {n : ℕ}
    (hp : Places f T A U) (hq : Held f A q q' P.dk)
    (hk : ∀ j < n, Held f A (kc.add ((j * P.nHead + P.head) * P.dk))
      (kc'.add ((j * P.nHead + P.head) * P.dk)) P.dk)
    (hv : ∀ j < n, Held f A (vc.add ((j * P.nHead + P.head) * P.dv))
      (vc'.add ((j * P.nHead + P.head) * P.dv)) P.dv)
    (hs : Held f U scr scr' n) (ho : Held f U o o' P.dv) :
    Sim f T A ({l | ∃ i < n, l = scr.add i} ∪ {l | ∃ d < P.dv, l = o.add d})
      (attnRows E P n q' kc' vc' scr' o') (attnRows E P n q kc vc scr o) := by
  let S : Set Loc := {l | ∃ i < n, l ∈ {scr.add i} ∪ (∅ : Set Loc)}
  let O : Set Loc := {l | ∃ d < P.dv, l ∈ ({o.add d} : Set Loc)}
  have hSround : ∀ i < n, {scr.add i} ∪ (∅ : Set Loc) ⊆ U := by
    intro i hi
    rw [Set.union_empty]
    exact hs.singleton_subset hi
  have hSU : S ⊆ U := by
    rintro l ⟨i, hi, hl⟩
    exact hSround i hi hl
  have hOU : O ⊆ U := by
    rintro l ⟨d, hd, hl⟩
    exact ho.singleton_subset hd hl
  have hp1 := hp.write hSU
  have hp2 := hp1.write hSU
  have hp3 := hp2.write hOU
  have hsS : Held f (A ∪ S) scr scr' n := fun i hi =>
    ⟨(hs i hi).1, .inr ⟨i, hi, .inl rfl⟩⟩
  have hoO : Held f (A ∪ S ∪ S ∪ O) o o' P.dv := fun d hd => ⟨(ho d hd).1, .inr ⟨d, hd, rfl⟩⟩
  have hrun : Sim f T A (S ∪ (S ∪ (O ∪ {l | ∃ j < n, l ∈ O})))
      (attnRows E P n q' kc' vc' scr' o') (attnRows E P n q kc vc scr o) := by
    -- the scores
    refine Sim.bind (hp.loop hSround (fun j hj mx =>
      (sim_attnScore hp.known hq (hk j hj)).bind_reads fun _ =>
        (hs.put hj hp _).bind fun _ => .pure _) _) fun mx => ?_
    -- their exponentials
    refine Sim.bind (hp1.loop hSround (fun j hj sum =>
      (hsS.get hj hp1.known).bind_reads fun _ =>
        (hs.put hj hp1 _).bind fun _ => .pure _) _) fun sum => ?_
    refine Sim.bind (hp2.forRange (fun d hd => ho.singleton_subset hd) fun d hd =>
      ho.put hd hp2 _) fun _ => ?_
    -- the weighted rows
    exact hp3.forRange (fun j hj => hOU) fun j hj =>
      (((hsS.mono Set.subset_union_left).mono Set.subset_union_left).get hj
        hp3.known).bind_reads fun _ => hp3.forRange (fun d hd => ho.singleton_subset hd)
          fun d hd => (((((hv j hj).mono Set.subset_union_left).mono Set.subset_union_left).mono
            Set.subset_union_left).get hd hp3.known).bind_reads fun _ =>
              (hoO.get hd hp3.known).bind_reads fun _ => ho.put hd hp3 _
  refine hp.sim_mono hrun subset_rfl ?_ ?_ ?_
  · rintro l (hl | hl | hl | ⟨-, -, hl⟩)
    · exact hSU hl
    · exact hSU hl
    · exact hOU hl
    · exact hOU hl
  · rintro l (⟨i, hi, hl⟩ | ⟨i, hi, hl⟩ | hl | ⟨-, -, hl⟩)
    · exact .inl ⟨i, hi, hl.resolve_right (Set.notMem_empty l)⟩
    · exact .inl ⟨i, hi, hl.resolve_right (Set.notMem_empty l)⟩
    · exact .inr hl
    · exact .inr hl
  · rintro l (⟨i, hi, rfl⟩ | hl)
    · exact .inr (.inl ⟨i, hi, .inl rfl⟩)
    · exact .inr (.inr (.inr (.inl hl)))

/-! ## Routing and merging -/

theorem sim_routerWeights (P : RouterP) (lg ids gates : Loc) (hA : A ⊆ T)
    (hl : Held f A lg P.logits P.nExpert) :
    Sim f T A ∅ (routerWeights E P)
      (routerWeights E { P with logits := lg, ids := ids, gates := gates }) :=
  (Sim.loop_reads (fun _ hi _ => (hl.get hi hA).bind_reads fun _ => .pure _) _).bind_reads
    fun _ => (Sim.loop_reads (fun _ hi _ => (hl.get hi hA).bind_reads fun _ => .pure _)
      _).bind_reads fun _ => .pure _

theorem sim_routerTaken (P : RouterP) (lg ids gates : Loc) {k i : ℕ} (hA : A ⊆ T)
    (hi : Held f A ids P.ids k) :
    Sim f T A ∅ (routerTaken P k i)
      (routerTaken { P with logits := lg, ids := ids, gates := gates } k i) := by
  refine Sim.loop_reads (fun k2 hk taken => ?_) _
  cases taken with
  | true => exact .pure _
  | false => exact (hi.get hk hA).bind_reads fun _ => .pure _

theorem sim_opRouterSel (P : RouterP) (lg ids gates : Loc) (hp : Places f T A U)
    (hl : Held f A lg P.logits P.nExpert) (hi : Held f U ids P.ids P.topK)
    (hg : Held f U gates P.gates P.topK) :
    Sim f T A ({l | ∃ k < P.topK, l = ids.add k} ∪ {l | ∃ k < P.topK, l = gates.add k})
      (opRouterSel E P) (opRouterSel E { P with logits := lg, ids := ids, gates := gates }) := by
  let W (k : ℕ) : Set Loc := {ids.add k} ∪ ({gates.add k} ∪ ∅)
  let S : Set Loc := {l | ∃ k < P.topK, l ∈ W k}
  let G : Set Loc := {l | ∃ k < P.topK, l ∈ ({gates.add k} : Set Loc)}
  have hWU : ∀ k < P.topK, W k ⊆ U := by
    rintro k hk l (rfl | rfl | hl)
    · exact (hi k hk).2
    · exact (hg k hk).2
    · exact absurd hl (Set.notMem_empty l)
  have hpart (k : ℕ) (hk : k ≤ P.topK) : Places f T (A ∪ {l | ∃ j < k, l ∈ W j}) U := by
    apply hp.write
    rintro l ⟨j, hj, hl⟩
    exact hWU j (hj.trans_le hk) hl
  have hp1 : Places f T (A ∪ S) U := hpart P.topK le_rfl
  have hgS : Held f (A ∪ S) gates P.gates P.topK := fun k hk =>
    ⟨(hg k hk).1, .inr ⟨k, hk, .inr (.inl rfl)⟩⟩
  have hidsS (k : ℕ) (hk : k ≤ P.topK) : Held f (A ∪ {l | ∃ j < k, l ∈ W j}) ids P.ids k :=
    fun j hj => ⟨(hi j (hj.trans_le hk)).1, .inr ⟨j, hj, .inl rfl⟩⟩
  have hscale {k : ℕ} (hk : k < P.topK) {A' : Set Loc} (hp' : Places f T A' U)
      (hg' : Held f A' gates P.gates P.topK) (h : Word → Word) :
      Sim f T A' {gates.add k} (MemProg.bind (get (P.gates.add k)) fun g => put (P.gates.add k) (h g))
        (MemProg.bind (get (gates.add k)) fun g => put (gates.add k) (h g)) :=
    (hg'.get hk hp'.known).bind_reads fun _ => hg.put hk hp' _
  have hrun : Sim f T A (S ∪ G) (opRouterSel E P)
      (opRouterSel E { P with logits := lg, ids := ids, gates := gates }) := by
    refine (sim_routerWeights P lg ids gates hp.known hl).bind_reads fun w => ?_
    refine Sim.bind (Sim.loop (fun k hk tsum => ?_) _) fun tsum => ?_
    · have hpk := hpart k hk.le
      refine (Sim.loop_reads (fun i _ b => ?_) _).bind_reads fun b => ?_
      · exact (sim_routerTaken P lg ids gates hpk.known (hidsS k hk.le)).bind_reads
          fun _ => .pure _
      · have hpw := hpk.write (hi.singleton_subset hk)
        exact (hi.put hk hpk _).bind fun _ => (hg.put hk hpw _).bind fun _ => .pure _
    · refine hp1.forRange (fun k hk => hg.singleton_subset hk) fun k hk => ?_
      by_cases hnorm : P.norm = true
      · rw [if_pos hnorm, if_pos hnorm]
        have hdiv := hscale hk hp1 hgS fun g => E.div g tsum
        have hmul := hscale hk (hp1.write (hg.singleton_subset hk))
          (hgS.mono Set.subset_union_left) fun g => E.mul g P.scale
        have hboth := hdiv.bind fun _ => hmul
        rw [Set.union_self] at hboth
        exact hboth
      · rw [if_neg hnorm, if_neg hnorm]
        exact hscale hk hp1 hgS fun g => E.mul g P.scale
  refine hp.sim_mono hrun subset_rfl ?_ ?_ ?_
  · rintro l (⟨k, hk, hl⟩ | ⟨k, hk, rfl⟩)
    · exact hWU k hk hl
    · exact (hg k hk).2
  · rintro l (⟨k, hk, rfl | rfl | hl⟩ | ⟨k, hk, rfl⟩)
    · exact .inl ⟨k, hk, rfl⟩
    · exact .inr ⟨k, hk, rfl⟩
    · exact absurd hl (Set.notMem_empty l)
    · exact .inr ⟨k, hk, rfl⟩
  · rintro _ (⟨k, hk, rfl⟩ | ⟨k, hk, rfl⟩)
    · exact .inr (.inl ⟨k, hk, .inl rfl⟩)
    · exact .inr (.inl ⟨k, hk, .inr (.inl rfl)⟩)

theorem sim_sumGates {g g' : Loc} {n : ℕ} (hA : A ⊆ T) (hg : Held f A g g' n) :
    Sim f T A ∅ (sumGates E g' n) (sumGates E g n) :=
  Sim.loop_reads (fun _ hi _ => (hg.get hi hA).bind_reads fun _ => .pure _) _

theorem sim_wmergeScale (P : WmergeP) (parts g y : Loc) (a b : Option Loc) {ng : ℕ} (hA : A ⊆ T)
    (hg : ∀ g' ∈ P.gates, Held f A g g' ng)
    (hng : P.nParts ≤ ng ∧ (P.nParts < P.nFull → P.nFull ≤ ng)) :
    Sim f T A ∅ (wmergeScale E P)
      (wmergeScale E
        { P with parts := parts, gates := P.gates.map fun _ => g, add1 := a, add2 := b
                 y := y }) := by
  rw [wmergeScale, wmergeScale]
  cases hgates : P.gates with
  | none => exact .pure _
  | some g' =>
    have hheld := hg g' (by simp [hgates])
    by_cases hlt : P.nParts < P.nFull
    · simp only [Option.map_some, if_pos hlt]
      exact (sim_sumGates hA (hheld.take hng.1)).bind_reads fun _ =>
        (sim_sumGates hA (hheld.take (hng.2 hlt))).bind_reads fun _ => .pure _
    · simp only [Option.map_some, if_neg hlt]
      exact .pure _

theorem sim_opWmerge (P : WmergeP) (parts g a b y : Loc) {k : ℕ} (hp : Places f T A U)
    (hparts : Held f A parts P.parts (P.nParts * P.n)) (hg : ∀ g' ∈ P.gates, Held f A g g' k)
    (hng : P.nParts ≤ k ∧ (P.nParts < P.nFull → P.nFull ≤ k))
    (ha : ∀ a' ∈ P.add1, Held f A a a' P.n) (hb : ∀ b' ∈ P.add2, Held f A b b' P.n)
    (hy : Held f U y P.y P.n) :
    Sim f T A {l | ∃ i < P.n, l ∈ ({y.add i} : Set Loc)} (opWmerge E P)
      (opWmerge E
        { P with parts := parts, gates := P.gates.map fun _ => g, add1 := P.add1.map fun _ => a
                 add2 := P.add2.map fun _ => b, y := y }) := by
  refine (sim_wmergeScale P parts g y _ _ hp.known hg hng).bind_reads fun gsc =>
    hp.forRange (fun i hi => hy.singleton_subset hi) fun i hi =>
      (Sim.loop_reads (fun q hq acc => ?_) _).bind_reads fun acc => ?_
  · have hpart (w : Word) : Sim f T A ∅
        (MemProg.bind (get (P.parts.add (q * P.n + i))) fun x => .pure (E.add acc (E.mul w x)))
        (MemProg.bind (get (parts.add (q * P.n + i))) fun x => .pure (E.add acc (E.mul w x))) :=
      (hparts.get (mul_add_lt hq hi) hp.known).bind_reads fun _ => .pure _
    cases hgates : P.gates with
    | none => exact hpart _
    | some g' =>
      exact ((hg g' (by simp [hgates])).get (hq.trans_le hng.1) hp.known).bind_reads fun _ =>
        hpart _
  · cases hadd1 : P.add1 with
    | none =>
      cases hadd2 : P.add2 with
      | none => exact hy.put hi hp _
      | some b' =>
        exact ((hb b' (by simp [hadd2])).get hi hp.known).bind_reads fun _ => hy.put hi hp _
    | some a' =>
      refine ((ha a' (by simp [hadd1])).get hi hp.known).bind_reads fun x => ?_
      cases hadd2 : P.add2 with
      | none => exact hy.put hi hp _
      | some b' =>
        exact ((hb b' (by simp [hadd2])).get hi hp.known).bind_reads fun _ => hy.put hi hp _

end
end FastLlm
