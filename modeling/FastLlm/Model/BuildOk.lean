import FastLlm.Model.PassWiring

/-!
# A build dies only of a budget

For a decoder with the tensors its hyper-parameters call for, none of them empty, the
builder makes for every batch size and under every switch a graph that `freeze`
accepts, with the signal added last as the only sink.  It dies only when the task table,
the slots region or the arena is used up.

## Main definitions

* `GraphImpl.PassOK` — the graph of a pass.
* `buildGraphM_ok` — the builder makes one.
-/

namespace FastLlm
open Build

/-- A frozen graph whose last task, a `SIGNAL`, is the only one without a consumer. -/
structure GraphImpl.PassOK (g : GraphImpl) : Prop where
  frozen : g.frozen = true
  fan_out : ∀ p, (g.cons p).length ≤ kMaxConsumers
  acyclic : Acyclic g.cons g.size
  sink_iff : ∀ i < g.size, g.cons i = [] ↔ i = g.terminal
  terminal_last : g.terminal + 1 = g.size
  terminal_kind : (g.task g.terminal).kind = .SIGNAL
  checked : ∀ u ∈ g.tasks, Passes u.toTaskParams

/-- The graph of a wired pass freezes. -/
theorem Realizes.passOK {s : Plan} {st : BuildState} {mem : DecoderMem}
    (h : Realizes GraphImpl.Passes s st) {x : ℕ} (hstage : Stage (Plan.create mem) s ∅ {x}) (hout : s.out x = 0)
    (hx : s.task x = some rawSignal) (hnext : s.next = x + 1) (htight : s.tight = true) :
    ∃ g, st.g.freeze = .ok g ∧ g.PassOK := by
  obtain ⟨own, ht, -⟩ := h.tree
  have hfed : ∀ i, s.Has i → i ≠ x → s.out i ≠ 0 := by
    intro i hi hne
    rcases hstage.rest i hi with h0 | hf | ho
    · exact absurd h0 (by simp)
    · exact Plan.fed_iff_out.mp hf
    · exact absurd ho hne
  have hfreeze := h.freeze_eq hx rfl hout hfed
  obtain ⟨-, hok, -⟩ := GraphImpl.freeze_ok hfreeze ht.fresh ht.wf
  refine ⟨_, hfreeze, rfl, ht.wf.fan_out, ht.acyclic h.noCycle, hok.sink_iff, ?_, hok.terminal_kind,
    fun u hu => GraphImpl.checkTask_ok.mp (hok.checked u hu)⟩
  change x + 1 = st.g.size
  rw [h.tight htight, hnext]

/-! ## Tensors -/

section
variable {D : Decoder} {fs : UInt32 → UInt32} (hc : D.Consistent fs) (hne : D.NonEmpty)
include hc hne

/-- A layer of a consistent decoder has what a build needs. -/
theorem Decoder.Consistent.ready {l : UInt32} (hl : l < D.hp.nLayer) (hexp : 1 < D.hp.nExpert)
    (hused : D.hp.nUsed ≠ 0) : D.Ready l where
  tensor c hcl := by
    obtain ⟨w, hw, hload, -, hnexp⟩ := hc.blk l hl c hcl
    obtain ⟨hrows, hcols⟩ := hne _ w hw
    refine ⟨w, hw, ⟨hload, hrows⟩, fun hexps => hload.estride_ne hrows hcols ?_⟩
    rw [hnexp, if_pos hexps]
    exact hexp
  heads := by
    obtain ⟨w, hw, -, hshape, -⟩ := hc.blk l hl .attnQ (Decoder.common_mem (by decide))
    intro hz
    have hrows : w.rows = D.hp.nHead * D.hp.dk := congrArg Prod.fst hshape
    rw [hz, UInt32.zero_mul] at hrows
    exact (hne _ w hw).1 hrows
  used := hused

theorem Decoder.Consistent.passReady (hlayer : D.hp.nLayer ≠ 0) (hexp : 1 < D.hp.nExpert)
    (hused : D.hp.nUsed ≠ 0) : D.PassReady where
  layers := hlayer
  layer _ hl := hc.ready hne hl hexp hused
  outputNorm := by
    obtain ⟨w, hw, -⟩ := hc.outputNorm
    exact ⟨w, hw⟩
  output := by
    obtain ⟨w, hw, hload, -⟩ := hc.output
    exact ⟨w, hw, hload, (hne _ w hw).1⟩

end

/-! ## The build -/

/-- The text of the builder up to `freeze()` wires a graph that freezes. -/
theorem exec_wire {D : Decoder} (hD : D.PassReady) {m : ℕ} (hm : 1 ≤ m) (maxTasks : UInt32)
    (mem : DecoderMem) :
    Meets (· ∈ budgetErrors)
      (CmdProg.exec BuildState.run (wire D m) ⟨GraphImpl.create maxTasks, fun _ => none, mem⟩)
      fun r => ∃ g, r.2.g.freeze = .ok g ∧ g.PassOK := by
  have hex : "graph capacity exceeded" ∈ budgetErrors := by decide
  apply (CmdProg.exec_of_wp (run_refines GraphImpl.Passes hex) (.create _ maxTasks mem)
    (wires_wire hD hm (.create mem))).mono
  intro r ⟨s, hrel, term, hstage, hout, htask, hnext, htight⟩
  exact hrel.passOK hstage hout htask hnext htight

theorem buildGraphM_meets {D : Decoder} (hD : D.PassReady) {m : ℕ} (hm : 1 ≤ m)
    (mem : DecoderMem) : Meets (· ∈ budgetErrors) (buildGraphM D m mem) fun r => r.1.g.PassOK := by
  have halloc : Meets (· ∈ budgetErrors)
      (mem.alloc (taskBytes * (18000 * UInt32.ofNat m).toUInt64) 128) fun _ => True := by
    rw [DecoderMem.alloc, Arena.alloc]
    split_ifs
    · exact (by decide : "arena exhausted" ∈ budgetErrors)
    · exact trivial
  rw [buildGraphM]
  apply halloc.bind
  intro r0 _
  apply (exec_wire hD hm _ r0.1).bind
  rintro ⟨taps, s⟩ ⟨g, hg, hok⟩
  change Meets _ (s.g.freeze >>= _) _
  rw [hg]
  exact hok

/-- `build_graph_m` dies only when a budget is used up. -/
theorem buildGraphM_ok {D : Decoder} {fs : UInt32 → UInt32} {m : ℕ} (mem : DecoderMem)
    (hc : D.Consistent fs) (hne : D.NonEmpty) (hlayer : 1 ≤ D.hp.nLayer) (hexp : 2 ≤ D.hp.nExpert)
    (hused : 1 ≤ D.hp.nUsed) (hm : 1 ≤ m) :
    (∃ e ∈ budgetErrors, buildGraphM D m mem = .error e) ∨
      ∃ r, buildGraphM D m mem = .ok r ∧ r.1.g.PassOK := by
  have hD : D.PassReady := by
    apply hc.passReady hne _ (UInt32.lt_of_lt_of_le (by decide : (1 : UInt32) < 2) hexp)
    · rintro h0
      rw [h0] at hused
      exact absurd hused (by decide)
    · rintro h0
      rw [h0] at hlayer
      exact absurd hlayer (by decide)
  exact (buildGraphM_meets hD hm mem).error_or_ok

/-! ## Small decoders -/

/-- A tensor of floats, outside the arena. -/
def floatTensor (shape : UInt32 × UInt32) (nexp : UInt32) : WTensor where
  p := ⟨0, 0⟩
  fmt := .F32
  rows := shape.1
  cols := shape.2
  rowBytes := .ofNat (rowBytes .F32 shape.2.toNat)
  estride := if 1 < nexp then .ofNat (shape.1.toNat * rowBytes .F32 shape.2.toNat) else 0
  nexp := nexp

/-- The decoder with tensors of floats; the shared experts are `fs` wide. -/
def floatDecoder (hp : HParams) (o : BuildOpts) (fs : UInt32) : Decoder where
  hp := hp
  o := o
  weights
    | .tokenEmbd | .output => some (floatTensor (hp.nVocab, hp.nEmbd) 1)
    | .outputNorm => some (floatTensor (1, hp.nEmbd) 1)
    | .blk _ c => some (floatTensor (hp.shape fs c) (if c.isExps then hp.nExpert else 1))
  kcache := ⟨0, 0⟩
  vcache := ⟨0, 0⟩
  pos := ⟨0, 0⟩

theorem floatTensor_loaded {shape : UInt32 × UInt32} {nexp : UInt32}
    (h : shape.1.toNat * rowBytes .F32 shape.2.toNat < 2 ^ 64) :
    (floatTensor shape nexp).Loaded where
  blocks := Nat.mod_one _
  rowBytes_eq := by
    have hlt := shape.2.toNat_lt
    apply UInt64.toNat_ofNat_of_lt'
    change shape.2.toNat / 1 * 4 < 2 ^ 64
    omega
  estride_eq := by
    change (if 1 < nexp then _ else _ : UInt64).toNat = if 1 < nexp then _ else _
    split_ifs
    · exact UInt64.toNat_ofNat_of_lt' h
    · rfl

/-- A decoder of floats is consistent unless a tensor does not fit 64 bits. -/
theorem floatDecoder_consistent {hp : HParams} {o : BuildOpts} {fs : UInt32}
    (hblk : ∀ c, (hp.shape fs c).1.toNat * rowBytes .F32 (hp.shape fs c).2.toNat < 2 ^ 64)
    (hhead : hp.nVocab.toNat * rowBytes .F32 hp.nEmbd.toNat < 2 ^ 64) :
    (floatDecoder hp o fs).Consistent fun _ => fs where
  blk l _ c _ := ⟨_, rfl, floatTensor_loaded (hblk c), rfl, rfl⟩
  outputNorm := by
    refine ⟨_, rfl, floatTensor_loaded ?_, rfl, rfl⟩
    have hlt := hp.nEmbd.toNat_lt
    change 1 * (hp.nEmbd.toNat / 1 * 4) < 2 ^ 64
    omega
  output := ⟨_, rfl, floatTensor_loaded hhead, rfl, rfl, rfl⟩

theorem floatDecoder_nonEmpty {hp : HParams} {o : BuildOpts} {fs : UInt32}
    (hblk : ∀ c, (hp.shape fs c).1 ≠ 0 ∧ (hp.shape fs c).2 ≠ 0)
    (hhead : hp.nVocab ≠ 0 ∧ hp.nEmbd ≠ 0) : (floatDecoder hp o fs).NonEmpty := by
  intro n w hw
  cases n with
  | tokenEmbd | output =>
    obtain rfl := Option.some.inj hw
    exact hhead
  | outputNorm =>
    obtain rfl := Option.some.inj hw
    exact ⟨(by decide : (1 : UInt32) ≠ 0), hhead.2⟩
  | blk l c =>
    obtain rfl := Option.some.inj hw
    exact hblk c

/-- One layer of width 32 with `nHead` heads of width `dk`. -/
def smallHParams (nHead dk nDenseLead : UInt32) : HParams where
  nEmbd := 32
  nLayer := 1
  nHead := nHead
  nVocab := 8
  nDenseLead := nDenseLead
  nFfDense := 32
  nFfExp := 32
  nExpert := 2
  nUsed := 1
  kvLora := 32
  dk := dk
  dv := 32
  dRope := 8
  dNope := 24
  rmsEps := 0
  expertScale := 0
  expertNorm := 0
  freqBase := 0
  freqScale := 0
  extFactor := 0
  attnFactor := 0
  betaFast := 0
  betaSlow := 0
  nCtxOrig := 0
  kqScale := 0

/-- Memory enough for a small decoder. -/
def smallMem : DecoderMem := ⟨Arena.create 0x1000000, ⟨0, 0⟩, 0x10000, 0⟩

theorem buildGraphM_ok_small :
    (∃ e ∈ budgetErrors, buildGraphM (floatDecoder (smallHParams 1 32 0) {} 32) 2 smallMem =
      .error e) ∨
    ∃ r, buildGraphM (floatDecoder (smallHParams 1 32 0) {} 32) 2 smallMem = .ok r ∧
      r.1.g.PassOK :=
  buildGraphM_ok smallMem
    (floatDecoder_consistent (by intro c; cases c <;> decide) (by decide))
    (floatDecoder_nonEmpty (by intro c; cases c <;> decide) (by decide))
    (by decide) (by decide) (by decide) (by decide)

/-- The message of a build that died. -/
def died {α : Type} (x : Except String α) : Option String :=
  match x with
  | .error e => some e
  | .ok _ => none

/-- Two builds that die although the task table suffices: a head too wide for the slots
region, and a layer without heads, whose query projection has no row to consume the
norm before it. -/
theorem buildGraphs_dies :
    (floatDecoder (smallHParams 1 0x200000 0) {} 32).Consistent (fun _ => 32) ∧
    died (buildGraphs (smallHParams 1 0x200000 0) {}
      (floatDecoder (smallHParams 1 0x200000 0) {} 32).weights 1) =
        some "slots region overflow" ∧
    (floatDecoder (smallHParams 0 32 1) { hcMode := .on } 32).Consistent (fun _ => 32) ∧
    died (buildGraphs (smallHParams 0 32 1) { hcMode := .on }
      (floatDecoder (smallHParams 0 32 1) { hcMode := .on } 32).weights 1) =
        some "graph must have exactly one sink (terminal SIGNAL)" := by
  refine ⟨floatDecoder_consistent ?_ (by decide), by decide +kernel,
    floatDecoder_consistent ?_ (by decide), by decide +kernel⟩
  · intro c
    cases c <;> decide
  · intro c
    cases c <;> decide

end FastLlm
