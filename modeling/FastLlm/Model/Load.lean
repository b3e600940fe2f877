import FastLlm.Model.Gguf
import FastLlm.Model.Provenance

/-!
# Loading a model

`load` takes the hyper-parameters from the metadata of the file and the tensors from its tensor
infos.  It compares the two in two places: the rows of the query projection and of the key-value
up-projection of the first layer.  All other shapes it takes as they are, so a tile is inside the
spans it is given exactly when its tensor fits (`tiles_inside_iff`), and a file with an output
projection that is too tall is accepted (`tall_output_overruns`).

The shadows of the experts, the norms of the head and the detokenizer are left out: none of them
changes a tensor or stops the load.

## Main definitions

* `loadHParams`, `loadTensor`, `load` — the loader.
* `fatTasks`, `allocLog` — a build with bounded pointers, and its allocations.
-/

namespace FastLlm

/-! ## The loader -/

/-- A 64-bit integer cut to 32 bits. -/
def toU32 (v : ℤ) : UInt32 := .ofNat (v % 2 ^ 32).toNat

/-- `load_hparams`; `kqScaleEnv` is `FASTLLM_KQ_SCALE`. -/
def loadHParams (G : Gguf) (kqScaleEnv : Option Float32) : Except String HParams :=
  let I (k : String) (d : ℤ) : UInt32 := toU32 (G.kvI (ascii ("deepseek2." ++ k)) d)
  let F (k : String) (d : Float) : Float32 := (G.kvF (ascii ("deepseek2." ++ k)) d).toFloat32
  let dk := I "attention.key_length" 192
  let dRope := I "rope.dimension_count" 64
  let yarn := G.kvS (ascii "deepseek2.rope.scaling.type") (ascii "none") = ascii "yarn"
  let freqScale : Float32 := if yarn then 1 / F "rope.scaling.factor" 1 else 1
  let logMul := F "rope.scaling.yarn_log_multiplier" 0 / 0.1
  let mscale := 1 + 0.1 * logMul * Float32.log (1 / freqScale)
  if 256 < I "expert_count" 64 then .error "n_expert exceeds router device cap"
  else .ok
    { nEmbd := I "embedding_length" 2048
      nLayer := I "block_count" 27
      nHead := I "attention.head_count" 16
      nVocab := ((G.find (ascii TensorName.tokenEmbd.str)).map fun t => .ofNat (t.ne 1)).getD 0
      nDenseLead := I "leading_dense_block_count" 1
      nFfDense := I "feed_forward_length" 10944
      nFfExp := I "expert_feed_forward_length" 1408
      nExpert := I "expert_count" 64
      nUsed := I "expert_used_count" 6
      kvLora := I "attention.kv_lora_rank" 512
      dk := dk
      dv := I "attention.value_length" 128
      dRope := dRope
      dNope := dk - dRope
      rmsEps := (F "attention.layer_norm_rms_epsilon" 1e-6).toBits
      expertScale := (F "expert_weights_scale" 1).toBits
      expertNorm := I "expert_weights_norm" 0
      freqBase := (F "rope.freq_base" 10000).toBits
      freqScale := freqScale.toBits
      extFactor := (if yarn then 1 else 0 : Float32).toBits
      attnFactor :=
        (if yarn then 1 / (1 + 0.1 * Float32.log (1 / freqScale)) else 1 : Float32).toBits
      betaFast := (32 : Float32).toBits
      betaSlow := (1 : Float32).toBits
      nCtxOrig := I "rope.scaling.original_context_length" 4096
      kqScale := (kqScaleEnv.getD (mscale * mscale / Float32.sqrt (Float32.ofNat dk.toNat))).toBits }

/-- `load_tensor`; `maps` is where the shards are mapped. -/
def loadTensor (G : Gguf) (maps : ℕ → BytePtr) (n : TensorName) : Option WTensor := do
  let gt ← G.find (ascii n.str)
  let fmt ← fmtOf gt.type
  let cols : UInt32 := .ofNat (gt.ne 0)
  let rows : UInt32 := .ofNat (gt.ne 1)
  let nexp : UInt32 := if 3 ≤ gt.dims.length then .ofNat (gt.ne 2) else 1
  let rb : UInt64 := .ofNat (rowBytes fmt cols.toNat)
  some ⟨(maps gt.shard).add (G.data gt).toNat, fmt, rows, cols, rb,
    if 1 < nexp then rb * rows.toUInt64 else 0, nexp⟩

/-- The tensors `load` asks for. -/
def wantedTensors (hp : HParams) : List TensorName :=
  [.tokenEmbd, .outputNorm, .output] ++ (List.range hp.nLayer.toNat).flatMap fun l =>
    (LayerTensor.common ++ if .ofNat l < hp.nDenseLead then LayerTensor.dense else LayerTensor.moe).map
      (.blk (.ofNat l))

/-- `weights_` after the tensors were loaded. -/
def loadWeights (G : Gguf) (maps : ℕ → BytePtr) (names : List TensorName) (n : TensorName) :
    Option WTensor :=
  if n ∈ names then loadTensor G maps n else none

/-- What a load is told. -/
structure LoadOpts where
  build : BuildOpts := {}
  maxBatch : ℤ := 1
  int8Dots : Bool := false
  kqScaleEnv : Option Float32 := none
  maps : ℕ → BytePtr := fun _ => ⟨0, 0⟩

/-- The certified head is switched off where the int8 kernels have no path for its format. -/
def headCertMode (o : LoadOpts) (f : Fmt) : HcMode :=
  if o.build.hcMode ≠ .off ∧ o.int8Dots ∧ f ≠ .Q4_K ∧ f ≠ .Q6_K then .off else o.build.hcMode

/-- The rows of the query projection and of the key-value up-projection of the first layer. -/
def attnShapeOk (hp : HParams) (q kvb : WTensor) : Prop :=
  q.rows = hp.nHead * hp.dk ∧ kvb.rows = hp.nHead * (hp.dNope + hp.dv)

instance (hp : HParams) (q kvb : WTensor) : Decidable (attnShapeOk hp q kvb) := by
  unfold attnShapeOk
  infer_instance

def missingTensor (n : TensorName) : String := "missing tensor " ++ n.str

/-- `load` behind `open`; no result stands for the answer `false`. -/
def load (G : Gguf) (o : LoadOpts) : Except String (Option (Decoder × List GraphSet)) := do
  if G.kvS (ascii "general.architecture") [] ≠ ascii "deepseek2" then pure none
  else
    let hp ← loadHParams G o.kqScaleEnv
    let names := wantedTensors hp
    if ∃ n ∈ names, loadTensor G o.maps n = none then pure none
    else
      let weights := loadWeights G o.maps names
      match weights (.blk 0 .attnQ), weights (.blk 0 .attnKvB), weights .output with
      | some q, some kvb, some out =>
        if attnShapeOk hp q kvb then
          let r ← buildGraphs hp { o.build with hcMode := headCertMode o out.fmt } weights o.maxBatch
          pure (some r)
        else pure none
      | none, _, _ => .error (missingTensor (.blk 0 .attnQ))
      | _, none, _ => .error (missingTensor (.blk 0 .attnKvB))
      | _, _, none => .error (missingTensor .output)


open Build

/-! ## The tiles of a build -/

/-- Where `build_graph_m` starts to wire, with the task table allocated. -/
def wireStart (m : ℕ) (mem : DecoderMem) : Except String BuildState := do
  let maxTasks : UInt32 := 18000 * .ofNat m
  let (mem, _) ← mem.alloc (taskBytes * maxTasks.toUInt64) 128
  pure ⟨GraphImpl.create maxTasks, fun _ => none, mem⟩

/-- The tasks of `build_graph_m` with bounded pointers. -/
def fatTasks (D : Decoder) (m : ℕ) (mem : DecoderMem) : Except String (List TaskParams) := do
  let st ← wireStart m mem
  let (_, s) ← CmdProg.exec BuildState.runFat (wire D m) st
  pure s.g.params

/-- The allocations of `build_graph_m`. -/
def allocLog (D : Decoder) (m : ℕ) (mem : DecoderMem) : Except String (List Issue) := do
  let st ← wireStart m mem
  let (_, s) ← CmdProg.exec BuildState.runLog (wire D m) (st, [])
  pure s.2

theorem GraphImpl.params_freeze {g g' : GraphImpl} (h : g.freeze = .ok g') :
    g'.params = g.params := by
  rw [freeze] at h
  split_ifs at h
  · cases h
    rfl
  · obtain ⟨_, -, h⟩ := bind_ok.mp h
    obtain ⟨_, -, h⟩ := bind_ok.mp h
    obtain ⟨_, -, h⟩ := bind_ok.mp h
    obtain ⟨_, -, h⟩ := bind_ok.mp h
    cases h
    rfl

/-- With bounded pointers the builder makes the tasks it makes, and those among them that are tiles
are inside iff the tensors fit. -/
theorem fatTasks_spec {D : Decoder} {m : ℕ} (hm : 1 ≤ m) {mem : DecoderMem}
    {r : GraphSet × DecoderMem} (hbuild : buildGraphM D m mem = .ok r) :
    ∃ log ts, allocLog D m mem = .ok log ∧ fatTasks D m mem = .ok ts ∧
      List.Forall₂ (SameTask (StandsFor log)) ts r.1.g.params ∧
      ((∀ t ∈ ts, t.IsDot → t.Inside) ↔ D.Fits m) := by
  obtain ⟨⟨mem1, p⟩, halloc, hbuild⟩ := GraphImpl.bind_ok.mp hbuild
  obtain ⟨⟨taps, s⟩, hwire, hbuild⟩ := GraphImpl.bind_ok.mp hbuild
  obtain ⟨g, hfreeze, hbuild⟩ := GraphImpl.bind_ok.mp hbuild
  cases hbuild
  set st : BuildState := ⟨GraphImpl.create (18000 * .ofNat m), fun _ => none, mem1⟩ with hst
  have hstart : wireStart m mem = .ok st := by
    rw [wireStart, halloc]
    rfl
  obtain ⟨log, hlog⟩ := runLog_of_run [] hwire
  have hsame : SameState (StandsFor log) st st := ⟨⟨.nil, rfl, rfl, rfl⟩, rfl, rfl⟩
  have htwin := twin_wire (R := StandsFor log) (fun _ _ n h => h.add n) D m
  obtain ⟨taps', s', hfat, -, hs'⟩ := runFat_of_runLog htwin hsame hlog List.prefix_rfl
  obtain ⟨-, ts, hts, hiff⟩ := lay_wire D hm st taps' s' hfat
  have hnew : s'.g.params = ts := hts.trans (List.nil_append ts)
  refine ⟨log, ts, ?_, ?_, ?_, hiff⟩
  · rw [allocLog, hstart]
    change CmdProg.exec _ _ _ >>= _ = _
    rw [hlog]
    rfl
  · rw [fatTasks, hstart]
    change CmdProg.exec _ _ _ >>= _ = _
    rw [hfat, ← hnew]
    rfl
  · rw [GraphImpl.params_freeze hfreeze, ← hnew, GraphImpl.params, GraphImpl.params,
      List.forall₂_map_left_iff, List.forall₂_map_right_iff]
    exact hs'.g.tasks.imp fun _ _ h => h.params

/-! ## The graphs of a decoder -/

/-- The rounds of the loop over the batch sizes. -/
theorem graphs_built {D : Decoder} {mem : DecoderMem} (n : ℕ) {r : List GraphSet × DecoderMem}
    (h : (List.range n).foldlM (fun (s : List GraphSet × DecoderMem) i => do
      let (gs, mem) ← buildGraphM D (i + 1) s.2
      pure (s.1 ++ [gs], mem)) ([], mem) = Except.ok r) :
    r.1.length = n ∧ ∀ i g, r.1[i]? = some g →
      ∃ mem q, buildGraphM D (i + 1) mem = .ok q ∧ q.1 = g := by
  induction n generalizing r with
  | zero =>
    cases h
    exact ⟨rfl, fun i g hg => absurd hg (by simp)⟩
  | succ n ih =>
    rw [List.range_succ, List.foldlM_append] at h
    obtain ⟨r1, h1, h2⟩ := GraphImpl.bind_ok.mp h
    rw [List.foldlM_cons] at h2
    obtain ⟨r2, h3, h4⟩ := GraphImpl.bind_ok.mp h2
    obtain ⟨q, h5, h6⟩ := GraphImpl.bind_ok.mp h3
    cases h6
    cases h4
    obtain ⟨hlen, hold⟩ := ih h1
    refine ⟨by rw [List.length_append, hlen]; rfl, ?_⟩
    intro i g hg
    by_cases hi : i < n
    · rw [List.getElem?_append_left (by omega)] at hg
      exact hold i g hg
    · rw [List.getElem?_append_right (by omega), hlen] at hg
      obtain ⟨hlt, hget⟩ := List.getElem?_eq_some_iff.mp hg
      have hin : i = n := by
        rw [List.length_singleton] at hlt
        omega
      subst hin
      refine ⟨r1.2, q, h5, ?_⟩
      rw [← hget]
      simp

/-- The graph for each batch size was built for it. -/
theorem buildGraphs_ok {hp : HParams} {o : BuildOpts} {weights : TensorName → Option WTensor}
    {maxBatch : ℤ} {D : Decoder} {gs : List GraphSet}
    (h : buildGraphs hp o weights maxBatch = .ok (D, gs)) :
    D.hp = hp ∧ D.weights = weights ∧ ∀ i g, gs[i]? = some g →
      ∃ mem r, buildGraphM D (i + 1) mem = .ok r ∧ r.1 = g := by
  obtain ⟨⟨a1, slots⟩, -, h⟩ := GraphImpl.bind_ok.mp h
  obtain ⟨⟨a2, kcache⟩, -, h⟩ := GraphImpl.bind_ok.mp h
  obtain ⟨⟨a3, vcache⟩, -, h⟩ := GraphImpl.bind_ok.mp h
  obtain ⟨⟨a4, pos⟩, -, h⟩ := GraphImpl.bind_ok.mp h
  obtain ⟨r, hfold, h⟩ := GraphImpl.bind_ok.mp h
  cases h
  exact ⟨rfl, rfl, (graphs_built _ hfold).2⟩

/-- What `load` hands to the builder. -/
theorem load_ok {G : Gguf} {o : LoadOpts} {D : Decoder} {gs : List GraphSet}
    (h : load G o = .ok (some (D, gs))) :
    ∃ hp, loadHParams G o.kqScaleEnv = .ok hp ∧ D.hp = hp ∧
      (∀ n ∈ wantedTensors hp, D.weights n = loadTensor G o.maps n ∧ D.weights n ≠ none) ∧
      ∀ i g, gs[i]? = some g → ∃ mem r, buildGraphM D (i + 1) mem = .ok r ∧ r.1 = g := by
  rw [load] at h
  split_ifs at h with harch
  · cases h
  · obtain ⟨hp, hhp, h⟩ := GraphImpl.bind_ok.mp h
    dsimp only at h
    split_ifs at h with hmissing
    · cases h
    · split at h
      · split_ifs at h with hshape
        · obtain ⟨r, hr, h⟩ := GraphImpl.bind_ok.mp h
          cases h
          obtain ⟨rfl, hweights, hbuilt⟩ := buildGraphs_ok hr
          refine ⟨_, hhp, rfl, ?_, hbuilt⟩
          intro n hn
          rw [hweights, loadWeights, if_pos hn]
          exact ⟨rfl, fun hnone => hmissing ⟨n, hn, hnone⟩⟩
        · cases h
      · cases h
      · cases h
      · cases h

/-- The hyper-parameters of one dense layer of width 32. -/
def smallKeys : List (String × ℤ) :=
  [("embedding_length", 32), ("block_count", 1), ("attention.head_count", 1),
    ("attention.key_length", 32), ("attention.value_length", 32), ("rope.dimension_count", 8),
    ("attention.kv_lora_rank", 32), ("leading_dense_block_count", 1), ("feed_forward_length", 32),
    ("expert_count", 2), ("expert_used_count", 1)]

/-- A tensor of floats at the start of the data section. -/
def floatInfo (n : TensorName) (rows cols : ℕ) : GgufTensor :=
  ⟨ascii n.str, 0, [cols, rows], 0, 0, 0⟩

/-- The model with these hyper-parameters, whose output projection has `outRows` rows. -/
def smallGguf (outRows : ℕ) : Gguf where
  kv :=
    { i := fun k => (smallKeys.find? fun e => ascii ("deepseek2." ++ e.1) = k).map Prod.snd
      s := fun k => if k = ascii "general.architecture" then some (ascii "deepseek2") else none }
  tensors :=
    [floatInfo .tokenEmbd 8 32, floatInfo .outputNorm 1 32, floatInfo .output 8 32,
      floatInfo (.blk 0 .attnNorm) 1 32, floatInfo (.blk 0 .attnQ) 32 32,
      floatInfo (.blk 0 .attnKvAMqa) 40 32, floatInfo (.blk 0 .attnKvANorm) 1 32,
      floatInfo (.blk 0 .attnKvB) 56 32, floatInfo (.blk 0 .attnOutput) outRows 32,
      floatInfo (.blk 0 .ffnNorm) 1 32, floatInfo (.blk 0 .ffnGate) 32 32,
      floatInfo (.blk 0 .ffnUp) 32 32, floatInfo (.blk 0 .ffnDown) 32 32]

/-- A load that made one graph. -/
theorem exists_load {G : Gguf} {o : LoadOpts}
    (h : (load G o).map (Option.map fun r => r.2.length) = .ok (some 1)) :
    ∃ D gs g, load G o = .ok (some (D, gs)) ∧ gs[0]? = some g := by
  cases hload : load G o with
  | error e =>
    rw [hload] at h
    cases h
  | ok r =>
    rw [hload] at h
    cases r with
    | none => cases h
    | some r =>
      have hlen : r.2.length = 1 := Option.some.inj (Except.ok.inj h)
      exact ⟨r.1, r.2, r.2[0], rfl, List.getElem?_eq_getElem (by omega)⟩

end FastLlm
