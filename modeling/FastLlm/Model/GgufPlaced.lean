import FastLlm.Model.GgufLayout
import Mathlib.Data.List.GetD

/-!
# Every payload inside its file

`open` accepts a model whose payloads end behind the end of their files, whose rows have
`2 ^ 32` elements or more, or whose alignment is no power of two.  Whether the payloads
are where they belong is a property of the metadata, given here exactly for every model
that is accepted.

## Main definitions

* `Mapped` — what the reader holds after it has mapped given files.
* `Gguf.Placed` — the contract for a tensor.
* `TensorInfo.Fits` — what its metadata must satisfy.
-/

namespace FastLlm

/-! ## The mapped files -/

/-- The files of a path. -/
def ModelPath.files : ModelPath → List (Option File)
  | .file f => [f]
  | .split _ shards => shards

/-- The reader holds these files and their tensors, and nothing else. -/
structure Mapped (fs : List File) (g : Gguf) : Prop where
  length : g.shards.length = fs.length
  shard : ∀ (i : ℕ) (f : File), fs[i]? = some f → ∃ (h : Header) (align : UInt32), h.Valid ∧
    h.encode <+: f.bytes ∧ align.toNat = h.mask ∧
    g.shards[i]? = some ⟨f.bytes, alignUp (UInt64.ofNat h.encode.length) align⟩
  tensor : ∀ t, t ∈ g.tensors ↔ ∃ (i : ℕ) (f : File) (h : Header) (ti : TensorInfo),
    fs[i]? = some f ∧ h.Valid ∧ h.encode <+: f.bytes ∧ ti ∈ h.tensors ∧ t = ti.toTensor i

theorem mapped_nil : Mapped [] {} where
  length := rfl
  shard := by simp
  tensor := by simp

/-- One more file. -/
theorem Mapped.mapOne {fs : List File} {g g' : Gguf} (hm : Mapped fs g) {f : File}
    {keepKv : Bool} (hkv : keepKv = true → g.kv = {})
    (hok : mapOne g f g.shards.length keepKv = .ok g') : Mapped (fs ++ [f]) g' := by
  obtain ⟨h, rest, hv, hfile, rfl⟩ := mapOne_ok_iff.mp hok
  have hpre : h.encode <+: f.bytes := ⟨rest, hfile.symm⟩
  have hnone : (if keepKv = true then g.kv else ({} : Kv)).i alignmentKey = none := by
    split_ifs with hk
    · rw [hkv hk]
    · rfl
  constructor
  · simp [Header.install, hm.length]
  · intro i f' hi
    rcases lt_or_ge i fs.length with hlt | hge
    · rw [List.getElem?_append_left hlt] at hi
      obtain ⟨h', align, hv', hpre', ha, hs⟩ := hm.shard i f' hi
      refine ⟨h', align, hv', hpre', ha, ?_⟩
      rw [← hs]
      exact List.getElem?_append_left (by rw [hm.length]; exact hlt)
    · rw [List.getElem?_append_right hge, List.getElem?_singleton] at hi
      split_ifs at hi with hzero
      obtain rfl := Option.some.inj hi
      obtain rfl : i = fs.length := by omega
      refine ⟨h, _, hv, hpre, Header.capture_snd hv hnone, ?_⟩
      simp [Header.install, ← hm.length]
  · intro t
    simp only [Header.install, List.mem_append, hm.tensor, List.mem_map]
    constructor
    · rintro (⟨i, f', h', ti, hi, hrest⟩ | ⟨ti, hti, rfl⟩)
      · have hlt := (List.getElem?_eq_some_iff.mp hi).1
        exact ⟨i, f', h', ti, by rw [List.getElem?_append_left hlt, hi], hrest⟩
      · exact ⟨g.shards.length, f, h, ti, by simp [hm.length], hv, hpre, hti, rfl⟩
    · rintro ⟨i, f', h', ti, hi, hv', hpre', hti, rfl⟩
      rcases lt_or_ge i fs.length with hlt | hge
      · rw [List.getElem?_append_left hlt] at hi
        exact .inl ⟨i, f', h', ti, hi, hv', hpre', hti, rfl⟩
      · rw [List.getElem?_append_right hge, List.getElem?_singleton] at hi
        split_ifs at hi with hzero
        obtain rfl := Option.some.inj hi
        obtain rfl := Header.unique hv hv' hpre hpre'
        refine .inr ⟨ti, hti, ?_⟩
        rw [hm.length, show i = fs.length by omega]

/-- All shards of a split model, of which at most one keeps its metadata. -/
theorem Mapped.mapShards {named : ℕ} {g' : Gguf} (shards : List (Option File)) {fs : List File}
    {g : Gguf} (hm : Mapped fs g) (hkv : g.shards.length ≤ named → g.kv = {})
    (hok : mapShards named g shards = .ok (some g')) :
    ∃ fs', shards = fs'.map some ∧ Mapped (fs ++ fs') g' := by
  induction shards generalizing fs g with
  | nil =>
    rw [FastLlm.mapShards, Except.ok.injEq, Option.some.injEq] at hok
    subst hok
    exact ⟨[], rfl, by rwa [List.append_nil]⟩
  | cons s shards ih =>
    cases s with
    | none => cases hok
    | some f =>
      cases hone : FastLlm.mapOne g f g.shards.length (g.shards.length = named) with
      | error e =>
        rw [FastLlm.mapShards, hone] at hok
        cases hok
      | ok g₁ =>
        rw [FastLlm.mapShards, hone] at hok
        have hm₁ : Mapped (fs ++ [f]) g₁ := by
          refine hm.mapOne (fun hk => hkv ?_) hone
          exact (of_decide_eq_true hk).le
        have hkv₁ : g₁.shards.length ≤ named → g₁.kv = {} := by
          intro hle
          have hlen : g.shards.length < named := by
            rw [hm₁.length, List.length_append, List.length_singleton, ← hm.length] at hle
            exact hle
          obtain ⟨h, rest, -, -, rfl⟩ := mapOne_ok_iff.mp hone
          simp [Header.install, hlen.ne, hkv hlen.le]
        obtain ⟨fs', rfl, hm'⟩ := ih hm₁ hkv₁ hok
        exact ⟨f :: fs', rfl, by simpa using hm'⟩

/-- An accepted model is mapped. -/
theorem openGguf_mapped {path : ModelPath} {g : Gguf} (hopen : openGguf path = .ok (some g)) :
    ∃ fs, path.files = fs.map some ∧ Mapped fs g := by
  cases path with
  | file f =>
    cases f with
    | none => cases hopen
    | some f =>
      cases hone : mapOne {} f 0 true with
      | error e =>
        rw [openGguf, hone] at hopen
        cases hopen
      | ok g' =>
        rw [openGguf, hone] at hopen
        obtain rfl : g' = g := Option.some.inj (Except.ok.inj hopen)
        exact ⟨[f], rfl, mapped_nil.mapOne (fun _ => rfl) hone⟩
  | split named shards =>
    cases hall : mapShards named {} shards with
    | error e =>
      rw [openGguf, hall] at hopen
      cases hopen
    | ok r =>
      rw [openGguf, hall] at hopen
      cases r with
      | none => cases hopen
      | some g' =>
        change (if _ then _ else _) = _ at hopen
        split_ifs at hopen
        obtain rfl : g' = g := Option.some.inj (Except.ok.inj hopen)
        obtain ⟨fs, hfs, hm⟩ := mapped_nil.mapShards shards (fun _ => rfl) hall
        exact ⟨fs, hfs, hm⟩

/-- A file with a valid header is accepted. -/
theorem openGguf_file {h : Header} {f : File} (hv : h.Valid) (hpre : h.encode <+: f.bytes) :
    openGguf (.file (some f)) = .ok (some (h.install {} f 0 true)) := by
  obtain ⟨rest, hrest⟩ := hpre
  have hone : mapOne {} f 0 true = .ok (h.install {} f 0 true) :=
    mapOne_ok_iff.mpr ⟨h, rest, hv, hrest.symm, rfl⟩
  rw [openGguf, hone]
  rfl

/-! ## The contract -/

/-- The data section of the tensor's shard starts at the least multiple of the alignment,
the size is exact, and the payload lies inside the shard. -/
def Gguf.Placed (g : Gguf) (t : GgufTensor) : Prop :=
  ∃ (s : Shard) (h : Header), g.shards[t.shard]? = some s ∧ h.Valid ∧ h.encode <+: s.base ∧
    h.IsDataStart s.dataOff.toNat ∧ t.nbytes = exactPayload t.type t.ne ∧
    (g.data t).toNat + t.nbytes ≤ s.base.length

/-- `ne[d]`, 1 unless it is given. -/
def TensorInfo.ne (t : TensorInfo) (d : ℕ) : ℕ := t.dims.getD d 1

/-- What a tensor info must satisfy in a file of a given size: the alignment works as a
mask at the end of the header, the row is not cut, and the payload ends in the file. -/
structure TensorInfo.Fits (h : Header) (size : ℕ) (t : TensorInfo) : Prop where
  rounds : MaskRounds h.encode.length h.alignment h.mask
  row : t.ne 0 < 2 ^ 32 ∨ t.ne 1 * t.ne 2 * t.ne 3 = 0
  range : (maskUp h.encode.length h.mask + t.offset) % 2 ^ 64 + exactPayload t.type t.ne ≤ size

theorem Gguf.placed_toTensor_iff {g : Gguf} {f : File} {h : Header} {ti : TensorInfo} {i : ℕ}
    {align : UInt32} (hv : h.Valid) (hpre : h.encode <+: f.bytes) (ha : align.toNat = h.mask)
    (hs : g.shards[i]? = some ⟨f.bytes, alignUp (UInt64.ofNat h.encode.length) align⟩)
    {fmt : Fmt} (hfmt : fmtOf ti.type = some fmt) :
    g.Placed (ti.toTensor i) ↔ ti.Fits h f.bytes.length := by
  have hlen := File.encode_lt hpre
  have hdata : (g.data (ti.toTensor i)).toNat =
      ((alignUp (UInt64.ofNat h.encode.length) align).toNat + ti.offset) % 2 ^ 64 := by
    simp [Gguf.data, TensorInfo.toTensor, hs, UInt64.toNat_add]
  have hsize := f.size_lt
  constructor
  · rintro ⟨s, h', hs', hv', hpre', hstart, hbytes, hrange⟩
    obtain rfl := Option.some.inj (hs'.symm.trans hs)
    obtain rfl := Header.unique hv hv' hpre hpre'
    have hrounds := (Header.isDataStart_iff hlen ha).mp hstart
    rw [hdata, toNat_alignUp hlen (ha ▸ hrounds.pos), ha, hbytes] at hrange
    have hfit : exactPayload ti.type ti.ne < 2 ^ 64 := by
      have hle := (Nat.le_add_left _ _).trans hrange
      exact hle.trans_lt (hsize.trans (by decide))
    exact ⟨hrounds, (payloadBytes_eq_iff hfmt ti.ne hfit).mp hbytes, hrange⟩
  · rintro ⟨hrounds, hrow, hrange⟩
    have hfit : exactPayload ti.type ti.ne < 2 ^ 64 := by
      have hle := (Nat.le_add_left _ _).trans hrange
      exact hle.trans_lt (hsize.trans (by decide))
    have hbytes : (ti.toTensor i).nbytes = exactPayload ti.type ti.ne :=
      (payloadBytes_eq_iff hfmt ti.ne hfit).mpr hrow
    refine ⟨_, h, hs, hv, hpre, (Header.isDataStart_iff hlen ha).mpr hrounds, hbytes, ?_⟩
    rw [hdata, toNat_alignUp hlen (ha ▸ hrounds.pos), ha, hbytes]
    exact hrange

/-- In a model that is accepted, every payload is where it belongs if and only if every
tensor info fits its file. -/
theorem openGguf_placed_iff {path : ModelPath} {g : Gguf}
    (hopen : openGguf path = .ok (some g)) :
    (∀ t ∈ g.tensors, (fmtOf t.type).isSome → g.Placed t) ↔
      ∀ f, some f ∈ path.files → ∀ h : Header, h.Valid → h.encode <+: f.bytes →
        ∀ t ∈ h.tensors, (fmtOf t.type).isSome → t.Fits h f.bytes.length := by
  obtain ⟨fs, hfs, hm⟩ := openGguf_mapped hopen
  constructor
  · intro hplaced f hf h hv hpre ti hti hknown
    rw [hfs] at hf
    obtain ⟨f', hf', hsome⟩ := List.mem_map.mp hf
    obtain rfl := Option.some.inj hsome
    obtain ⟨i, hi⟩ := List.getElem?_of_mem hf'
    obtain ⟨h', align, hv', hpre', ha, hs⟩ := hm.shard i f' hi
    obtain rfl := Header.unique hv hv' hpre hpre'
    obtain ⟨fmt, hfmt⟩ := Option.isSome_iff_exists.mp hknown
    refine (Gguf.placed_toTensor_iff hv hpre ha hs hfmt).mp (hplaced _ ?_ hknown)
    exact (hm.tensor _).mpr ⟨i, f', h, ti, hi, hv, hpre, hti, rfl⟩
  · intro hfits t ht hknown
    obtain ⟨i, f, h, ti, hi, hv, hpre, hti, rfl⟩ := (hm.tensor t).mp ht
    obtain ⟨h', align, hv', hpre', ha, hs⟩ := hm.shard i f hi
    obtain rfl := Header.unique hv hv' hpre hpre'
    obtain ⟨fmt, hfmt⟩ := Option.isSome_iff_exists.mp hknown
    refine (Gguf.placed_toTensor_iff hv hpre ha hs hfmt).mpr (hfits f ?_ h hv hpre ti hti hknown)
    rw [hfs]
    exact List.mem_map_of_mem (List.mem_of_getElem? hi)

/-! ## One tensor of four floats -/

def fourFloats : Header :=
  { version := 3
    kvs := []
    tensors := [⟨ascii "w", [4], 0, 0⟩] }

/-- The header, and some bytes behind it. -/
def fourFloatsFile (n : ℕ) (hn : n < 2 ^ 62) : File where
  bytes := fourFloats.encode ++ List.replicate n 0
  size_lt := by
    have hlen : fourFloats.encode.length = 57 := by decide
    rw [List.length_append, hlen, List.length_replicate]
    omega

theorem fourFloats_valid : fourFloats.Valid where
  version := .inr rfl
  n_kv := by decide
  n_tensors := by decide
  kvs := by simp [fourFloats]
  tensors := by
    intro t ht
    obtain rfl := List.mem_singleton.mp ht
    exact ⟨by unfold StrValid; decide, by decide, by decide, by decide, by decide, by decide⟩

theorem openGguf_fourFloats (n : ℕ) (hn : n < 2 ^ 62) :
    openGguf (.file (some (fourFloatsFile n hn))) =
      .ok (some (fourFloats.install {} (fourFloatsFile n hn) 0 true)) :=
  openGguf_file fourFloats_valid (List.prefix_append _ _)

/-- With 7 bytes of padding and 16 of payload, all is in place. -/
theorem openGguf_placed_iff_fourFloats :
    ∃ g, openGguf (.file (some (fourFloatsFile 23 (by decide)))) = .ok (some g) ∧
      ∀ t ∈ g.tensors, (fmtOf t.type).isSome → g.Placed t := by
  have hopen := openGguf_fourFloats 23 (by decide)
  refine ⟨_, hopen, (openGguf_placed_iff hopen).mpr ?_⟩
  intro f hf h hv hpre t ht _
  obtain rfl := Option.some.inj (List.mem_singleton.mp hf)
  obtain rfl := Header.unique fourFloats_valid hv ⟨_, rfl⟩ hpre
  obtain rfl := List.mem_singleton.mp ht
  exact ⟨maskRounds_two_pow _ 5, .inl (by decide), by decide⟩

/-- Without them, the file is accepted just the same. -/
theorem fourFloats_truncated :
    ∃ g, openGguf (.file (some (fourFloatsFile 0 (by decide)))) = .ok (some g) ∧
      ¬ ∀ t ∈ g.tensors, (fmtOf t.type).isSome → g.Placed t := by
  refine ⟨_, openGguf_fourFloats 0 (by decide), fun hplaced => ?_⟩
  have hmem : TensorInfo.toTensor 0 ⟨ascii "w", [4], 0, 0⟩ ∈
      (fourFloats.install {} (fourFloatsFile 0 (by decide)) 0 true).tensors :=
    List.mem_singleton.mpr rfl
  obtain ⟨s, h, hs, -, -, -, -, hrange⟩ := hplaced _ hmem rfl
  obtain rfl := Option.some.inj hs
  revert hrange
  decide

end FastLlm
