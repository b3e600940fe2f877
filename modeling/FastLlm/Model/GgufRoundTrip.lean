import FastLlm.Model.GgufPlaced
import Mathlib.Order.Bounds.Basic

/-!
# The round trip

A header of the format that is written to a file, followed by an aligned data section, is
read back: the tensors in order, where their payloads are, and the values under their
keys.  Integers come back as `int64_t`, and the alignment must fit 32 bits.

## Main definitions

* `KvEntry`, `Kv.entry`, `Value.entry` — what the four maps hold under a key.
* `ReadBack` — everything the reader returns for a header.
-/

namespace FastLlm

/-! ## The maps under a key -/

/-- What the maps hold under one key. -/
@[ext]
structure KvEntry where
  i : Option ℤ := none
  f : Option Float := none
  s : Option Str := none
  sa : Option (List Str) := none

def Kv.entry (kv : Kv) (key : Str) : KvEntry := ⟨kv.i key, kv.f key, kv.s key, kv.sa key⟩

/-- The number a value stores, if it is of a floating-point type. -/
def Value.float : Value → Option Float
  | .scalar ty raw => ty.float raw
  | _ => none

/-- What a value leaves in the maps. -/
def Value.entry (v : Value) : KvEntry where
  i := v.int.map toInt64
  f := v.float
  s := match v with
    | .str s => some s
    | _ => none
  sa := match v with
    | .arr (.strs l) => some l
    | _ => none

theorem Kv.entry_capture_ne (kv : Kv) {key k : Str} (hk : k ≠ key) (v : Value) :
    (kv.capture key v).entry k = kv.entry k := by
  cases v with
  | scalar ty raw =>
    cases hn : ty.number raw <;> simp [Kv.capture, hn, Kv.entry, Kv.setI, Kv.setF, hk]
  | str s => simp [Kv.capture, Kv.entry, Kv.setS, hk]
  | arr a => cases a <;> simp [Kv.capture, Kv.entry, Kv.pushSa, hk]

theorem Kv.entry_capture_self {P : Arr → Prop} {v : Value} (hv : v.Lift P) {kv : Kv} {key : Str}
    (hnew : kv.entry key = {}) : (kv.capture key v).entry key = v.entry := by
  obtain ⟨hi, hf, hs, hsa⟩ := KvEntry.mk.inj hnew
  cases v with
  | scalar ty raw =>
    cases hx : ty.exact raw with
    | some x =>
      have hfloat : ty.float raw = none := by cases ty <;> simp [ScalarTy.exact] at hx <;> rfl
      have hn := ScalarTy.number_exact hv hx
      simp [Kv.capture, hn, Kv.entry, Kv.setI, Value.entry, Value.int, Value.float, hx, hfloat,
        hf, hs, hsa]
    | none =>
      obtain ⟨x, hfloat⟩ : ∃ x, ty.float raw = some x := by
        cases ty <;> simp [ScalarTy.exact] at hx <;> exact ⟨_, rfl⟩
      have hn := ScalarTy.number_float hfloat
      simp [Kv.capture, hn, Kv.entry, Kv.setF, Value.entry, Value.int, Value.float, hx, hfloat,
        hi, hs, hsa]
  | str s => simp [Kv.capture, Kv.entry, Kv.setS, Value.entry, Value.int, Value.float, hi, hf, hsa]
  | arr a =>
    cases a <;>
      simp [Kv.capture, Kv.entry, Kv.pushSa, Value.entry, Value.int, Value.float, hi, hf, hs, hsa]

/-- Keys that do not occur keep their entries. -/
theorem Kv.entry_foldl_of_notMem (ps : List KvPair) (s : Kv × UInt32) {k : Str}
    (hk : k ∉ ps.map KvPair.key) : (ps.foldl capturePair s).1.entry k = s.1.entry k := by
  induction ps generalizing s with
  | nil => rfl
  | cons p ps ih =>
    rw [List.map_cons, List.mem_cons, not_or] at hk
    rw [List.foldl_cons, ih _ hk.2]
    exact Kv.entry_capture_ne s.1 hk.1 p.value

/-- Every pair is found under its key. -/
theorem Kv.entry_foldl {P : Arr → Prop} (ps : List KvPair) (hps : ∀ p ∈ ps, p.value.Lift P)
    (hkeys : (ps.map KvPair.key).Nodup) (s : Kv × UInt32)
    (hnew : ∀ p ∈ ps, s.1.entry p.key = {}) :
    ∀ p ∈ ps, (ps.foldl capturePair s).1.entry p.key = p.value.entry := by
  induction ps generalizing s with
  | nil =>
    intro p hp
    cases hp
  | cons q ps ih =>
    rw [List.map_cons, List.nodup_cons] at hkeys
    obtain ⟨hq, hps⟩ := List.forall_mem_cons.mp hps
    obtain ⟨hnewq, hnew⟩ := List.forall_mem_cons.mp hnew
    intro p hp
    rw [List.foldl_cons]
    rcases List.mem_cons.mp hp with rfl | hp
    · rw [Kv.entry_foldl_of_notMem ps _ hkeys.1]
      exact Kv.entry_capture_self hq hnewq
    · refine ih hps hkeys.2 _ (fun r hr => ?_) p hp
      have hne : r.key ≠ q.key := by
        intro heq
        exact hkeys.1 (heq ▸ List.mem_map_of_mem hr)
      exact (Kv.entry_capture_ne s.1 hne q.value).trans (hnew r hr)

/-! ## The alignment -/

/-- An alignment, where there is one, is a power of two in a range of exponents. -/
def Header.AlignOk (K : ℕ → Prop) (h : Header) : Prop :=
  ∀ p ∈ h.kvs, p.key = alignmentKey → ∃ k, K k ∧ p.value.int = some (2 ^ k)

theorem mem_alignments {ps : List KvPair} {v : ℤ} :
    v ∈ alignments ps ↔ ∃ p ∈ ps, p.key = alignmentKey ∧ p.value.int = some v := by
  simp [alignments, List.mem_filterMap]

/-- Below `2 ^ 32`, the reader uses the alignment the file asks for. -/
theorem Header.AlignOk.two_pow {h : Header} (ha : h.AlignOk (· < 32)) :
    ∃ k, h.alignment = (2 ^ k : ℕ) ∧ h.mask = 2 ^ k := by
  rw [alignment, mask]
  cases hl : (alignments h.kvs).getLast? with
  | none =>
    rw [List.getLast?_eq_none_iff.mp hl]
    exact ⟨5, rfl, rfl⟩
  | some v =>
    obtain ⟨p, hp, hkey, hv⟩ := mem_alignments.mp (List.mem_of_getLast? hl)
    obtain ⟨k, hk, hint⟩ := ha p hp hkey
    obtain rfl : v = 2 ^ k := Option.some.inj (hv.symm.trans hint)
    have hlt : (2 : ℤ) ^ k < 2 ^ 32 := Int.pow_lt_pow_of_lt (by decide) hk
    have hpos : (0 : ℤ) < 2 ^ k := Int.pow_pos (by decide)
    have hself : toInt64 (2 ^ k) = 2 ^ k := toInt64_eq_self (by omega) (by omega)
    have hlast : ((alignments h.kvs).map toInt64).getLast? = some (2 ^ k) := by
      rw [List.getLast?_map, hl, Option.map_some, hself]
    refine ⟨k, by simp, ?_⟩
    have hcut : (2 : ℕ) ^ k < 2 ^ 32 := Nat.pow_lt_pow_right (by decide) hk
    have hcast : (2 : ℤ) ^ k = (2 ^ k : ℕ) := by push_cast; rfl
    have hnat : ((2 : ℤ) ^ k).toNat = 2 ^ k := by rw [hcast, Int.toNat_natCast]
    rw [lastPos_of_getLast hlast hpos, hnat, Nat.mod_eq_of_lt hcut]

/-! ## Writing and reading -/

/-- Everything the reader returns for a header: the tensors, where they are, and the values.
The integers are returned up to `norm`; `start` is where the data section begins. -/
structure ReadBack (norm : ℤ → ℤ) (h : Header) (file : File) (start : ℕ) (g : Gguf) : Prop where
  tensors : (g.tensors.map fun t => (⟨t.name, t.dims, t.type, t.offset⟩ : TensorInfo)) = h.tensors
  nbytes : ∀ t ∈ g.tensors, (fmtOf t.type).isSome → t.nbytes = exactPayload t.type t.ne
  base : ∀ t ∈ g.tensors, g.shards[t.shard]?.map Shard.base = some file.bytes
  data : ∀ t ∈ g.tensors, g.data t = UInt64.ofNat (start + t.offset)
  ints : ∀ p ∈ h.kvs, ∀ v, p.value.int = some v → ∀ dflt, g.kvI p.key dflt = norm v
  floats : ∀ p ∈ h.kvs, ∀ x, p.value.float = some x → ∀ dflt, g.kvF p.key dflt = x
  strs : ∀ p ∈ h.kvs, ∀ s, p.value = .str s → ∀ dflt, g.kvS p.key dflt = s
  sarrs : ∀ p ∈ h.kvs, ∀ l, p.value = .arr (.strs l) → g.kvSarr p.key = some l

/-- A row that is not cut and a size that fits. -/
def TensorInfo.SizeOk (t : TensorInfo) : Prop :=
  t.ne 0 < 2 ^ 32 ∧ exactPayload t.type t.ne < 2 ^ 64

/-- What is written is read back. -/
theorem openGguf_roundTrip {h : Header} (hw : h.WellFormed)
    (hkeys : (h.kvs.map KvPair.key).Nodup) (halign : h.AlignOk (· < 32))
    (hsize : ∀ t ∈ h.tensors, t.SizeOk) {file : File} {pad data : List UInt8}
    (hfile : file.bytes = h.encode ++ pad ++ data)
    (hstart : h.IsDataStart (h.encode ++ pad).length) :
    ∃ g, openGguf (.file (some file)) = .ok (some g) ∧
      ReadBack toInt64 h file (h.encode ++ pad).length g := by
  have hpre : h.encode <+: file.bytes := ⟨pad ++ data, by rw [hfile, List.append_assoc]⟩
  have hlen := File.encode_lt hpre
  have hv := hw.valid hlen
  refine ⟨h.install {} file 0 true, openGguf_file hv hpre, ?_⟩
  have hps : ∀ p ∈ h.kvs, p.value.Lift Arr.Valid := fun p hp => (hv.kvs p hp).2
  have hentry := Kv.entry_foldl h.kvs hps hkeys ({}, 32) (fun _ _ => rfl)
  -- the mask finds the start of the data section
  obtain ⟨k, hal, hmask⟩ := halign.two_pow
  have ha : (h.capture {}).2.toNat = h.mask := Header.capture_snd hv rfl
  have hdata : alignUp (UInt64.ofNat h.encode.length) (h.capture {}).2 =
      UInt64.ofNat (h.encode ++ pad).length := by
    have hrounds : MaskRounds h.encode.length h.alignment h.mask := by
      rw [hal, hmask]
      exact maskRounds_two_pow _ k
    have hleast := (Header.isDataStart_iff hlen ha).mpr hrounds
    rw [← hleast.unique hstart, UInt64.ofNat_toNat]
  have hmem {t : GgufTensor} (ht : t ∈ (h.install {} file 0 true).tensors) :
      ∃ ti ∈ h.tensors, t = ti.toTensor 0 := by
    obtain ⟨ti, hti, rfl⟩ := List.mem_map.mp ht
    exact ⟨ti, hti, rfl⟩
  constructor
  · simp [Header.install, TensorInfo.toTensor, Function.comp_def]
  · intro t ht hknown
    obtain ⟨ti, hti, rfl⟩ := hmem ht
    obtain ⟨f, hf⟩ := Option.isSome_iff_exists.mp hknown
    obtain ⟨hrow, hfit⟩ := hsize ti hti
    exact (payloadBytes_eq_iff hf ti.ne hfit).mpr (.inl hrow)
  · intro t ht
    obtain ⟨ti, hti, rfl⟩ := hmem ht
    rfl
  · intro t ht
    obtain ⟨ti, hti, rfl⟩ := hmem ht
    change alignUp _ _ + UInt64.ofNat ti.offset = _
    rw [UInt64.ofNat_add]
    exact congrArg (· + UInt64.ofNat ti.offset) hdata
  · intro p hp v hint dflt
    have hi := congrArg KvEntry.i (hentry p hp)
    have hfound : (h.install {} file 0 true).kv.i p.key = some (toInt64 v) := by
      rw [show p.value.entry.i = some (toInt64 v) by simp [Value.entry, hint]] at hi
      exact hi
    rw [Gguf.kvI, hfound]
  · intro p hp x hfloat dflt
    have hf := congrArg KvEntry.f (hentry p hp)
    have hfound : (h.install {} file 0 true).kv.f p.key = some x := hf.trans hfloat
    rw [Gguf.kvF, hfound]
  · intro p hp s hs dflt
    have hfound := congrArg KvEntry.s (hentry p hp)
    rw [hs] at hfound
    exact congrArg (fun o : Option Str => o.getD dflt) hfound
  · intro p hp l hl
    have hfound := congrArg KvEntry.sa (hentry p hp)
    rw [hl] at hfound
    exact hfound

/-! ## A file that is read back -/

/-- An alignment, a signed number, strings, nested arrays and a tensor. -/
def sample : Header :=
  { version := 2
    kvs :=
      [⟨alignmentKey, .scalar .u32 64⟩, ⟨ascii "A", .scalar .i8 255⟩,
        ⟨ascii "B", .arr (.strs [ascii "x", []])⟩,
        ⟨ascii "C", .arr (.arrs [.flat ScalarTy.u16.id 1 [0, 0], .strs []])⟩]
    tensors := [⟨ascii "w", [4], 0, 0⟩] }

theorem sample_wellFormed : sample.WellFormed where
  version := .inl rfl
  n_kv := by decide
  n_tensors := by decide
  kvs := by
    have hkey : ∀ p ∈ sample.kvs, StrValid p.key := by unfold StrValid; decide
    have hval : ∀ p ∈ sample.kvs, p.value.Lift Arr.WellFormed := by
      simp only [sample, List.forall_mem_cons, Value.Lift]
      refine ⟨by decide, by decide, .strs (by decide) (by unfold StrValid; decide), ?_, by simp⟩
      refine .arrs (by decide) (List.forall_mem_cons.mpr ⟨.flat (by decide) rfl, ?_⟩)
      exact List.forall_mem_singleton.mpr (.strs (by decide) (by simp))
    exact fun p hp => ⟨hkey p hp, hval p hp⟩
  tensors := by
    intro t ht
    obtain rfl := List.mem_singleton.mp ht
    exact ⟨by unfold StrValid; decide, by decide, by decide, by decide, by decide, by decide⟩

theorem length_encode_sample : sample.encode.length = 197 := by decide +kernel

/-- A header with `n` bytes of padding and `m` bytes of data. -/
def Header.padded (h : Header) (n m : ℕ) (hsize : h.encode.length + n + m < 2 ^ 63) : File where
  bytes := h.encode ++ List.replicate n 0 ++ List.replicate m 0
  size_lt := by
    simp only [List.length_append, List.length_replicate]
    exact hsize

theorem Header.encode_prefix_padded (h : Header) (n m : ℕ)
    (hsize : h.encode.length + n + m < 2 ^ 63) : h.encode <+: (h.padded n m hsize).bytes :=
  ⟨List.replicate n 0 ++ List.replicate m 0, (List.append_assoc _ _ _).symm⟩

/-- Padding up to the next multiple ends where the data section starts. -/
theorem Header.isDataStart_padded {h : Header} {n : ℕ} (hdvd : h.alignment ∣ (h.encode.length + n : ℕ))
    (hlt : (n : ℤ) < |h.alignment|) :
    h.IsDataStart (h.encode ++ List.replicate n (0 : UInt8)).length := by
  rw [List.length_append, List.length_replicate]
  refine (isLeast_multiple_iff h.length_encode_pos (Nat.le_add_right _ n)).mpr ⟨hdvd, ?_⟩
  push_cast
  omega

theorem sample_size : sample.encode.length + 59 + 16 < 2 ^ 63 := by
  rw [length_encode_sample]
  decide

theorem openGguf_roundTrip_sample :
    ∃ g, openGguf (.file (some (sample.padded 59 16 sample_size))) = .ok (some g) ∧
      ReadBack toInt64 sample (sample.padded 59 16 sample_size)
        (sample.encode ++ List.replicate 59 (0 : UInt8)).length g := by
  refine openGguf_roundTrip sample_wellFormed (by decide) ?_ ?_ rfl
    (Header.isDataStart_padded ?_ (by decide))
  · intro p hp hkey
    simp only [sample, List.mem_cons, List.not_mem_nil, or_false] at hp
    rcases hp with rfl | rfl | rfl | rfl
    · exact ⟨6, by decide, rfl⟩
    all_goals exact absurd hkey (by decide)
  · intro t ht
    obtain rfl := List.mem_singleton.mp ht
    exact ⟨by decide, by decide⟩
  · rw [length_encode_sample]
    decide

/-! ## Files that are not -/

/-- The law for exponents `K` of the alignment and integers up to `norm`. -/
def RoundTrip (K : ℕ → Prop) (norm : ℤ → ℤ) : Prop :=
  ∀ (h : Header) (file : File) (pad data : List UInt8), h.WellFormed →
    (h.kvs.map KvPair.key).Nodup → h.AlignOk K → (∀ t ∈ h.tensors, t.SizeOk) →
    file.bytes = h.encode ++ pad ++ data → h.IsDataStart (h.encode ++ pad).length →
    ∃ g, openGguf (.file (some file)) = .ok (some g) ∧
      ReadBack norm h file (h.encode ++ pad).length g

/-- An unsigned number with its top bit set. -/
def bigInt : Header :=
  { version := 3
    kvs := [⟨ascii "A", .scalar .u64 (2 ^ 63)⟩]
    tensors := [] }

theorem bigInt_wellFormed : bigInt.WellFormed where
  version := .inr rfl
  n_kv := by decide
  n_tensors := by decide
  kvs := by
    intro p hp
    obtain rfl := List.mem_singleton.mp hp
    have hraw : (2 : ℕ) ^ 63 < 256 ^ 8 := by decide
    exact ⟨by unfold StrValid; decide, hraw⟩
  tensors := by simp [bigInt]

/-- An alignment of `2 ^ 32`. -/
def wide : Header :=
  { version := 3
    kvs := [⟨alignmentKey, .scalar .u64 (2 ^ 32)⟩]
    tensors := [⟨ascii "w", [4], 0, 0⟩] }

theorem wide_wellFormed : wide.WellFormed where
  version := .inr rfl
  n_kv := by decide
  n_tensors := by decide
  kvs := by
    intro p hp
    obtain rfl := List.mem_singleton.mp hp
    have hraw : (2 : ℕ) ^ 32 < 256 ^ 8 := by decide
    exact ⟨by unfold StrValid; decide, hraw⟩
  tensors := by
    intro t ht
    obtain rfl := List.mem_singleton.mp ht
    exact ⟨by unfold StrValid; decide, by decide, by decide, by decide, by decide, by decide⟩

/-- The number comes back negative. -/
theorem not_roundTrip_bigInt : ¬ RoundTrip (· < 32) id := by
  intro hlaw
  have hlen : bigInt.encode.length = 45 := by decide
  have hsize : bigInt.encode.length + 19 + 0 < 2 ^ 63 := by omega
  have halign : bigInt.AlignOk (· < 32) := by
    intro p hp hkey
    obtain rfl := List.mem_singleton.mp hp
    exact absurd hkey (by decide)
  have hstart := Header.isDataStart_padded (h := bigInt) (n := 19) (by rw [hlen]; decide) (by decide)
  obtain ⟨g, hopen, hread⟩ := hlaw bigInt (bigInt.padded 19 0 hsize) (List.replicate 19 0) []
    bigInt_wellFormed (by decide) halign (by simp [bigInt]) rfl hstart
  have hpre := bigInt.encode_prefix_padded 19 0 hsize
  rw [openGguf_file (bigInt_wellFormed.valid (by omega)) hpre] at hopen
  obtain rfl := Option.some.inj (Except.ok.inj hopen)
  have hexact := hread.ints _ (List.mem_singleton.mpr rfl) (2 ^ 63) rfl 0
  have hcut : (bigInt.install {} (bigInt.padded 19 0 hsize) 0 true).kvI (ascii "A") 0 = -2 ^ 63 := rfl
  exact absurd (hcut.symm.trans hexact) (by decide)

/-- The data section starts before the header ends. -/
theorem not_roundTrip_wide : ¬ RoundTrip (fun _ => True) toInt64 := by
  intro hlaw
  obtain ⟨n, hn⟩ : ∃ n : ℕ, n = 2 ^ 32 - 94 := ⟨_, rfl⟩
  have hlen : wide.encode.length = 94 := by decide
  have hal : wide.alignment = 2 ^ 32 := by decide
  have hsize : wide.encode.length + n + 0 < 2 ^ 63 := by omega
  have halign : wide.AlignOk fun _ => True := by
    intro p hp hkey
    obtain rfl := List.mem_singleton.mp hp
    exact ⟨32, trivial, rfl⟩
  have hsizes : ∀ t ∈ wide.tensors, t.SizeOk := by
    intro t ht
    obtain rfl := List.mem_singleton.mp ht
    exact ⟨by decide, by decide⟩
  have hdvd : wide.alignment ∣ (wide.encode.length + n : ℕ) := by
    rw [hal, hlen]
    omega
  have hlt : (n : ℤ) < |wide.alignment| := by
    rw [hal, abs_of_pos (by decide)]
    omega
  obtain ⟨g, hopen, hread⟩ := hlaw wide (wide.padded n 0 hsize) (List.replicate n 0) []
    wide_wellFormed (by decide) halign hsizes rfl (Header.isDataStart_padded hdvd hlt)
  have hpre := wide.encode_prefix_padded n 0 hsize
  rw [openGguf_file (wide_wellFormed.valid (by omega)) hpre] at hopen
  obtain rfl := Option.some.inj (Except.ok.inj hopen)
  have hcut : (wide.capture {}).2 = 0 := by decide
  have hdata : alignUp (UInt64.ofNat wide.encode.length) (wide.capture {}).2 + UInt64.ofNat 0 =
      UInt64.ofNat ((wide.encode ++ List.replicate n (0 : UInt8)).length + 0) :=
    hread.data _ (List.mem_singleton.mpr rfl)
  have hbefore : (alignUp (UInt64.ofNat 94) 0).toNat < 94 :=
    toNat_alignUp_zero (by decide) (by decide)
  have hnat := congrArg UInt64.toNat hdata
  rw [hcut, hlen, List.length_append, List.length_replicate, hlen, UInt64.toNat_add,
    UInt64.toNat_ofNat', UInt64.toNat_ofNat'] at hnat
  omega

/-- With exact integers, or any power of two, the law fails. -/
theorem not_roundTrip_exact : ¬ RoundTrip (fun _ => True) id ∧ ¬ RoundTrip (· < 32) id ∧
    ¬ RoundTrip (fun _ => True) toInt64 := by
  refine ⟨fun hlaw => not_roundTrip_bigInt ?_, not_roundTrip_bigInt, not_roundTrip_wide⟩
  intro h file pad data hw hkeys halign
  refine hlaw h file pad data hw hkeys fun p hp hkey => ?_
  obtain ⟨k, -, hk⟩ := halign p hp hkey
  exact ⟨k, trivial, hk⟩

end FastLlm
