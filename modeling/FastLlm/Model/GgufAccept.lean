import FastLlm.Model.GgufReader

/-!
# Which files the reader accepts

Every file that starts with a well-formed header is accepted.  The converse fails for
arrays: the element type is not checked, so that elements of an unknown type have size
zero, and the product of count and size is cut to 64 bits.  These are the only ways
in which a malformed file gets through.

## Main definitions

* `OnlyWellFormed` — the reader accepts well-formed files only.
-/

namespace FastLlm

/-! ## Valid, sane and well-formed trees -/

theorem length_le_of_mem_flatMap {α : Type} {enc : α → List UInt8} {l : List α} {a : α}
    (ha : a ∈ l) : (enc a).length ≤ (l.flatMap enc).length := by
  rw [List.flatMap_def]
  exact (List.sublist_flatten_of_mem (List.mem_map_of_mem ha)).length_le

/-- An array of the format is accepted, if it fits a file. -/
theorem Arr.WellFormed.valid {a : Arr} (h : a.WellFormed) (hlen : a.encode.length < 2 ^ 63) :
    a.Valid := by
  induction h with
  | @flat ty n payload hn hpay =>
    obtain ⟨hs, ha, hid⟩ := ty.id_ne
    refine .flat hs ha hid hn ?_
    simp only [encode, List.length_append, length_leBytes] at hlen
    have hpay' : payload.length = n * scalarSize ty.id := hpay
    rw [Nat.mod_eq_of_lt (by omega), hpay']
  | strs hn hl => exact .strs hn hl
  | @arrs l hn _ ih =>
    refine .arrs hn fun a ha => ih a ha ?_
    have hle : a.encode.length ≤ (l.flatMap Arr.encode).length := length_le_of_mem_flatMap ha
    simp only [encode, encodeAll_eq, List.length_append, length_leBytes] at hlen
    omega

theorem Arr.WellFormed.sane {a : Arr} (h : a.WellFormed) (hlen : a.encode.length < 2 ^ 63) :
    a.Sane := by
  induction h with
  | @flat ty n payload hn hpay =>
    have hpay' : payload.length = n * scalarSize ty.id := hpay
    simp only [encode, List.length_append, length_leBytes] at hlen
    exact .flat (scalarSize_ne_zero.mpr ⟨ty, rfl⟩) (by omega)
  | strs _ _ => exact .strs
  | @arrs l _ _ ih =>
    refine .arrs fun a ha => ih a ha ?_
    have hle : a.encode.length ≤ (l.flatMap Arr.encode).length := length_le_of_mem_flatMap ha
    simp only [encode, encodeAll_eq, List.length_append, length_leBytes] at hlen
    omega

/-- What the reader accepts is of the format, if the element types are known and no size
was cut. -/
theorem Arr.Valid.wellFormed {a : Arr} (h : a.Valid) (hs : a.Sane) : a.WellFormed := by
  induction h with
  | @flat et n payload _ _ _ hn hpay =>
    cases hs with
    | flat hsize hfit =>
      obtain ⟨ty, rfl⟩ := scalarSize_ne_zero.mp hsize
      exact .flat hn (by rw [hpay, Nat.mod_eq_of_lt hfit]; rfl)
  | strs hn hl => exact .strs hn hl
  | arrs hn _ ih =>
    cases hs with
    | arrs hs => exact .arrs hn fun a ha => ih a ha (hs a ha)

theorem Arr.WellFormed.of_flat {et n : ℕ} {payload : List UInt8}
    (h : (Arr.flat et n payload).WellFormed) :
    scalarSize et ≠ 0 ∧ payload.length = n * scalarSize et := by
  generalize ha : Arr.flat et n payload = a at h
  cases h with
  | @flat ty _ _ _ hpay =>
    obtain ⟨rfl, rfl, rfl⟩ := Arr.flat.inj ha
    exact ⟨scalarSize_ne_zero.mpr ⟨ty, rfl⟩, hpay⟩
  | strs _ _ => cases ha
  | arrs _ _ => cases ha

/-- To pass from one property of arrays to another. -/
theorem Header.Ok.imp {P Q : Arr → Prop} {h : Header} (hP : h.Ok P)
    (himp : ∀ p ∈ h.kvs, ∀ a, p.value = .arr a → P a → Q a) : h.Ok Q := by
  refine ⟨hP.version, hP.n_kv, hP.n_tensors, fun p hp => ?_, hP.tensors⟩
  obtain ⟨hkey, hv⟩ := hP.kvs p hp
  refine ⟨hkey, ?_⟩
  cases hval : p.value with
  | scalar ty raw => rwa [hval] at hv
  | str s => rwa [hval] at hv
  | arr a =>
    rw [hval] at hv
    exact himp p hp a hval hv

/-- An array of the metadata is no longer than the header. -/
theorem Header.length_arr_le {h : Header} {p : KvPair} (hp : p ∈ h.kvs) {a : Arr}
    (ha : p.value = .arr a) : a.encode.length ≤ h.encode.length := by
  have hle : p.encode.length ≤ (h.kvs.flatMap KvPair.encode).length := length_le_of_mem_flatMap hp
  have hpair : a.encode.length ≤ p.encode.length := by
    rw [KvPair.encode, ha, List.length_append]
    exact Nat.le_add_left _ _
  simp only [encode, List.length_append]
  omega

theorem Header.WellFormed.valid {h : Header} (hw : h.WellFormed)
    (hlen : h.encode.length < 2 ^ 63) : h.Valid :=
  Header.Ok.imp hw fun _ hp _ ha hwf => hwf.valid ((length_arr_le hp ha).trans_lt hlen)

theorem Header.WellFormed.sane {h : Header} (hw : h.WellFormed)
    (hlen : h.encode.length < 2 ^ 63) : h.Sane := by
  intro p hp a ha
  have hv := (hw.kvs p hp).2
  rw [ha] at hv
  exact Arr.WellFormed.sane hv ((length_arr_le hp ha).trans_lt hlen)

theorem Header.Valid.wellFormed {h : Header} (hv : h.Valid) (hs : h.Sane) : h.WellFormed :=
  Header.Ok.imp hv fun p hp a ha hvalid => hvalid.wellFormed (hs p hp a ha)

/-! ## Acceptance -/

theorem File.encode_lt {file : File} {h : Header} (hpre : h.encode <+: file.bytes) :
    h.encode.length < 2 ^ 63 :=
  hpre.length_le.trans_lt file.size_lt

/-- A file starts with at most one header that the reader accepts. -/
theorem Header.unique {file : File} {h h' : Header} (hv : h.Valid) (hv' : h'.Valid)
    (hpre : h.encode <+: file.bytes) (hpre' : h'.encode <+: file.bytes) : h = h' := by
  obtain ⟨rest, hrest⟩ := hpre
  obtain ⟨rest', hrest'⟩ := hpre'
  have hread := reads_header (h.encode ++ rest).length
  exact (hread.unique hv hv' le_rfl (hrest.trans hrest'.symm)).1

theorem mapOne_accepts_iff {g : Gguf} {file : File} {idx : ℕ} {keepKv : Bool} :
    (∃ g', mapOne g file idx keepKv = .ok g') ↔ ∃ h : Header, h.Valid ∧ h.encode <+: file.bytes := by
  constructor
  · rintro ⟨g', hok⟩
    obtain ⟨h, rest, hv, hfile, -⟩ := mapOne_ok_iff.mp hok
    exact ⟨h, hv, rest, hfile.symm⟩
  · rintro ⟨h, hv, rest, hrest⟩
    exact ⟨_, mapOne_ok_iff.mpr ⟨h, rest, hv, hrest.symm, rfl⟩⟩

/-- The contract: a file that does not start with a well-formed header makes the reader
abort. -/
def OnlyWellFormed (g : Gguf) (file : File) (idx : ℕ) (keepKv : Bool) : Prop :=
  (∀ g', mapOne g file idx keepKv = .ok g' →
    ∃ h : Header, h.WellFormed ∧ h.encode <+: file.bytes) ∧
  ((¬ ∃ h : Header, h.WellFormed ∧ h.encode <+: file.bytes) →
    ∃ msg, mapOne g file idx keepKv = .error msg)

/-- The reader keeps its contract on a file exactly if every array it meets there has
a known element type and a size that fits 64 bits. -/
theorem onlyWellFormed_iff (g : Gguf) (file : File) (idx : ℕ) (keepKv : Bool) :
    OnlyWellFormed g file idx keepKv ↔
      ∀ h : Header, h.Valid → h.encode <+: file.bytes → h.Sane := by
  constructor
  · rintro ⟨hwf, -⟩ h hv hpre
    obtain ⟨g', hok⟩ := mapOne_accepts_iff.mpr ⟨h, hv, hpre⟩
    obtain ⟨h', hw', hpre'⟩ := hwf g' hok
    have hlen := File.encode_lt hpre'
    obtain rfl := Header.unique hv (hw'.valid hlen) hpre hpre'
    exact hw'.sane hlen
  · intro hsane
    have hwf : ∀ g', mapOne g file idx keepKv = .ok g' →
        ∃ h : Header, h.WellFormed ∧ h.encode <+: file.bytes := by
      intro g' hok
      obtain ⟨h, hv, hpre⟩ := mapOne_accepts_iff.mp ⟨g', hok⟩
      exact ⟨h, Header.Valid.wellFormed hv (hsane h hv hpre), hpre⟩
    refine ⟨hwf, fun hno => ?_⟩
    cases hrun : mapOne g file idx keepKv with
    | ok g' => exact absurd (hwf g' hrun) hno
    | error msg => exact ⟨msg, rfl⟩

/-! ## A malformed file that is accepted -/

/-- One pair with an array of `n` elements of type `et`, none of which is there. -/
def emptyArray (et n : ℕ) : Header :=
  { version := 3
    kvs := [⟨ascii "A", .arr (.flat et n [])⟩]
    tensors := [] }

/-- The file that is a header and nothing else. -/
def Header.file (h : Header) (hsize : h.encode.length < 2 ^ 63) : File := ⟨h.encode, hsize⟩

theorem emptyArray_valid {et n : ℕ} (hs : et ≠ GV_STR) (ha : et ≠ GV_ARR) (het : et < 256 ^ 4)
    (hn : n < 256 ^ 8) (hcut : n * scalarSize et % 2 ^ 64 = 0) : (emptyArray et n).Valid where
  version := .inr rfl
  n_kv := by simp [emptyArray]
  n_tensors := by simp [emptyArray]
  kvs := by
    intro p hp
    obtain rfl := List.mem_singleton.mp hp
    have hkey : (ascii "A").length < 256 ^ 8 := by decide
    exact ⟨hkey, Arr.Valid.flat hs ha het hn hcut.symm⟩
  tensors := by simp [emptyArray]

theorem emptyArray_accepted {et n : ℕ} (hv : (emptyArray et n).Valid)
    (hsize : (emptyArray et n).encode.length < 2 ^ 63)
    (hbad : ¬ (Arr.flat et n []).WellFormed) :
    ¬ OnlyWellFormed {} ((emptyArray et n).file hsize) 0 true := by
  have hpre : (emptyArray et n).encode <+: ((emptyArray et n).file hsize).bytes :=
    List.prefix_refl _
  intro hc
  obtain ⟨g', hok⟩ := mapOne_accepts_iff.mpr ⟨_, hv, hpre⟩
  obtain ⟨h, hw, hpre'⟩ := hc.1 g' hok
  obtain rfl := Header.unique hv (hw.valid (File.encode_lt hpre')) hpre hpre'
  exact hbad (hw.kvs _ (List.mem_singleton.mpr rfl)).2

/-- `2 ^ 61` numbers of eight bytes, and one element of a type that does not exist, are
read without complaint. -/
theorem mapOne_malformed :
    ¬ OnlyWellFormed {} ((emptyArray GV_U64 (2 ^ 61)).file (by decide)) 0 true ∧
      ¬ OnlyWellFormed {} ((emptyArray 13 1).file (by decide)) 0 true := by
  constructor
  · have hv : (emptyArray GV_U64 (2 ^ 61)).Valid :=
      emptyArray_valid (by decide) (by decide) (by decide) (by decide) (by decide)
    exact emptyArray_accepted hv (by decide) fun hw => absurd hw.of_flat.2 (by decide)
  · have hv : (emptyArray 13 1).Valid :=
      emptyArray_valid (by decide) (by decide) (by decide) (by decide) (by decide)
    exact emptyArray_accepted hv (by decide) fun hw => hw.of_flat.1 rfl

end FastLlm
