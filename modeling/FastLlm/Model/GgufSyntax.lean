import FastLlm.Model.Gguf

/-!
# The GGUF syntax

The header of a GGUF file as a tree, its encoding, and a parser that reads it.  The
tree has what the reader accepts, which is more than the format allows: an array may
have an element type nobody knows, or a payload whose size was cut to 64 bits.  The
trees without such arrays are the well-formed ones.

## Main definitions

* `ScalarTy`, `Arr`, `Value`, `KvPair`, `TensorInfo`, `Header` — the trees.
* `Header.encode`, `Header.Valid`, `Header.WellFormed` — their bytes, the trees the reader
  accepts, and those of the format.
* `Header.read`, `reads_header` — the parser of trees.
-/

namespace FastLlm
open ByteParser (fail take nat rep run_pure_ok run_take_ok)

/-! ## Trees -/

/-- The scalar types. -/
inductive ScalarTy
  | u8 | i8 | u16 | i16 | u32 | i32 | f32 | bool | u64 | i64 | f64
  deriving DecidableEq, Repr

def ScalarTy.id : ScalarTy → ℕ
  | u8 => GV_U8
  | i8 => GV_I8
  | u16 => GV_U16
  | i16 => GV_I16
  | u32 => GV_U32
  | i32 => GV_I32
  | f32 => GV_F32
  | bool => GV_BOOL
  | u64 => GV_U64
  | i64 => GV_I64
  | f64 => GV_F64

def ScalarTy.size (ty : ScalarTy) : ℕ := scalarSize ty.id

def ScalarTy.ofId : ℕ → Option ScalarTy
  | GV_U8 => some u8
  | GV_I8 => some i8
  | GV_U16 => some u16
  | GV_I16 => some i16
  | GV_U32 => some u32
  | GV_I32 => some i32
  | GV_F32 => some f32
  | GV_BOOL => some bool
  | GV_U64 => some u64
  | GV_I64 => some i64
  | GV_F64 => some f64
  | _ => none

theorem ScalarTy.ofId_eq_some {t : ℕ} {ty : ScalarTy} : ofId t = some ty ↔ t = ty.id := by
  constructor
  · intro h
    unfold ofId at h
    split at h <;> cases h <;> rfl
  · rintro rfl
    cases ty <;> rfl

theorem ScalarTy.ofId_eq_none {t : ℕ} (h : ofId t = none) (ty : ScalarTy) : t ≠ ty.id := by
  intro ht
  rw [ofId_eq_some.mpr ht] at h
  cases h

theorem ScalarTy.id_ne (ty : ScalarTy) : ty.id ≠ GV_STR ∧ ty.id ≠ GV_ARR ∧ ty.id < 256 ^ 4 := by
  cases ty <;> decide

/-- The known types have a size. -/
theorem scalarSize_ne_zero {t : ℕ} : scalarSize t ≠ 0 ↔ ∃ ty, t = ScalarTy.id ty := by
  constructor
  · intro h
    unfold scalarSize at h
    split at h <;> first | exact absurd rfl h | skip
    · exact ⟨.u8, rfl⟩
    · exact ⟨.i8, rfl⟩
    · exact ⟨.bool, rfl⟩
    · exact ⟨.u16, rfl⟩
    · exact ⟨.i16, rfl⟩
    · exact ⟨.u32, rfl⟩
    · exact ⟨.i32, rfl⟩
    · exact ⟨.f32, rfl⟩
    · exact ⟨.u64, rfl⟩
    · exact ⟨.i64, rfl⟩
    · exact ⟨.f64, rfl⟩
  · rintro ⟨ty, rfl⟩
    cases ty <;> decide

/-- An array: elements skipped as one block of bytes, strings, or arrays. -/
inductive Arr
  | flat (et n : ℕ) (payload : List UInt8)
  | strs (l : List Str)
  | arrs (l : List Arr)

/-- A scalar is given by its bytes as a number. -/
inductive Value
  | scalar (ty : ScalarTy) (raw : ℕ)
  | str (s : Str)
  | arr (a : Arr)

structure KvPair where
  key : Str
  value : Value

structure TensorInfo where
  name : Str
  dims : List ℕ
  type : ℕ
  offset : ℕ
  deriving DecidableEq, Repr

structure Header where
  version : ℕ
  kvs : List KvPair
  tensors : List TensorInfo

/-! ## Encodings -/

def encodeStr (s : Str) : List UInt8 := leBytes 8 s.length ++ s

mutual

def Arr.encode : Arr → List UInt8
  | .flat et n payload => leBytes 4 et ++ leBytes 8 n ++ payload
  | .strs l => leBytes 4 GV_STR ++ leBytes 8 l.length ++ l.flatMap encodeStr
  | .arrs l => leBytes 4 GV_ARR ++ leBytes 8 l.length ++ Arr.encodeAll l

def Arr.encodeAll : List Arr → List UInt8
  | [] => []
  | a :: l => a.encode ++ Arr.encodeAll l

end

theorem Arr.encodeAll_eq (l : List Arr) : Arr.encodeAll l = l.flatMap Arr.encode := by
  induction l with
  | nil => rfl
  | cons a l ih => rw [encodeAll, ih, List.flatMap_cons]

def Value.typeId : Value → ℕ
  | .scalar ty _ => ty.id
  | .str _ => GV_STR
  | .arr _ => GV_ARR

def Value.encode : Value → List UInt8
  | .scalar ty raw => leBytes ty.size raw
  | .str s => encodeStr s
  | .arr a => a.encode

def KvPair.encode (p : KvPair) : List UInt8 :=
  encodeStr p.key ++ leBytes 4 p.value.typeId ++ p.value.encode

def TensorInfo.encode (t : TensorInfo) : List UInt8 :=
  encodeStr t.name ++ leBytes 4 t.dims.length ++ t.dims.flatMap (leBytes 8) ++
    leBytes 4 t.type ++ leBytes 8 t.offset

def ggufMagic : ℕ := 0x46554747

def Header.encode (h : Header) : List UInt8 :=
  leBytes 4 ggufMagic ++ leBytes 4 h.version ++ leBytes 8 h.tensors.length ++
    leBytes 8 h.kvs.length ++ h.kvs.flatMap KvPair.encode ++ h.tensors.flatMap TensorInfo.encode

/-! ## Validity -/

/-- A length that fits its field. -/
def StrValid (s : Str) : Prop := s.length < 256 ^ 8

/-- The arrays the reader accepts. -/
inductive Arr.Valid : Arr → Prop
  | flat {et n : ℕ} {payload : List UInt8} : et ≠ GV_STR → et ≠ GV_ARR → et < 256 ^ 4 →
      n < 256 ^ 8 → payload.length = n * scalarSize et % 2 ^ 64 → Valid (.flat et n payload)
  | strs {l : List Str} : l.length < 256 ^ 8 → (∀ s ∈ l, StrValid s) → Valid (.strs l)
  | arrs {l : List Arr} : l.length < 256 ^ 8 → (∀ a ∈ l, Valid a) → Valid (.arrs l)

/-- Every element type is known and every payload has its full length. -/
inductive Arr.Sane : Arr → Prop
  | flat {et n : ℕ} {payload : List UInt8} : scalarSize et ≠ 0 → n * scalarSize et < 2 ^ 64 →
      Sane (.flat et n payload)
  | strs {l : List Str} : Sane (.strs l)
  | arrs {l : List Arr} : (∀ a ∈ l, Sane a) → Sane (.arrs l)

/-- The arrays of the format: a known scalar type with all elements, strings, or arrays. -/
inductive Arr.WellFormed : Arr → Prop
  | flat {ty : ScalarTy} {n : ℕ} {payload : List UInt8} : n < 256 ^ 8 →
      payload.length = n * ty.size → WellFormed (.flat ty.id n payload)
  | strs {l : List Str} : l.length < 256 ^ 8 → (∀ s ∈ l, StrValid s) → WellFormed (.strs l)
  | arrs {l : List Arr} : l.length < 256 ^ 8 → (∀ a ∈ l, WellFormed a) → WellFormed (.arrs l)

/-- A property of values that asks something of arrays only. -/
def Value.Lift (P : Arr → Prop) : Value → Prop
  | .scalar ty raw => raw < 256 ^ ty.size
  | .str s => StrValid s
  | .arr a => P a

def TensorInfo.Valid (t : TensorInfo) : Prop :=
  StrValid t.name ∧ 1 ≤ t.dims.length ∧ t.dims.length ≤ 4 ∧ (∀ d ∈ t.dims, d < 256 ^ 8) ∧
    t.type < 256 ^ 4 ∧ t.offset < 256 ^ 8

/-- Version 2 or 3, known types, one to four dimensions, and all counts fit their fields;
the arrays satisfy `P`. -/
structure Header.Ok (P : Arr → Prop) (h : Header) : Prop where
  version : h.version = 2 ∨ h.version = 3
  n_kv : h.kvs.length < 256 ^ 8
  n_tensors : h.tensors.length < 256 ^ 8
  kvs : ∀ p ∈ h.kvs, StrValid p.key ∧ p.value.Lift P
  tensors : ∀ t ∈ h.tensors, t.Valid

/-- The headers the reader accepts. -/
abbrev Header.Valid : Header → Prop := Header.Ok Arr.Valid

/-- The headers of the format. -/
abbrev Header.WellFormed : Header → Prop := Header.Ok Arr.WellFormed

/-- Every array of the metadata, at every level, has a known element type and a payload
whose size is not cut to 64 bits. -/
def Header.Sane (h : Header) : Prop := ∀ p ∈ h.kvs, ∀ a, p.value = .arr a → a.Sane

/-! ## The parser of trees -/

/-- Arrays nested at most as deep as there are bytes. -/
def Arr.read : ℕ → ByteParser Arr
  | 0 => fail Cursor.truncated
  | fuel + 1 => do
      let et ← Cursor.get 4
      let n ← Cursor.get 8
      if et = GV_STR then do pure (.strs (← rep n Cursor.str))
      else if et = GV_ARR then do pure (.arrs (← rep n (Arr.read fuel)))
      else do pure (.flat et n (← take Cursor.truncated (n * scalarSize et % 2 ^ 64)))

def Value.read (fuel t : ℕ) : ByteParser Value :=
  match ScalarTy.ofId t with
  | some ty => do pure (.scalar ty (← Cursor.get ty.size))
  | none =>
    if t = GV_STR then do pure (.str (← Cursor.str))
    else if t = GV_ARR then do pure (.arr (← Arr.read (fuel + 1)))
    else fail (badKvType t)

theorem Value.read_unknown {fuel t : ℕ} (h : ScalarTy.ofId t = none) (hs : t ≠ GV_STR)
    (ha : t ≠ GV_ARR) : Value.read fuel t = fail (badKvType t) := by
  rw [read, h]
  exact (if_neg hs).trans (if_neg ha)

def KvPair.read (fuel : ℕ) : ByteParser KvPair := do
  let key ← Cursor.str
  let t ← Cursor.get 4
  let v ← Value.read fuel t
  pure ⟨key, v⟩

def TensorInfo.read : ByteParser TensorInfo := do
  let name ← Cursor.str
  let nDims ← Cursor.get 4
  if nDims < 1 ∨ 4 < nDims then fail "gguf: bad n_dims"
  else do
    let dims ← rep nDims (Cursor.get 8)
    let type ← Cursor.get 4
    let offset ← Cursor.get 8
    pure ⟨name, dims, type, offset⟩

def Header.read (fuel : ℕ) : ByteParser Header := do
  let magic ← Cursor.get 4
  if magic ≠ 0x46554747 then fail "gguf: bad magic"
  else do
    let version ← Cursor.get 4
    if version < 2 ∨ 3 < version then fail ("gguf: unsupported version " ++ toString version)
    else do
      let nTensors ← Cursor.get 8
      let nKv ← Cursor.get 8
      let kvs ← rep nKv (KvPair.read fuel)
      let tensors ← rep nTensors TensorInfo.read
      pure ⟨version, kvs, tensors⟩

/-! ## It reads the syntax -/

theorem reads_get (N w : ℕ) : Reads N (Cursor.get w) (fun v => v < 256 ^ w) (leBytes w) :=
  reads_nat N Cursor.truncated w

theorem reads_str (N : ℕ) : Reads N Cursor.str StrValid encodeStr := by
  intro bs hN s rest
  rw [Cursor.str, (reads_get N 8).bind hN]
  simp only [run_take_ok]
  constructor
  · rintro ⟨n, mid, hn, rfl, -, rfl, rfl⟩
    exact ⟨hn, by rw [encodeStr, List.append_assoc]⟩
  · rintro ⟨hs, rfl⟩
    refine ⟨s.length, s ++ rest, hs, by rw [encodeStr, List.append_assoc], ?_, rfl, rfl⟩
    rw [encodeStr, List.append_assoc, List.length_append] at hN
    omega

/-- A field in front: the rest is shorter. -/
theorem length_rest_le {a b : List UInt8} {N : ℕ} (h : (a ++ b).length ≤ N) : b.length ≤ N := by
  rw [List.length_append] at h
  omega

theorem reads_arr (fuel : ℕ) : Reads fuel (Arr.read fuel) Arr.Valid Arr.encode := by
  induction fuel with
  | zero =>
    intro bs hN a rest
    obtain rfl : bs = [] := List.eq_nil_of_length_eq_zero (by omega)
    constructor
    · intro h
      cases h
    · rintro ⟨-, h⟩
      have hlen := congrArg List.length h
      cases a <;> simp [Arr.encode] at hlen <;> omega
  | succ fuel ih =>
    intro bs hN a rest
    rw [Arr.read, (reads_get _ 4).bind hN]
    constructor
    · rintro ⟨et, mid, het, rfl, hmid, h⟩
      rw [(reads_get _ 8).bind hmid] at h
      obtain ⟨n, mid', hn, rfl, hmid', h⟩ := h
      -- two fields have been read, so the nested arrays have less fuel than bytes
      have hfuel : mid'.length ≤ fuel := by
        simp only [List.length_append, length_leBytes] at hN
        omega
      split_ifs at h with hs ha
      · rw [((reads_str _).rep n).bind hmid'] at h
        obtain ⟨l, mid'', ⟨hlen, hl⟩, rfl, -, hp⟩ := h
        obtain ⟨rfl, rfl⟩ := run_pure_ok.mp hp
        exact ⟨.strs (hlen ▸ hn) hl, by simp [Arr.encode, hs, hlen]⟩
      · rw [(ih.rep n).bind hfuel] at h
        obtain ⟨l, mid'', ⟨hlen, hl⟩, rfl, -, hp⟩ := h
        obtain ⟨rfl, rfl⟩ := run_pure_ok.mp hp
        exact ⟨.arrs (hlen ▸ hn) hl, by simp [Arr.encode, Arr.encodeAll_eq, ha, hlen]⟩
      · rw [(reads_take _ _ _).bind hmid'] at h
        obtain ⟨payload, mid'', hlen, rfl, -, hp⟩ := h
        obtain ⟨rfl, rfl⟩ := run_pure_ok.mp hp
        exact ⟨.flat hs ha het hn hlen, by simp [Arr.encode]⟩
    · rintro ⟨hv, rfl⟩
      cases hv with
      | @flat et n payload hs ha het hn hlen =>
        simp only [Arr.encode, List.append_assoc] at hN ⊢
        refine ⟨et, _, het, rfl, length_rest_le hN, ?_⟩
        rw [(reads_get _ 8).bind (length_rest_le hN)]
        refine ⟨n, _, hn, rfl, length_rest_le (length_rest_le hN), ?_⟩
        rw [if_neg hs, if_neg ha, (reads_take _ _ _).bind (length_rest_le (length_rest_le hN))]
        exact ⟨payload, rest, hlen, rfl, length_rest_le (length_rest_le (length_rest_le hN)),
          run_pure_ok.mpr ⟨rfl, rfl⟩⟩
      | @strs l hlen hl =>
        simp only [Arr.encode, List.append_assoc] at hN ⊢
        refine ⟨GV_STR, _, by decide, rfl, length_rest_le hN, ?_⟩
        rw [(reads_get _ 8).bind (length_rest_le hN)]
        refine ⟨l.length, _, hlen, rfl, length_rest_le (length_rest_le hN), ?_⟩
        rw [if_pos rfl, ((reads_str _).rep _).bind (length_rest_le (length_rest_le hN))]
        exact ⟨l, rest, ⟨rfl, hl⟩, rfl, length_rest_le (length_rest_le (length_rest_le hN)),
          run_pure_ok.mpr ⟨rfl, rfl⟩⟩
      | @arrs l hlen hl =>
        simp only [Arr.encode, Arr.encodeAll_eq, List.append_assoc] at hN ⊢
        have hfuel : (l.flatMap Arr.encode ++ rest).length ≤ fuel := by
          simp only [List.length_append, length_leBytes] at hN ⊢
          omega
        refine ⟨GV_ARR, _, by decide, rfl, length_rest_le hN, ?_⟩
        rw [(reads_get _ 8).bind (length_rest_le hN)]
        refine ⟨l.length, _, hlen, rfl, length_rest_le (length_rest_le hN), ?_⟩
        rw [if_neg (by decide), if_pos rfl, (ih.rep _).bind hfuel]
        exact ⟨l, rest, ⟨rfl, hl⟩, rfl, length_rest_le hfuel, run_pure_ok.mpr ⟨rfl, rfl⟩⟩

theorem reads_value (fuel t : ℕ) : Reads fuel (Value.read fuel t)
    (fun v => v.typeId = t ∧ v.Lift Arr.Valid) Value.encode := by
  rw [Value.read]
  cases ht : ScalarTy.ofId t with
  | some ty =>
    obtain rfl := ScalarTy.ofId_eq_some.mp ht
    refine (reads_get fuel ty.size).map (Value.scalar ty) (fun v => ?_) (fun _ _ => rfl)
    constructor
    · rintro ⟨hid, hv⟩
      cases v with
      | scalar ty' raw =>
        have hty := ScalarTy.ofId_eq_some.mpr hid.symm
        rw [ht, Option.some.injEq] at hty
        subst hty
        exact ⟨raw, hv, rfl⟩
      | str s => exact absurd hid.symm ty.id_ne.1
      | arr a => exact absurd hid.symm ty.id_ne.2.1
    · rintro ⟨raw, hraw, rfl⟩
      exact ⟨rfl, hraw⟩
  | none =>
    have hno := ScalarTy.ofId_eq_none ht
    change Reads fuel (if t = GV_STR then _ else if t = GV_ARR then _ else fail (badKvType t)) _ _
    split_ifs with hs ha
    · refine (reads_str fuel).map Value.str (fun v => ?_) (fun _ _ => rfl)
      constructor
      · rintro ⟨hid, hv⟩
        cases v with
        | scalar ty raw => exact absurd hid.symm (hno ty)
        | str s => exact ⟨s, hv, rfl⟩
        | arr a =>
          have hne : GV_ARR ≠ GV_STR := by decide
          exact absurd (hid.trans hs) hne
      · rintro ⟨s, hv, rfl⟩
        exact ⟨hs.symm, hv⟩
    · refine ((reads_arr (fuel + 1)).mono (Nat.le_succ fuel)).map Value.arr (fun v => ?_)
        (fun _ _ => rfl)
      constructor
      · rintro ⟨hid, hv⟩
        cases v with
        | scalar ty raw => exact absurd hid.symm (hno ty)
        | str s => exact absurd hid.symm hs
        | arr a => exact ⟨a, hv, rfl⟩
      · rintro ⟨a, hv, rfl⟩
        exact ⟨ha.symm, hv⟩
    · intro bs _ v rest
      constructor
      · intro h
        cases h
      · rintro ⟨⟨hid, -⟩, -⟩
        cases v with
        | scalar ty raw => exact absurd hid.symm (hno ty)
        | str s => exact absurd hid.symm hs
        | arr a => exact absurd hid.symm ha

theorem Value.typeId_lt (v : Value) : v.typeId < 256 ^ 4 := by
  cases v with
  | scalar ty _ => exact ty.id_ne.2.2
  | str _ =>
    have hlt : GV_STR < 256 ^ 4 := by decide
    exact hlt
  | arr _ =>
    have hlt : GV_ARR < 256 ^ 4 := by decide
    exact hlt

theorem reads_kvPair (fuel : ℕ) : Reads fuel (KvPair.read fuel)
    (fun p => StrValid p.key ∧ p.value.Lift Arr.Valid) KvPair.encode := by
  intro bs hN p rest
  rw [KvPair.read, (reads_str _).bind hN]
  constructor
  · rintro ⟨key, mid, hkey, rfl, hmid, h⟩
    rw [(reads_get _ 4).bind hmid] at h
    obtain ⟨t, mid', ht, rfl, hmid', h⟩ := h
    rw [(reads_value fuel t).bind hmid'] at h
    obtain ⟨v, mid'', ⟨rfl, hv⟩, rfl, -, hp⟩ := h
    obtain ⟨rfl, rfl⟩ := run_pure_ok.mp hp
    exact ⟨⟨hkey, hv⟩, by simp [KvPair.encode]⟩
  · rintro ⟨⟨hkey, hv⟩, rfl⟩
    simp only [KvPair.encode, List.append_assoc] at hN ⊢
    refine ⟨p.key, _, hkey, rfl, length_rest_le hN, ?_⟩
    rw [(reads_get _ 4).bind (length_rest_le hN)]
    refine ⟨p.value.typeId, _, p.value.typeId_lt, rfl, length_rest_le (length_rest_le hN), ?_⟩
    rw [(reads_value fuel _).bind (length_rest_le (length_rest_le hN))]
    exact ⟨p.value, rest, ⟨rfl, hv⟩, rfl, length_rest_le (length_rest_le (length_rest_le hN)),
      run_pure_ok.mpr ⟨rfl, rfl⟩⟩

theorem reads_tensorInfo (N : ℕ) :
    Reads N TensorInfo.read TensorInfo.Valid TensorInfo.encode := by
  intro bs hN t rest
  rw [TensorInfo.read, (reads_str _).bind hN]
  constructor
  · rintro ⟨name, mid, hname, rfl, hmid, h⟩
    rw [(reads_get _ 4).bind hmid] at h
    obtain ⟨nDims, mid', -, rfl, hmid', h⟩ := h
    split_ifs at h with hbad
    · cases h
    · rw [((reads_get _ 8).rep nDims).bind hmid'] at h
      obtain ⟨dims, m1, ⟨hlen, hdims⟩, rfl, hm1, h⟩ := h
      rw [(reads_get _ 4).bind hm1] at h
      obtain ⟨type, m2, htype, rfl, hm2, h⟩ := h
      rw [(reads_get _ 8).bind hm2] at h
      obtain ⟨offset, m3, hoff, rfl, -, hp⟩ := h
      obtain ⟨rfl, rfl⟩ := run_pure_ok.mp hp
      exact ⟨⟨hname, by rw [hlen]; omega, by rw [hlen]; omega, hdims, htype, hoff⟩,
        by simp [TensorInfo.encode, hlen]⟩
  · rintro ⟨⟨hname, hge, hle, hdims, htype, hoff⟩, rfl⟩
    simp only [TensorInfo.encode, List.append_assoc] at hN ⊢
    have h1 := length_rest_le hN
    have h2 := length_rest_le h1
    have h3 := length_rest_le h2
    have h4 := length_rest_le h3
    refine ⟨t.name, _, hname, rfl, h1, ?_⟩
    rw [(reads_get _ 4).bind h1]
    refine ⟨t.dims.length, _, by omega, rfl, h2, ?_⟩
    rw [if_neg (by omega), ((reads_get _ 8).rep _).bind h2]
    refine ⟨t.dims, _, ⟨rfl, hdims⟩, rfl, h3, ?_⟩
    rw [(reads_get _ 4).bind h3]
    refine ⟨t.type, _, htype, rfl, h4, ?_⟩
    rw [(reads_get _ 8).bind h4]
    exact ⟨t.offset, rest, hoff, rfl, length_rest_le h4, run_pure_ok.mpr ⟨rfl, rfl⟩⟩

theorem reads_header (fuel : ℕ) : Reads fuel (Header.read fuel) Header.Valid Header.encode := by
  intro bs hN h rest
  rw [Header.read, (reads_get _ 4).bind hN]
  constructor
  · rintro ⟨magic, m1, -, rfl, hm1, hr⟩
    split_ifs at hr with hmagic
    · cases hr
    · rw [(reads_get _ 4).bind hm1] at hr
      obtain ⟨version, m2, -, rfl, hm2, hr⟩ := hr
      split_ifs at hr with hversion
      · cases hr
      · rw [(reads_get _ 8).bind hm2] at hr
        obtain ⟨nt, m3, hnt, rfl, hm3, hr⟩ := hr
        rw [(reads_get _ 8).bind hm3] at hr
        obtain ⟨nkv, m4, hnkv, rfl, hm4, hr⟩ := hr
        rw [((reads_kvPair fuel).rep nkv).bind hm4] at hr
        obtain ⟨kvs, m5, ⟨hlen, hkvs⟩, rfl, hm5, hr⟩ := hr
        rw [((reads_tensorInfo fuel).rep nt).bind hm5] at hr
        obtain ⟨ts, m6, ⟨hlen', hts⟩, rfl, -, hp⟩ := hr
        obtain ⟨rfl, rfl⟩ := run_pure_ok.mp hp
        obtain rfl : magic = ggufMagic := not_ne_iff.mp hmagic
        exact ⟨⟨by change version = 2 ∨ version = 3; omega, hlen ▸ hnkv, hlen' ▸ hnt, hkvs, hts⟩,
          by simp [Header.encode, hlen, hlen']⟩
  · rintro ⟨hv, rfl⟩
    simp only [Header.encode, List.append_assoc] at hN ⊢
    have h1 := length_rest_le hN
    have h2 := length_rest_le h1
    have h3 := length_rest_le h2
    have h4 := length_rest_le h3
    have h5 := length_rest_le h4
    have hversion := hv.version
    refine ⟨ggufMagic, _, by decide, rfl, h1, ?_⟩
    rw [if_neg (by decide), (reads_get _ 4).bind h1]
    refine ⟨h.version, _, by omega, rfl, h2, ?_⟩
    rw [if_neg (by omega), (reads_get _ 8).bind h2]
    refine ⟨h.tensors.length, _, hv.n_tensors, rfl, h3, ?_⟩
    rw [(reads_get _ 8).bind h3]
    refine ⟨h.kvs.length, _, hv.n_kv, rfl, h4, ?_⟩
    rw [((reads_kvPair fuel).rep _).bind h4]
    refine ⟨h.kvs, _, ⟨rfl, hv.kvs⟩, rfl, h5, ?_⟩
    rw [((reads_tensorInfo fuel).rep _).bind h5]
    exact ⟨h.tensors, rest, ⟨rfl, hv.tensors⟩, rfl, length_rest_le h5,
      run_pure_ok.mpr ⟨rfl, rfl⟩⟩

end FastLlm
