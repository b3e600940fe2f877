import FastLlm.Model.GgufSyntax

/-!
# The reader interprets the tree

`mapOne` reads a header and interprets it while it reads.  Here the two are taken
apart: the reader accepts a file exactly if the file starts with the encoding of a valid
header, and its result is a function of this header (`mapOne_ok_iff`).  Questions about
the reader are then questions about trees.

## Main definitions

* `Kv.capture`, `capturePair`, `TensorInfo.toTensor` — the meaning of pairs and infos.
* `Header.capture`, `Header.install` — the maps and the alignment of a header, and the
  reader after a file.
-/

namespace FastLlm
open ByteParser (rep loop loop_eq_rep)

/-! ## The meaning of a tree -/

/-- What a scalar is stored as. -/
inductive Number
  | int (v : ℤ)
  | float (v : Float)

/-- The number a scalar is captured as: an `int64_t` or a `double`. -/
def ScalarTy.number (raw : ℕ) : ScalarTy → Number
  | u8 | u16 | u32 => .int raw
  | i8 => .int (toSigned 8 raw)
  | i16 => .int (toSigned 16 raw)
  | i32 => .int (toSigned 32 raw)
  | u64 | i64 => .int (toSigned 64 raw)
  | bool => .int (if raw ≠ 0 then 1 else 0)
  | f32 => .float (f32OfBits raw)
  | f64 => .float (f64OfBits raw)

/-- Capture a value: numbers, strings and arrays of strings. -/
def Kv.capture (kv : Kv) (key : Str) : Value → Kv
  | .scalar ty raw =>
    match ty.number raw with
    | .int v => kv.setI key v
    | .float v => kv.setF key v
  | .str s => kv.setS key s
  | .arr (.strs l) => kv.pushSa key l
  | .arr _ => kv

/-- One pair: capture it, then look at the alignment. -/
def capturePair (s : Kv × UInt32) (p : KvPair) : Kv × UInt32 :=
  (s.1.capture p.key p.value, alignLocal (s.1.capture p.key p.value) p.key s.2)

def TensorInfo.toTensor (idx : ℕ) (t : TensorInfo) : GgufTensor :=
  ⟨t.name, t.type, t.dims, t.offset, payloadBytes t.type fun d => t.dims.getD d 1, idx⟩

/-! ## Skipping and capturing -/

/-- Reading values and forgetting them. -/
theorem loop_forget {α : Type} (n : ℕ) (p : ByteParser α) :
    loop n (fun _ => do let _ ← p; pure ()) () = (do let _ ← rep n p; pure ()) := by
  rw [ByteParser.loop_eq_rep n p (fun _ _ => ())]

/-- Skipping an array is reading it and forgetting it. -/
theorem skipValue_arr (fuel : ℕ) :
    skipValue fuel GV_ARR = (do let _ ← Arr.read fuel; pure 0) := by
  induction fuel with
  | zero => rfl
  | succ fuel ih =>
    rw [skipValue, if_neg (by decide), if_pos rfl, Arr.read]
    simp only [ih, bind_assoc, pure_bind]
    apply bind_congr
    intro et
    apply bind_congr
    intro n
    split_ifs
    · simp only [loop_forget, bind_assoc, pure_bind]
    · simp only [loop_forget, bind_assoc, pure_bind]
    · simp only [Cursor.skip, bind_assoc, pure_bind]

@[simp] theorem Kv.pushSa_pushSa (kv : Kv) (key : Str) (a b : List Str) :
    (kv.pushSa key a).pushSa key b = kv.pushSa key (a ++ b) := by
  simp [pushSa]

theorem Kv.foldl_pushSa (kv : Kv) (key : Str) (l a : List Str) :
    l.foldl (fun kv s => kv.pushSa key [s]) (kv.pushSa key a) = kv.pushSa key (a ++ l) := by
  induction l generalizing a with
  | nil => simp
  | cons s l ih => rw [List.foldl_cons, Kv.pushSa_pushSa, ih, List.append_assoc, List.singleton_append]

/-- The strings of an array are pushed one by one. -/
theorem loop_pushSa (kv : Kv) (key : Str) (n : ℕ) :
    loop n (fun kv => do pure (kv.pushSa key [← Cursor.str])) (kv.pushSa key []) =
      (do let l ← rep n Cursor.str; pure (kv.pushSa key l)) := by
  rw [loop_eq_rep n Cursor.str (fun kv s => Kv.pushSa kv key [s])]
  simp only [Kv.foldl_pushSa, List.nil_append]

theorem loop_skip (kv : Kv) (fuel n : ℕ) :
    loop n (fun kv => do
      let _ ← skipValue fuel GV_ARR
      pure kv) kv =
      (do let _ ← rep n (Arr.read fuel); pure kv) := by
  have hfold (l : List Arr) : l.foldl (fun kv _ => kv) kv = kv := by
    induction l with
    | nil => rfl
    | cons a l ih => exact ih
  simp only [skipValue_arr, bind_assoc, pure_bind]
  rw [loop_eq_rep n (Arr.read fuel) (fun kv _ => kv)]
  simp only [hfold]

/-- Capturing a value is reading it and storing it. -/
theorem captureKv_eq (fuel : ℕ) (kv : Kv) (key : Str) (t : ℕ) :
    captureKv fuel kv key t = (do let v ← Value.read fuel t; pure (kv.capture key v)) := by
  unfold captureKv
  split
  case h_13 =>
    change _ = (do let v ← (do pure (Value.arr (← Arr.read (fuel + 1)))); pure (kv.capture key v))
    simp only [Arr.read, bind_assoc, pure_bind]
    apply bind_congr
    intro et
    apply bind_congr
    intro n
    split_ifs
    · simp only [loop_pushSa, bind_assoc, pure_bind, Kv.capture]
    · simp only [loop_skip, bind_assoc, pure_bind, Kv.capture]
    · simp only [Cursor.skip, bind_assoc, pure_bind, Kv.capture]
  case h_14 hs ha =>
    have hunknown : ScalarTy.ofId t = none := by simp [ScalarTy.ofId, *]
    rw [Value.read_unknown hunknown hs ha]
    rfl
  all_goals simp [Value.read, ScalarTy.ofId, ScalarTy.size, ScalarTy.id, scalarSize, Kv.capture,
    ScalarTy.number]

/-- One round of the loop over the pairs. -/
theorem readKv_eq (fuel : ℕ) (s : Kv × UInt32) :
    readKv fuel s = (do let p ← KvPair.read fuel; pure (capturePair s p)) := by
  simp only [readKv, KvPair.read, captureKv_eq, capturePair, bind_assoc, pure_bind]

/-- The dimensions are pushed one by one. -/
theorem loop_push {α : Type} (n : ℕ) (p : ByteParser α) (l : List α) :
    loop n (fun l => do pure (l ++ [← p])) l = (do let l' ← rep n p; pure (l ++ l')) := by
  have hfold (l' : List α) (l : List α) : l'.foldl (fun l x => l ++ [x]) l = l ++ l' := by
    induction l' generalizing l with
    | nil => simp
    | cons x l' ih => rw [List.foldl_cons, ih, List.append_assoc, List.singleton_append]
  rw [loop_eq_rep n p (fun l x => l ++ [x])]
  simp only [hfold]

theorem readTensor_eq (idx : ℕ) :
    readTensor idx = (do let t ← TensorInfo.read; pure (t.toTensor idx)) := by
  simp only [readTensor, TensorInfo.read, loop_push, List.nil_append, bind_assoc, pure_bind]
  apply bind_congr
  intro name
  apply bind_congr
  intro nDims
  split_ifs
  · rfl
  · simp only [bind_assoc, pure_bind, TensorInfo.toTensor]

/-! ## Headers and files -/

/-- The maps and the alignment after the pairs, from the maps before them. -/
def Header.capture (h : Header) (kv : Kv) : Kv × UInt32 := h.kvs.foldl capturePair (kv, 32)

/-- The reader after a file that starts with the header. -/
def Header.install (h : Header) (g : Gguf) (file : File) (idx : ℕ) (keepKv : Bool) : Gguf :=
  let s := h.capture (if keepKv then g.kv else {})
  { kv := if keepKv then s.1 else g.kv
    align := if keepKv then s.2 else g.align
    tensors := g.tensors ++ h.tensors.map fun t => t.toTensor idx
    shards := g.shards ++ [⟨file.bytes, alignUp (UInt64.ofNat h.encode.length) s.2⟩] }

theorem readHeader_eq (g : Gguf) (fuel idx : ℕ) (keepKv : Bool) :
    readHeader g fuel idx keepKv = (do
      let h ← Header.read fuel
      let s := h.capture (if keepKv then g.kv else {})
      pure (s.1, s.2, g.tensors ++ h.tensors.map fun t => t.toTensor idx)) := by
  have hkv (n : ℕ) (s : Kv × UInt32) : loop n (readKv fuel) s =
      (do let l ← rep n (KvPair.read fuel); pure (l.foldl capturePair s)) := by
    rw [← loop_eq_rep]
    exact ByteParser.loop_congr (fun s => readKv_eq fuel s) s
  have hts (n : ℕ) (ts : List GgufTensor) :
      loop n (fun ts => do pure (ts ++ [← readTensor idx])) ts =
      (do let l ← rep n TensorInfo.read; pure (ts ++ l.map fun t => t.toTensor idx)) := by
    have hfold (l : List TensorInfo) (ts : List GgufTensor) :
        l.foldl (fun ts t => ts ++ [t.toTensor idx]) ts = ts ++ l.map fun t => t.toTensor idx := by
      induction l generalizing ts with
      | nil => simp
      | cons t l ih =>
        rw [List.foldl_cons, ih, List.append_assoc, List.map_cons, List.singleton_append]
    simp only [readTensor_eq, bind_assoc, pure_bind]
    rw [loop_eq_rep n TensorInfo.read (fun ts t => ts ++ [t.toTensor idx])]
    simp only [hfold]
  simp only [readHeader, Header.read, hkv, hts, Header.capture, bind_assoc, pure_bind]
  generalize (if keepKv = true then g.kv else {}) = kv
  apply bind_congr
  intro magic
  split_ifs
  · rfl
  · simp only [bind_assoc]
    apply bind_congr
    intro version
    split_ifs
    · rfl
    · simp only [bind_assoc, pure_bind]

theorem Header.encode_ne_nil (h : Header) : h.encode ≠ [] := by
  intro hnil
  have hlen := congrArg List.length hnil
  simp only [encode, List.length_append, length_leBytes, List.length_nil] at hlen
  omega

/-- The reader accepts a file exactly if it starts with a valid header, whose meaning it
adds to its state. -/
theorem mapOne_ok_iff {g g' : Gguf} {file : File} {idx : ℕ} {keepKv : Bool} :
    mapOne g file idx keepKv = .ok g' ↔
      ∃ (h : Header) (rest : List UInt8), h.Valid ∧ file.bytes = h.encode ++ rest ∧
        g' = h.install g file idx keepKv := by
  have hread (r : Kv × UInt32 × List GgufTensor) (rest : List UInt8) :
      (readHeader g file.bytes.length idx keepKv).run file.bytes = .ok (r, rest) ↔
        ∃ h : Header, h.Valid ∧ file.bytes = h.encode ++ rest ∧
          r = ((h.capture (if keepKv then g.kv else {})).1,
            (h.capture (if keepKv then g.kv else {})).2,
            g.tensors ++ h.tensors.map fun t => t.toTensor idx) := by
    rw [readHeader_eq, (reads_header file.bytes.length).bind le_rfl]
    simp only [ByteParser.run_pure_ok]
    constructor
    · rintro ⟨h, mid, hv, hfile, -, rfl, rfl⟩
      exact ⟨h, hv, hfile, rfl⟩
    · rintro ⟨h, hv, hfile, rfl⟩
      exact ⟨h, rest, hv, hfile, length_rest_le (congrArg _ hfile).ge, rfl, rfl⟩
  have hoff {h : Header} {rest : List UInt8} (hfile : file.bytes = h.encode ++ rest) :
      file.bytes.length - rest.length = h.encode.length := by
    rw [hfile, List.length_append, Nat.add_sub_cancel]
  rw [mapOne]
  by_cases hnil : file.bytes = []
  · rw [if_pos hnil]
    constructor
    · intro hm
      cases hm
    · rintro ⟨h, rest, -, hfile, -⟩
      exact absurd (List.append_eq_nil_iff.mp (hfile.symm.trans hnil)).1 h.encode_ne_nil
  rw [if_neg hnil]
  constructor
  · intro hm
    cases hrun : (readHeader g file.bytes.length idx keepKv).run file.bytes with
    | error e =>
      rw [hrun] at hm
      cases hm
    | ok res =>
      obtain ⟨r, rest⟩ := res
      obtain ⟨h, hv, hfile, rfl⟩ := (hread r rest).mp hrun
      rw [hrun] at hm
      refine ⟨h, rest, hv, hfile, ?_⟩
      rw [← Except.ok.inj hm, hoff hfile]
      rfl
  · rintro ⟨h, rest, hv, hfile, rfl⟩
    rw [(hread _ rest).mpr ⟨h, hv, hfile, rfl⟩]
    simp only [hoff hfile, Header.install]

end FastLlm
