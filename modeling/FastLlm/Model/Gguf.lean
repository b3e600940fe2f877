import FastLlm.Lib.ByteParser
import FastLlm.Runtime.Quants
import Mathlib.Data.Int.Basic
import Mathlib.Logic.Function.Basic

/-!
# The GGUF reader

`open` maps the shards of a model file, reads their metadata and tensor infos and
leaves the payloads where they are.  Everything here is as the reader computes it:
counts and sizes come from the file, products are 64 bits wide, and the start of the
data section is computed with a 32-bit mask.

A parser that gives up stands for the message and the `abort()`, and for a `reserve` of
more elements than there is memory, which ends the program before the read that would.
File names are left out: a split model is the list of its shards, with the position of the
one the caller named.

## Main definitions

* `Cursor.get`, `Cursor.str`, `Cursor.skip`, `skipValue` — the cursor.
* `File`, `Gguf`, `mapOne`, `openGguf` — the reader.
* `Gguf.kvI`, `Gguf.kvF`, `Gguf.kvS`, `Gguf.kvSarr`, `Gguf.find`, `Gguf.data` — the
  queries.
-/

namespace FastLlm

/-- The bytes of a `std::string`. -/
abbrev Str := List UInt8

/-- An ASCII literal. -/
def ascii (s : String) : Str := s.toList.map fun c => UInt8.ofNat c.toNat

open ByteParser (fail take nat loop)

/-! ## The cursor -/

namespace Cursor

/-- What `need` says. -/
def truncated : String := "gguf: truncated file"

/-- `get<T>()` for an unsigned `T` of `w` bytes. -/
def get (w : ℕ) : ByteParser ℕ := nat truncated w

def str : ByteParser Str := do
  let n ← get 8
  take truncated n

def skip (n : ℕ) : ByteParser Unit := do
  let _ ← take truncated n
  pure ()

end Cursor

/-- GGUF value type ids. -/
@[match_pattern] abbrev GV_U8 : ℕ := 0
@[match_pattern] abbrev GV_I8 : ℕ := 1
@[match_pattern] abbrev GV_U16 : ℕ := 2
@[match_pattern] abbrev GV_I16 : ℕ := 3
@[match_pattern] abbrev GV_U32 : ℕ := 4
@[match_pattern] abbrev GV_I32 : ℕ := 5
@[match_pattern] abbrev GV_F32 : ℕ := 6
@[match_pattern] abbrev GV_BOOL : ℕ := 7
@[match_pattern] abbrev GV_STR : ℕ := 8
@[match_pattern] abbrev GV_ARR : ℕ := 9
@[match_pattern] abbrev GV_U64 : ℕ := 10
@[match_pattern] abbrev GV_I64 : ℕ := 11
@[match_pattern] abbrev GV_F64 : ℕ := 12

def scalarSize : ℕ → ℕ
  | GV_U8 | GV_I8 | GV_BOOL => 1
  | GV_U16 | GV_I16 => 2
  | GV_U32 | GV_I32 | GV_F32 => 4
  | GV_U64 | GV_I64 | GV_F64 => 8
  | _ => 0

def badKvType (t : ℕ) : String := "gguf: bad kv type " ++ toString t

/-- Skip a value of type `t`.  The recursion into nested arrays is bounded by the bytes
that are left: with none, the read of an element type gives up. -/
def skipValue : ℕ → ℕ → ByteParser ℕ
  | 0, _ => fail Cursor.truncated
  | fuel + 1, t =>
    if t = GV_STR then do
      let _ ← Cursor.str
      pure 0
    else if t = GV_ARR then do
      let et ← Cursor.get 4
      let n ← Cursor.get 8
      if et = GV_STR then
        loop n (fun _ => do
          let _ ← Cursor.str
          pure ()) ()
      else if et = GV_ARR then
        loop n (fun _ => do
          let _ ← skipValue fuel GV_ARR
          pure ()) ()
      else Cursor.skip (n * scalarSize et % 2 ^ 64)
      pure 0
    else if scalarSize t = 0 then fail (badKvType t)
    else do
      let v ← Cursor.get (scalarSize t)
      pure (if t = GV_U8 ∨ t = GV_U16 ∨ t = GV_U32 ∨ t = GV_U64 then v else 0)

/-! ## Metadata -/

/-- The four maps. -/
structure Kv where
  i : Str → Option ℤ := fun _ => none
  f : Str → Option Float := fun _ => none
  s : Str → Option Str := fun _ => none
  sa : Str → Option (List Str) := fun _ => none

/-- A number of `w` bits read as a signed one. -/
def toSigned (w v : ℕ) : ℤ := Int.bmod v (2 ^ w)

namespace Kv

def setI (kv : Kv) (key : Str) (v : ℤ) : Kv := { kv with i := Function.update kv.i key (some v) }

def setF (kv : Kv) (key : Str) (v : Float) : Kv :=
  { kv with f := Function.update kv.f key (some v) }

def setS (kv : Kv) (key : Str) (v : Str) : Kv := { kv with s := Function.update kv.s key (some v) }

/-- Push strings to the array of a key, which is created empty. -/
def pushSa (kv : Kv) (key : Str) (v : List Str) : Kv :=
  { kv with sa := Function.update kv.sa key (some ((kv.sa key).getD [] ++ v)) }

end Kv

/-- `float` and `double` from their bytes. -/
def f32OfBits (v : ℕ) : Float := (Float32.ofBits (UInt32.ofNat v)).toFloat
def f64OfBits (v : ℕ) : Float := Float.ofBits (UInt64.ofNat v)

/-- Capture or skip the value of type `t` that belongs to `key`. -/
def captureKv (fuel : ℕ) (kv : Kv) (key : Str) (t : ℕ) : ByteParser Kv :=
  match t with
  | GV_U8 => do pure (kv.setI key (← Cursor.get 1))
  | GV_I8 => do pure (kv.setI key (toSigned 8 (← Cursor.get 1)))
  | GV_BOOL => do pure (kv.setI key (if (← Cursor.get 1) ≠ 0 then 1 else 0))
  | GV_U16 => do pure (kv.setI key (← Cursor.get 2))
  | GV_I16 => do pure (kv.setI key (toSigned 16 (← Cursor.get 2)))
  | GV_U32 => do pure (kv.setI key (← Cursor.get 4))
  | GV_I32 => do pure (kv.setI key (toSigned 32 (← Cursor.get 4)))
  | GV_U64 => do pure (kv.setI key (toSigned 64 (← Cursor.get 8)))
  | GV_I64 => do pure (kv.setI key (toSigned 64 (← Cursor.get 8)))
  | GV_F32 => do pure (kv.setF key (f32OfBits (← Cursor.get 4)))
  | GV_F64 => do pure (kv.setF key (f64OfBits (← Cursor.get 8)))
  | GV_STR => do pure (kv.setS key (← Cursor.str))
  | GV_ARR => do
      let et ← Cursor.get 4
      let n ← Cursor.get 8
      if et = GV_STR then
        loop n (fun kv => do pure (kv.pushSa key [← Cursor.str])) (kv.pushSa key [])
      else if et = GV_ARR then
        loop n (fun kv => do
          let _ ← skipValue fuel GV_ARR
          pure kv) kv
      else do
        Cursor.skip (n * scalarSize et % 2 ^ 64)
        pure kv
  | _ => fail (badKvType t)

def alignmentKey : Str := ascii "general.alignment"

/-- The alignment after a pair: a positive integer under the key replaces it, cut to 32
bits. -/
def alignLocal (kv : Kv) (key : Str) (align : UInt32) : UInt32 :=
  if key = alignmentKey then
    match kv.i key with
    | some v => if 0 < v then UInt32.ofNat v.toNat else align
    | none => align
  else align

/-- One round of the loop over the key-value pairs. -/
def readKv (fuel : ℕ) (s : Kv × UInt32) : ByteParser (Kv × UInt32) := do
  let key ← Cursor.str
  let t ← Cursor.get 4
  let kv ← captureKv fuel s.1 key t
  pure (kv, alignLocal kv key s.2)

/-! ## Tensor infos -/

/-- The type ids the engine has kernels for. -/
def fmtOf : ℕ → Option Fmt
  | 0 => some .F32
  | 8 => some .Q8_0
  | 6 => some .Q5_0
  | 12 => some .Q4_K
  | 14 => some .Q6_K
  | 16 => some .IQ2_XXS
  | 18 => some .IQ3_XXS
  | _ => none

def GGML_TYPE_F16 : ℕ := 1

/-- `dims` holds the `n_dims` dimensions that were read. -/
structure GgufTensor where
  name : Str
  type : ℕ
  dims : List ℕ
  offset : ℕ
  nbytes : ℕ
  shard : ℕ
  deriving DecidableEq, Repr

/-- `ne[d]`, 1 unless it was read. -/
def GgufTensor.ne (t : GgufTensor) (d : ℕ) : ℕ := t.dims.getD d 1

/-- Payload bytes in 64 bits; the row length is cut to 32 bits. -/
def payloadBytes (type : ℕ) (ne : ℕ → ℕ) : ℕ :=
  match fmtOf type with
  | some f => rowBytes f (ne 0 % 2 ^ 32) * ne 1 * ne 2 * ne 3 % 2 ^ 64
  | none => if type = GGML_TYPE_F16 then 2 * ne 0 * ne 1 * ne 2 * ne 3 % 2 ^ 64 else 0

/-- One round of the loop over the tensor infos. -/
def readTensor (idx : ℕ) : ByteParser GgufTensor := do
  let name ← Cursor.str
  let nDims ← Cursor.get 4
  -- as an `int`: from 2 ^ 31 on it is negative
  if nDims < 1 ∨ 4 < nDims then fail "gguf: bad n_dims"
  else do
    let dims ← loop nDims (fun dims => do pure (dims ++ [← Cursor.get 8])) []
    let type ← Cursor.get 4
    let offset ← Cursor.get 8
    pure ⟨name, type, dims, offset, payloadBytes type fun d => dims.getD d 1, idx⟩

/-! ## Files -/

/-- A file, whose size is an `off_t`. -/
structure File where
  bytes : List UInt8
  size_lt : bytes.length < 2 ^ 63

/-- A mapped file and the start of its data section. -/
structure Shard where
  base : List UInt8
  dataOff : UInt64
  deriving DecidableEq

structure Gguf where
  kv : Kv := {}
  tensors : List GgufTensor := []
  shards : List Shard := []
  align : UInt32 := 32

/-- Round up to the next multiple, if the alignment is a power of two. -/
def alignUp (off : UInt64) (align : UInt32) : UInt64 :=
  (off + align.toUInt64 - 1) &&& ~~~(align - 1).toUInt64

/-- Everything up to the end of the tensor infos: the maps, the alignment and all tensors. -/
def readHeader (g : Gguf) (fuel idx : ℕ) (keepKv : Bool) :
    ByteParser (Kv × UInt32 × List GgufTensor) := do
  let magic ← Cursor.get 4
  if magic ≠ 0x46554747 then fail "gguf: bad magic"
  else do
    let version ← Cursor.get 4
    if version < 2 ∨ 3 < version then fail ("gguf: unsupported version " ++ toString version)
    else do
      let nTensors ← Cursor.get 8
      let nKv ← Cursor.get 8
      let s ← loop nKv (readKv fuel) (if keepKv then g.kv else {}, 32)
      let tensors ← loop nTensors (fun ts => do pure (ts ++ [← readTensor idx])) g.tensors
      pure (s.1, s.2, tensors)

/-- `map_one` on a file that exists.  An empty file cannot be mapped. -/
def mapOne (g : Gguf) (file : File) (idx : ℕ) (keepKv : Bool) : Except String Gguf :=
  if file.bytes = [] then .error "gguf: mmap failed"
  else
    match (readHeader g file.bytes.length idx keepKv).run file.bytes with
    | .error e => .error e
    | .ok ((kv, align, tensors), rest) =>
      let off := UInt64.ofNat (file.bytes.length - rest.length)
      .ok
        { kv := if keepKv then kv else g.kv
          align := if keepKv then align else g.align
          tensors := tensors
          shards := g.shards ++ [⟨file.bytes, alignUp off align⟩] }

/-- `has`, `kv_i`, `kv_f`, `kv_s`, `kv_sarr`. -/
def Gguf.has (g : Gguf) (k : Str) : Bool :=
  (g.kv.i k).isSome || (g.kv.f k).isSome || (g.kv.s k).isSome || (g.kv.sa k).isSome

def Gguf.kvI (g : Gguf) (k : Str) (dflt : ℤ) : ℤ :=
  match g.kv.i k with
  | some v => v
  | none =>
    match g.kv.f k with
    | some v => v.toInt64.toInt
    | none => dflt

def Gguf.kvF (g : Gguf) (k : Str) (dflt : Float) : Float :=
  match g.kv.f k with
  | some v => v
  | none =>
    match g.kv.i k with
    | some v => Float.ofInt v
    | none => dflt

def Gguf.kvS (g : Gguf) (k : Str) (dflt : Str) : Str := (g.kv.s k).getD dflt

def Gguf.kvSarr (g : Gguf) (k : Str) : Option (List Str) := g.kv.sa k

def Gguf.find (g : Gguf) (name : Str) : Option GgufTensor := g.tensors.find? fun t => t.name = name

/-- Where the payload of `t` starts, relative to the base of its shard. -/
def Gguf.data (g : Gguf) (t : GgufTensor) : UInt64 :=
  (g.shards[t.shard]?.map Shard.dataOff).getD 0 + UInt64.ofNat t.offset

/-- What a path names: a file, or the shards of a split model and the position of the
shard with this very name.  A missing file is `none`. -/
inductive ModelPath
  | file (f : Option File)
  | split (named : ℕ) (shards : List (Option File))

/-- The loop over the shards of a split model; no result when one is missing. -/
def mapShards (named : ℕ) : Gguf → List (Option File) → Except String (Option Gguf)
  | g, [] => .ok (some g)
  | _, none :: _ => .ok none
  | g, some f :: rest => do
      let g' ← mapOne g f g.shards.length (g.shards.length = named)
      mapShards named g' rest

/-- `open`. -/
def openGguf : ModelPath → Except String (Option Gguf)
  | .file none => .ok none
  | .file (some f) => (mapOne {} f 0 true).map some
  | .split named shards => do
      match ← mapShards named {} shards with
      | none => pure none
      | some g =>
        let want := g.kvI (ascii "split.tensors.count") 0
        if 0 < want ∧ (g.tensors.length : ℤ) ≠ want then
          .error "gguf: split.tensors.count does not match the mapped tensors"
        else pure (some g)

end FastLlm
