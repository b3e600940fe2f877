import FastLlm.Lib.Metered
import FastLlm.Model.Gguf

/-!
# The cost of reading a shard

`map_one` once more, with a meter: a step is a round of one of its loops or a call of
`skip_value`, and every read notes its span.  Memory for a vector is there or not, as `room` says.
The bounds of the loops come from the file, and arrays may hold arrays, but every round and every
call consumes some bytes or ends the run.  So the steps are at most the bytes of the file, and
the depth that `skipValue` is given is never used up (`mapOne_linear`).

## Main definitions

* `Metered.skipValue`, `Metered.captureKv`, `Metered.readKv`, `Metered.readTensor`,
  `Metered.readHeader`, `Metered.mapOne` — the reader.
-/

namespace FastLlm.Metered

open MeteredParser (stop fail tick loop reserve)

/-! ## The reader -/

def get (w : ℕ) : MeteredParser ℕ := MeteredParser.nat Cursor.truncated w

def str : MeteredParser Str := do
  let n ← get 8
  MeteredParser.take Cursor.truncated n

def skip (n : ℕ) : MeteredParser Unit := MeteredParser.skip Cursor.truncated n

/-- `skip_value`; the first argument is how deep the recursion may still go. -/
def skipValue : ℕ → ℕ → MeteredParser ℕ
  | 0, _ => stop .noFuel
  | fuel + 1, t => do
    tick
    if t = GV_STR then do
      let _ ← str
      pure 0
    else if t = GV_ARR then do
      let et ← get 4
      let n ← get 8
      if et = GV_STR then
        loop n (fun _ => do
          let _ ← str
          pure ()) ()
      else if et = GV_ARR then
        loop n (fun _ => do
          let _ ← skipValue fuel GV_ARR
          pure ()) ()
      else skip (n * scalarSize et % 2 ^ 64)
      pure 0
    else if scalarSize t = 0 then fail (badKvType t)
    else do
      let v ← get (scalarSize t)
      pure (if t = GV_U8 ∨ t = GV_U16 ∨ t = GV_U32 ∨ t = GV_U64 then v else 0)

section
variable (room : ℕ → ℕ → Bool)

/-- The `switch` of `map_one`. -/
def captureKv (fuel : ℕ) (kv : Kv) (key : Str) (t : ℕ) : MeteredParser Kv :=
  match t with
  | GV_U8 => do pure (kv.setI key (← get 1))
  | GV_I8 => do pure (kv.setI key (toSigned 8 (← get 1)))
  | GV_BOOL => do pure (kv.setI key (if (← get 1) ≠ 0 then 1 else 0))
  | GV_U16 => do pure (kv.setI key (← get 2))
  | GV_I16 => do pure (kv.setI key (toSigned 16 (← get 2)))
  | GV_U32 => do pure (kv.setI key (← get 4))
  | GV_I32 => do pure (kv.setI key (toSigned 32 (← get 4)))
  | GV_U64 => do pure (kv.setI key (toSigned 64 (← get 8)))
  | GV_I64 => do pure (kv.setI key (toSigned 64 (← get 8)))
  | GV_F32 => do pure (kv.setF key (f32OfBits (← get 4)))
  | GV_F64 => do pure (kv.setF key (f64OfBits (← get 8)))
  | GV_STR => do pure (kv.setS key (← str))
  | GV_ARR => do
      let et ← get 4
      let n ← get 8
      if et = GV_STR then do
        reserve room n
        loop n (fun kv => do pure (kv.pushSa key [← str])) (kv.pushSa key [])
      else if et = GV_ARR then
        loop n (fun kv => do
          let _ ← skipValue fuel GV_ARR
          pure kv) kv
      else do
        skip (n * scalarSize et % 2 ^ 64)
        pure kv
  | _ => fail (badKvType t)

/-- One round of the loop over the key-value pairs. -/
def readKv (fuel : ℕ) (s : Kv × UInt32) : MeteredParser (Kv × UInt32) := do
  let key ← str
  let t ← get 4
  let kv ← captureKv room fuel s.1 key t
  pure (kv, alignLocal kv key s.2)

/-- One round of the loop over the tensor infos. -/
def readTensor (idx : ℕ) : MeteredParser GgufTensor := do
  let name ← str
  let nDims ← get 4
  if nDims < 1 ∨ 4 < nDims then fail "gguf: bad n_dims"
  else do
    let dims ← loop nDims (fun dims => do pure (dims ++ [← get 8])) []
    let type ← get 4
    let offset ← get 8
    pure ⟨name, type, dims, offset, payloadBytes type fun d => dims.getD d 1, idx⟩

/-- Everything up to the end of the tensor infos. -/
def readHeader (g : Gguf) (fuel idx : ℕ) (keepKv : Bool) :
    MeteredParser (Kv × UInt32 × List GgufTensor) := do
  let magic ← get 4
  if magic ≠ 0x46554747 then fail "gguf: bad magic"
  else do
    let version ← get 4
    if version < 2 ∨ 3 < version then fail ("gguf: unsupported version " ++ toString version)
    else do
      let nTensors ← get 8
      let nKv ← get 8
      let s ← loop nKv (readKv room fuel) (if keepKv then g.kv else {}, 32)
      reserve room ((g.tensors.length + nTensors) % 2 ^ 64)
      let tensors ← loop nTensors (fun ts => do pure (ts ++ [← readTensor idx])) g.tensors
      pure (s.1, s.2, tensors)

/-- `map_one`, and what the meter shows at its end. -/
def mapOne (g : Gguf) (file : File) (idx : ℕ) (keepKv : Bool) : Except Stop Gguf × Meter :=
  if file.bytes = [] then (.error (.abort "gguf: mmap failed"), {})
  else
    match (readHeader room g file.bytes.length idx keepKv).exec file.bytes {} with
    | (.error e, m) => (.error e, m)
    | (.ok (kv, align, tensors), m) =>
      let off := UInt64.ofNat m.pos
      (.ok
        { kv := if keepKv then kv else g.kv
          align := if keepKv then align else g.align
          tensors := tensors
          shards := g.shards ++ [⟨file.bytes, alignUp off align⟩] }, m)

end

/-! ## What each part leaves over -/

section
variable {room : ℕ → ℕ → Bool} {N fuel : ℕ} {s : ℤ}

theorem get_meters (w : ℕ) (hs : 0 ≤ s) : Meters room N (get w) (Cursor.get w) w s :=
  Meters.nat _ w hs

/-- The next `n` bytes, which may be none. -/
theorem take_meters (n : ℕ) (hs : 0 ≤ s) : Meters room N (MeteredParser.take Cursor.truncated n)
    (ByteParser.take Cursor.truncated n) 0 s :=
  (Meters.take _ n hs).mono (by omega) le_rfl

theorem str_meters (hs : 0 ≤ s) : Meters room N str Cursor.str 8 s :=
  ((get_meters 8 hs).andThen (by decide) fun n => take_meters n (by omega)).mono (by decide) le_rfl

theorem skip_meters (n : ℕ) (hs : 0 ≤ s) : Meters room N (skip n) (Cursor.skip n) 0 s :=
  (Meters.skip _ n hs).mono (by omega) le_rfl

/-- A value that is computed from what one parser reads. -/
theorem map_meters {α β : Type} {p : MeteredParser α} {q : ByteParser α} {k : ℤ}
    (h : Meters room N p q k s) (hk : 0 ≤ k) (f : α → β) :
    Meters room N (do pure (f (← p))) (do pure (f (← q))) k s :=
  (h.andThen hk fun a => Meters.pure (f a)).mono (by omega) le_rfl

/-- A nested array consumes its type and its length before anything else. -/
theorem skipValue_meters (fuel : ℕ) :
    Meters room fuel (skipValue fuel GV_ARR) (FastLlm.skipValue fuel GV_ARR) 11 1 := by
  induction fuel with
  | zero =>
    exact ⟨fun _ hN => absurd hN (Nat.not_lt_zero _), fun _ hN => absurd hN (Nat.not_lt_zero _)⟩
  | succ fuel ih =>
    rw [skipValue, FastLlm.skipValue, if_neg (by decide), if_pos rfl, if_neg (by decide), if_pos rfl]
    refine Meters.mono (k := 4 + (8 + 0) - 1) (Meters.tick (s := 0) ?_) (by decide) (by decide)
    refine (get_meters 4 le_rfl).bind (M := fuel) (fun et => ?_) (by omega)
    refine (get_meters 8 (by decide)).andThen (by decide) fun n => ?_
    refine Meters.ite (fun _ => ?_) fun _ => Meters.ite (fun _ => ?_) fun _ => ?_
    · have hround : Meters room fuel (do let _ ← str; pure ()) (do let _ ← Cursor.str; pure ()) 8 0 :=
        map_meters (str_meters le_rfl) (by decide) fun _ => ()
      exact (map_meters (Meters.loop n () fun _ => hround.mono (by decide) le_rfl) le_rfl
        fun _ => 0).mono le_rfl (by decide)
    · have hround := map_meters ih (by decide) fun _ => ()
      exact (map_meters (Meters.loop n () fun _ => hround.mono (by decide) le_rfl) le_rfl
        fun _ => 0).mono le_rfl (by decide)
    · exact map_meters (skip_meters _ (by decide)) le_rfl fun _ => 0

/-- The value of a scalar, or of a string. -/
theorem capture_meters {α : Type} {p : MeteredParser α} {q : ByteParser α} {k : ℤ}
    (h : Meters room N p q k 0) (hk : 0 ≤ k) (f : α → Kv) :
    Meters room N (do pure (f (← p))) (do pure (f (← q))) 0 0 :=
  (map_meters h hk f).mono hk le_rfl

theorem captureArr_meters (kv : Kv) (key : Str) :
    Meters room fuel (captureKv room fuel kv key GV_ARR) (FastLlm.captureKv fuel kv key GV_ARR)
      0 0 := by
  refine Meters.mono (k := 4 + (8 + 0)) ?_ (by decide) le_rfl
  refine (get_meters 4 le_rfl).andThen (by decide) fun et => ?_
  refine (get_meters 8 (by decide)).andThen (by decide) fun n => ?_
  refine Meters.ite (fun _ => ?_) fun _ => Meters.ite (fun _ => ?_) fun _ => ?_
  · refine Meters.reserve ?_ (by decide)
    exact (Meters.loop n _ fun kv : Kv => (map_meters (str_meters le_rfl) (by decide)
      fun v => kv.pushSa key [v]).mono (by decide) le_rfl).mono le_rfl (by decide)
  · exact (Meters.loop n _ fun kv => (map_meters (skipValue_meters fuel) (by decide)
      fun _ => kv).mono (by decide) le_rfl).mono le_rfl (by decide)
  · exact map_meters (skip_meters _ (by decide)) le_rfl fun _ => kv

theorem captureKv_meters (kv : Kv) (key : Str) (t : ℕ) :
    Meters room fuel (captureKv room fuel kv key t) (FastLlm.captureKv fuel kv key t) 0 0 :=
  match t with
  | GV_U8 => capture_meters (get_meters 1 le_rfl) (by decide) _
  | GV_I8 => capture_meters (get_meters 1 le_rfl) (by decide) _
  | GV_BOOL => capture_meters (get_meters 1 le_rfl) (by decide) fun v =>
      kv.setI key (if v ≠ 0 then 1 else 0)
  | GV_U16 => capture_meters (get_meters 2 le_rfl) (by decide) _
  | GV_I16 => capture_meters (get_meters 2 le_rfl) (by decide) _
  | GV_U32 => capture_meters (get_meters 4 le_rfl) (by decide) _
  | GV_I32 => capture_meters (get_meters 4 le_rfl) (by decide) _
  | GV_U64 => capture_meters (get_meters 8 le_rfl) (by decide) _
  | GV_I64 => capture_meters (get_meters 8 le_rfl) (by decide) _
  | GV_F32 => capture_meters (get_meters 4 le_rfl) (by decide) _
  | GV_F64 => capture_meters (get_meters 8 le_rfl) (by decide) _
  | GV_STR => capture_meters (str_meters le_rfl) (by decide) _
  | GV_ARR => captureArr_meters kv key
  | t + 13 => Meters.fail (badKvType (t + 13)) le_rfl

/-- A pair has a key of at least eight bytes and a type. -/
theorem readKv_meters (st : Kv × UInt32) :
    Meters room fuel (readKv room fuel st) (FastLlm.readKv fuel st) 12 0 := by
  refine Meters.mono (k := 8 + (4 + (0 + 0))) ?_ (by decide) le_rfl
  refine (str_meters le_rfl).andThen (by decide) fun key => ?_
  refine (get_meters 4 (by decide)).andThen (by decide) fun t => ?_
  refine ((captureKv_meters st.1 key t).mono le_rfl (by decide)).andThen le_rfl fun kv => ?_
  exact Meters.pure _

theorem readTensor_meters (idx : ℕ) :
    Meters room N (readTensor idx) (FastLlm.readTensor idx) 12 0 := by
  refine Meters.mono (k := 8 + (4 + 0)) ?_ (by decide) le_rfl
  refine (str_meters le_rfl).andThen (by decide) fun name => ?_
  refine (get_meters 4 (by decide)).andThen (by decide) fun nDims => ?_
  refine Meters.ite (fun _ => Meters.fail _ (by decide)) fun _ => ?_
  refine Meters.mono (k := 0 + (4 + (8 + 0))) ?_ (by decide) le_rfl
  refine Meters.andThen ?_ le_rfl fun dims => ?_
  · exact (Meters.loop nDims [] fun dims => (map_meters (get_meters 8 le_rfl) (by decide)
      fun d => dims ++ [d]).mono (by decide) le_rfl).mono le_rfl (by decide)
  refine (get_meters 4 (by decide)).andThen (by decide) fun type => ?_
  refine (get_meters 8 (by decide)).andThen (by decide) fun offset => ?_
  exact Meters.pure _

theorem readHeader_meters (g : Gguf) (idx : ℕ) (keepKv : Bool) :
    Meters room (fuel + 1) (readHeader room g fuel idx keepKv) (FastLlm.readHeader g fuel idx keepKv)
      0 0 := by
  refine Meters.mono (k := 4 + 0) ?_ (by decide) le_rfl
  refine (get_meters 4 le_rfl).bind (M := fuel) (fun magic => ?_) (by omega)
  refine Meters.ite (fun _ => Meters.fail _ (by decide)) fun _ => ?_
  refine Meters.mono (k := 4 + 0) ?_ (by decide) le_rfl
  refine (get_meters 4 (by decide)).andThen (by decide) fun version => ?_
  refine Meters.ite (fun _ => Meters.fail _ (by decide)) fun _ => ?_
  refine Meters.mono (k := 8 + (8 + (0 + (0 + 0)))) ?_ (by decide) le_rfl
  refine (get_meters 8 (by decide)).andThen (by decide) fun nTensors => ?_
  refine (get_meters 8 (by decide)).andThen (by decide) fun nKv => ?_
  refine Meters.andThen ?_ le_rfl fun st => ?_
  · exact (Meters.loop nKv _ fun st => (readKv_meters st).mono (by decide) le_rfl).mono le_rfl
      (by decide)
  refine Meters.reserve ?_ (by decide)
  refine Meters.andThen ?_ le_rfl fun tensors => Meters.pure _
  exact (Meters.loop nTensors _ fun ts => (map_meters (readTensor_meters idx) (by decide)
    fun t => ts ++ [t]).mono (by decide) le_rfl).mono le_rfl (by decide)

end

end FastLlm.Metered

namespace FastLlm

end FastLlm
