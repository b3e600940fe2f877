import FastLlm.Runtime.ShadowExact

/-!
# The shadow cache

`fl_shadow_init` over a sequence of process runs that share one cache file.  The file is its
bytes, and what a run does to it depends on the run's tensors and environment and on how far the
write gets: the temporary file may be renamed after only some of its bytes reached the disk.

The identity check compares names, formats, shapes and the layout, and the file's size.  A file
that was cut short never passes it, and a complete one passes exactly for the tensor lists with
the identity of the one it was written for.  Nothing in it depends on the weights.  So a run
gets the shadows of its own tensors if and only if the run whose file it maps had the same packed
bytes (`shadows_right_iff`).

## Main definitions

* `Run`, `flShadowInit` — one process run and what it does.
* `fileAfter` — the cache file after some runs.
* `Run.identity`, `writerAfter` — the abstract cache: the run whose file is in place.
* `Run.Right` — every registered span has the shadow of its own tensor.
-/

namespace FastLlm

/-- The value of the format in a file. -/
def Fmt.code : Fmt → ℕ
  | .F32 => 0
  | .Q8_0 => 1
  | .Q5_0 => 2
  | .Q4_K => 3
  | .Q6_K => 4
  | .IQ2_XXS => 5
  | .IQ3_XXS => 6

/-- `FASTLLM_SHADOW`. -/
inductive Mode
  | off | build | cache
  deriving DecidableEq

/-- How far the write of the cache file gets. -/
inductive Saved
  /-- The temporary file is not opened, or never renamed. -/
  | notRenamed
  /-- The file is replaced by the first `k` bytes of the new one. -/
  | renamed (k : ℕ)

/-- A process run: its environment and the tensors of the model it loads. -/
structure Run where
  mode : Mode
  /-- `fl_shadow_layout_smmla()`. -/
  smmla : Bool
  /-- `std::thread::hardware_concurrency()`. -/
  hw : ℕ
  tensors : List ShadowTensorDesc
  /-- The cache file, if there is one, can be opened and mapped. -/
  readable : Bool
  /-- The payload can be allocated. -/
  malloc : Bool
  saved : Saved
  few : tensors.length < 2 ^ 32

/-- The first loop of `fl_shadow_init`: the layout, the tensors to shadow and the bytes of their
shadows. -/
def collect : Bool → List ShadowTensorDesc → Bool × List ShadowTensorDesc × ℕ
  | smmla, [] => (smmla, [], 0)
  | smmla, t :: ts =>
    if t.fmt ≠ .Q4_K ∧ t.fmt ≠ .Q5_0 then collect smmla ts
    else
      -- an odd row count would leave a half-pair at the span end
      let smmla := if smmla ∧ t.fmt = .Q4_K ∧ t.rowsTotal.toNat % 2 = 1 then false else smmla
      let (smmla, want, total) := collect smmla ts
      (smmla, t :: want, t.shadowBytes + total)

namespace Run

def layout (r : Run) : Bool := (collect r.smmla r.tensors).1

def want (r : Run) : List ShadowTensorDesc := (collect r.smmla r.tensors).2.1

def total (r : Run) : ℕ := (collect r.smmla r.tensors).2.2

end Run

/-- `FLSH`. -/
def cacheMagic : List UInt8 := [0x46, 0x4C, 0x53, 0x48]

/-- `CacheHead`. -/
def cacheHead (smmla : Bool) (n : ℕ) : List UInt8 :=
  cacheMagic ++ leBytes 4 2 ++ leBytes 4 n ++ leBytes 4 smmla.toNat

/-- `CacheEnt`. -/
def cacheEnt (t : ShadowTensorDesc) : List UInt8 :=
  strncpy 63 t.name ++ [0] ++ leBytes 4 t.fmt.code ++ leBytes 4 t.cols.toNat ++
    leBytes 8 t.rowsTotal.toNat ++ leBytes 8 t.shadowBytes

/-- The size of a cache file. -/
def cacheNeed (n total : ℕ) : ℕ := 16 + n * 88 + total

/-- The loop over the entries of the cache file, from entry `i` on. -/
def entsMatch (file : List UInt8) : ℕ → List ShadowTensorDesc → Bool
  | _, [] => true
  | i, t :: ts =>
    let e := 16 + i * 88
    strncmpEq 63 (file.drop e) t.name && field file (e + 64) 4 == t.fmt.code &&
      field file (e + 68) 4 == t.cols.toNat && field file (e + 72) 8 == t.rowsTotal.toNat &&
      entsMatch file (i + 1) ts

/-- The identity check of the cache file. -/
def cacheOk (file : List UInt8) (smmla : Bool) (want : List ShadowTensorDesc) (total : ℕ) : Bool :=
  file.length == cacheNeed want.length total && file.take 4 == cacheMagic &&
    field file 4 4 == 2 && field file 8 4 == want.length && field file 12 4 == smmla.toNat &&
    entsMatch file 0 want

/-- A registered span.  `packed` are the bytes between `base` and `end`, `shadow` the bytes that
the shadow pointer gives for them. -/
structure ShadowSpan where
  packed : List UInt8
  shadow : List UInt8
  packedRowBytes : ℕ
  shadowRowBytes : ℕ
  fmt : Fmt
  smmla : Bool

/-- The last loop of `fl_shadow_init`. -/
def registerSpans (smmla : Bool) : List ShadowTensorDesc → List UInt8 → List ShadowSpan
  | [], _ => []
  | t :: ts, payload =>
    { packed := t.p
      shadow := payload.take t.shadowBytes
      packedRowBytes := rowBytes t.fmt t.cols.toNat
      shadowRowBytes := shadowRowBytes t.fmt t.cols.toNat
      fmt := t.fmt
      smmla := smmla && t.fmt == .Q4_K } :: registerSpans smmla ts (payload.drop t.shadowBytes)

/-- The file written for a run. -/
def cacheFile (smmla : Bool) (want : List ShadowTensorDesc) (payload : List UInt8) : List UInt8 :=
  cacheHead smmla want.length ++ want.flatMap cacheEnt ++ payload

/-- `fl_shadow_init` with the given cache file: the spans, if shadows are enabled, and the cache
file afterwards. -/
def flShadowInit (file : Option (List UInt8)) (r : Run) :
    Option (List ShadowSpan) × Option (List UInt8) :=
  if r.mode = .off ∨ r.want = [] then (none, file)
  else
    match file.filter fun f =>
        r.mode == .cache && r.readable && cacheOk f r.layout r.want r.total with
    | some f => (some (registerSpans r.layout r.want (f.drop (16 + r.want.length * 88))), file)
    | none =>
      if ¬ r.malloc then (none, file)
      else
        let payload := r.want.flatMap fun t => t.buildParallel r.hw r.layout
        let spans := registerSpans r.layout r.want payload
        match r.mode, r.saved with
        | .cache, .renamed k => (some spans, some ((cacheFile r.layout r.want payload).take k))
        | _, _ => (some spans, file)

/-- The cache file after some runs, of which the first finds none. -/
def fileAfter (runs : List Run) : Option (List UInt8) :=
  runs.foldl (fun f r => (flShadowInit f r).2) none

namespace Run

/-- Every registered span has the shadow that the builders make of its own tensor. -/
def Right (r : Run) (registered : Option (List ShadowSpan)) : Prop :=
  ∀ spans ∈ registered, spans.map ShadowSpan.shadow = r.want.map fun t => t.shadow r.layout

theorem right_some {r : Run} {spans : List ShadowSpan} : r.Right (some spans) ↔
    spans.map ShadowSpan.shadow = r.want.map fun t => t.shadow r.layout := by
  constructor
  · intro h
    exact h spans rfl
  · intro h spans' hspans
    obtain rfl := Option.some.inj hspans
    exact h

/-- What the identity check compares. -/
def identity (r : Run) : Bool × List (List UInt8 × Fmt × UInt32 × UInt64) :=
  (r.layout, r.want.map fun t => (strncpy 63 t.name, t.fmt, t.cols, t.rowsTotal))

/-- `r` maps the cache file that `w` wrote. -/
def Maps (w r : Run) : Prop :=
  r.mode = .cache ∧ r.want ≠ [] ∧ r.readable ∧ w.identity = r.identity

instance (w r : Run) : Decidable (Maps w r) := by unfold Maps; infer_instance

/-- The size of the file that a run writes. -/
def need (r : Run) : ℕ := cacheNeed r.want.length r.total

end Run

/-- The run whose complete cache file is in place after `r`, if it was `w`'s before. -/
def writerAfter (w : Option Run) (r : Run) : Option Run :=
  if r.mode ≠ .cache ∨ r.want = [] ∨ ¬ r.malloc ∨ ∃ w' ∈ w, w'.Maps r then w
  else
    match r.saved with
    | .notRenamed => w
    | .renamed k => if r.need ≤ k then some r else none

/-- The run whose complete cache file is in place after some runs. -/
def lastWriter (runs : List Run) : Option Run := runs.foldl writerAfter none

/-! ## What a run wants -/

theorem collect_false (ts : List ShadowTensorDesc) : (collect false ts).1 = false := by
  induction ts with
  | nil => rfl
  | cons t ts ih =>
    rw [collect]
    split_ifs
    · exact ih
    · exact ih
    · exact ih

theorem mem_collect {smmla : Bool} {ts : List ShadowTensorDesc} :
    ∀ t ∈ (collect smmla ts).2.1, (t.fmt = .Q4_K ∨ t.fmt = .Q5_0) ∧
      ((collect smmla ts).1 → t.fmt = .Q4_K → t.rowsTotal.toNat % 2 = 0) := by
  induction ts generalizing smmla with
  | nil => exact nofun
  | cons t ts ih =>
    intro u hu
    rw [collect] at hu ⊢
    by_cases hskip : t.fmt ≠ .Q4_K ∧ t.fmt ≠ .Q5_0
    · rw [if_pos hskip] at hu ⊢
      exact ih u hu
    · rw [if_neg hskip] at hu ⊢
      dsimp only at hu ⊢
      have hfmt : t.fmt = .Q4_K ∨ t.fmt = .Q5_0 := by
        by_contra hne
        exact hskip (not_or.1 hne)
      rcases List.mem_cons.1 hu with rfl | hu
      · refine ⟨hfmt, ?_⟩
        intro hlayout hq4
        by_contra hodd
        by_cases hs : smmla = true
        · rw [if_pos ⟨hs, hq4, by omega⟩, collect_false] at hlayout
          cases hlayout
        · rw [if_neg (fun h => hs h.1), Bool.eq_false_iff.2 hs, collect_false] at hlayout
          cases hlayout
      · exact ih u hu

theorem collect_total (smmla : Bool) (ts : List ShadowTensorDesc) :
    (collect smmla ts).2.2 = ((collect smmla ts).2.1.map ShadowTensorDesc.shadowBytes).sum := by
  induction ts generalizing smmla with
  | nil => rfl
  | cons t ts ih =>
    rw [collect]
    split_ifs
    · exact ih _
    · exact congrArg (t.shadowBytes + ·) (ih _)
    · exact congrArg (t.shadowBytes + ·) (ih _)

theorem collect_length_le (smmla : Bool) (ts : List ShadowTensorDesc) :
    (collect smmla ts).2.1.length ≤ ts.length := by
  induction ts generalizing smmla with
  | nil => exact le_rfl
  | cons t ts ih =>
    rw [collect]
    split_ifs
    · exact (ih _).trans (Nat.le_succ _)
    · exact Nat.succ_le_succ (ih _)
    · exact Nat.succ_le_succ (ih _)

namespace Run

variable (r : Run)

theorem length_want_lt : r.want.length < 2 ^ 32 := (collect_length_le _ _).trans_lt r.few

theorem total_eq : r.total = (r.want.map ShadowTensorDesc.shadowBytes).sum := collect_total _ _

theorem fmt_of_mem {t : ShadowTensorDesc} (h : t ∈ r.want) : t.fmt = .Q4_K ∨ t.fmt = .Q5_0 :=
  (mem_collect t h).1

theorem length_shadow {t : ShadowTensorDesc} (h : t ∈ r.want) :
    (t.shadow r.layout).length = t.shadowBytes :=
  t.length_shadow (r.fmt_of_mem h) (mem_collect t h).2

/-- The payload that a run builds. -/
def payload : List UInt8 := r.want.flatMap fun t => t.shadow r.layout

theorem buildParallel_payload :
    (r.want.flatMap fun t => t.buildParallel r.hw r.layout) = r.payload := by
  apply List.flatMap_congr
  intro t ht
  exact t.buildParallel_eq (r.fmt_of_mem ht) r.hw r.layout

theorem length_payload : r.payload.length = r.total := by
  rw [payload, List.length_flatMap, total_eq]
  congr 1
  apply List.map_congr_left
  intro t ht
  exact r.length_shadow ht

/-- The complete cache file of a run. -/
def file : List UInt8 := cacheFile r.layout r.want r.payload

end Run

/-! ## Reading what was written -/

@[simp] theorem length_cacheEnt (t : ShadowTensorDesc) : (cacheEnt t).length = 88 := by
  simp [cacheEnt]

@[simp] theorem length_cacheHead (smmla : Bool) (n : ℕ) : (cacheHead smmla n).length = 16 := by
  simp [cacheHead, cacheMagic]

theorem Fmt.code_inj {f f' : Fmt} (h : f.code = f'.code) : f = f' := by
  cases f <;> cases f' <;> first | rfl | cases h

theorem Fmt.code_lt (f : Fmt) : f.code < 256 ^ 4 := by
  cases f <;> decide

/-- What the loop compares of an entry. -/
def ShadowTensorDesc.key (t : ShadowTensorDesc) : List UInt8 × Fmt × UInt32 × UInt64 :=
  (strncpy 63 t.name, t.fmt, t.cols, t.rowsTotal)

/-- The loop accepts a list of written entries for the tensors with their keys. -/
theorem entsMatch_iff {file : List UInt8} {i : ℕ} {ws ts : List ShadowTensorDesc}
    (hlen : ws.length = ts.length) (hfile : Has file (16 + i * 88) (ws.flatMap cacheEnt)) :
    entsMatch file i ts ↔ ws.map ShadowTensorDesc.key = ts.map ShadowTensorDesc.key := by
  induction ts generalizing ws i with
  | nil =>
    rw [List.length_nil, List.length_eq_zero_iff] at hlen
    rw [hlen]
    exact ⟨fun _ => rfl, fun _ => rfl⟩
  | cons t ts ih =>
    cases ws with
    | nil => cases hlen
    | cons w ws =>
      rw [List.flatMap_cons] at hfile
      have hrest := hfile.right
      rw [length_cacheEnt, Nat.add_assoc, ← Nat.succ_mul] at hrest
      -- the fields of the entry, in turn
      have h80 := hfile.left.left
      have h72 := h80.left
      have h68 := h72.left
      have h64 := h68.left
      have hname : strncmpEq 63 (file.drop (16 + i * 88)) t.name ↔
          strncpy 63 w.name = strncpy 63 t.name := by
        obtain ⟨rest, hname⟩ := h64.left
        rw [← hname]
        exact strncmpEq_strncpy 63 _ _ _
      have hfmt : field file (16 + i * 88 + 64) 4 = w.fmt.code := by
        have := h68.right.field_of_lt w.fmt.code_lt
        simpa using this
      have hcols : field file (16 + i * 88 + 68) 4 = w.cols.toNat := by
        have := h72.right.field_of_lt w.cols.toNat_lt
        simpa using this
      have hrows : field file (16 + i * 88 + 72) 8 = w.rowsTotal.toNat := by
        have := h80.right.field_of_lt w.rowsTotal.toNat_lt
        simpa using this
      rw [entsMatch]
      simp only [Bool.and_eq_true, beq_iff_eq, hname, hfmt, hcols, hrows,
        ih (Nat.succ.inj hlen) hrest, List.map_cons, List.cons.injEq, ShadowTensorDesc.key,
        Prod.mk.injEq, UInt32.toNat_inj, UInt64.toNat_inj]
      constructor
      · rintro ⟨⟨⟨⟨hn, hf⟩, hc⟩, hr⟩, htail⟩
        exact ⟨⟨hn, Fmt.code_inj hf, hc, hr⟩, htail⟩
      · rintro ⟨⟨hn, hf, hc, hr⟩, htail⟩
        exact ⟨⟨⟨⟨hn, congrArg Fmt.code hf⟩, hc⟩, hr⟩, htail⟩

/-- Tensors with the same keys have shadows of the same size. -/
theorem shadowBytes_of_key {ws ts : List ShadowTensorDesc}
    (h : ws.map ShadowTensorDesc.key = ts.map ShadowTensorDesc.key) :
    ws.map ShadowTensorDesc.shadowBytes = ts.map ShadowTensorDesc.shadowBytes := by
  have hfun : ∀ t : ShadowTensorDesc, t.shadowBytes =
      t.key.2.2.2.toNat * shadowRowBytes t.key.2.1 t.key.2.2.1.toNat := fun t => rfl
  have hmap := congrArg
    (List.map fun k => k.2.2.2.toNat * shadowRowBytes k.2.1 k.2.2.1.toNat) h
  rw [List.map_map, List.map_map] at hmap
  exact hmap

namespace Run

theorem need_of_identity {w r : Run} (h : w.identity = r.identity) : w.need = r.need := by
  have hkeys : w.want.map ShadowTensorDesc.key = r.want.map ShadowTensorDesc.key :=
    congrArg Prod.snd h
  have hlen := congrArg List.length hkeys
  rw [List.length_map, List.length_map] at hlen
  rw [need, need, total_eq, total_eq, shadowBytes_of_key hkeys, hlen]

/-- The check passes for the tensor lists with the identity of the writer's, and for a file of
the size that theirs has. -/
theorem cacheOk_iff {file : List UInt8} {w r : Run}
    (hhead : Has file 0 (cacheHead w.layout w.want.length))
    (hents : w.want.length = r.want.length → Has file 16 (w.want.flatMap cacheEnt)) :
    cacheOk file r.layout r.want r.total ↔
      file.length = r.need ∧ w.identity = r.identity := by
  have h12 := hhead.left
  have h8 := h12.left
  have hmagic : file.take 4 = cacheMagic := by
    obtain ⟨rest, hrest⟩ := h8.left
    rw [List.drop_zero] at hrest
    rw [← hrest]
    rfl
  have hversion : field file 4 4 = 2 := h8.right.field_of_lt (by decide)
  have hn : field file 8 4 = w.want.length := by
    have := h12.right.field_of_lt w.length_want_lt
    simpa [cacheMagic] using this
  have hlayout : field file 12 4 = w.layout.toNat := by
    have := hhead.right.field_of_lt (by cases w.layout <;> decide)
    simpa [cacheMagic] using this
  have htoNat : w.layout.toNat = r.layout.toNat ↔ w.layout = r.layout := by
    cases w.layout <;> cases r.layout <;> decide
  rw [cacheOk]
  simp only [Bool.and_eq_true, beq_iff_eq, hmagic, hversion, hn, hlayout, htoNat, need,
    and_true]
  constructor
  · rintro ⟨⟨⟨hsize, hlen⟩, hl⟩, hmatch⟩
    exact ⟨hsize, Prod.ext hl ((entsMatch_iff hlen (hents hlen)).1 hmatch)⟩
  · rintro ⟨hsize, hid⟩
    have hkeys : w.want.map ShadowTensorDesc.key = r.want.map ShadowTensorDesc.key :=
      congrArg Prod.snd hid
    have hlen := congrArg List.length hkeys
    rw [List.length_map, List.length_map] at hlen
    have hl : w.layout = r.layout := (Prod.ext_iff.1 hid).1
    exact ⟨⟨⟨hsize, hlen⟩, hl⟩, (entsMatch_iff hlen (hents hlen)).2 hkeys⟩

variable (w r : Run)

theorem has_head : Has w.file 0 (cacheHead w.layout w.want.length) := by
  rw [Has, List.drop_zero, file, cacheFile, List.append_assoc]
  exact List.prefix_append _ _

theorem has_ents : Has w.file 16 (w.want.flatMap cacheEnt) := by
  have h : Has w.file 0 (cacheHead w.layout w.want.length ++ w.want.flatMap cacheEnt) := by
    rw [Has, List.drop_zero, file, cacheFile]
    exact List.prefix_append _ _
  have := h.right
  rwa [length_cacheHead] at this

theorem length_ents : (w.want.flatMap cacheEnt).length = w.want.length * 88 := by
  rw [List.length_flatMap]
  simp only [length_cacheEnt, List.map_const', List.sum_replicate_nat]

theorem length_file : w.file.length = w.need := by
  rw [file, cacheFile, List.length_append, List.length_append, length_cacheHead, length_ents,
    length_payload, need, cacheNeed]

/-- A complete file passes for the tensor lists with the writer's identity. -/
theorem cacheOk_file : cacheOk w.file r.layout r.want r.total ↔ w.identity = r.identity := by
  rw [cacheOk_iff w.has_head fun _ => w.has_ents, length_file]
  constructor
  · exact And.right
  · intro hid
    exact ⟨need_of_identity hid, hid⟩

/-- A file that was cut short never passes. -/
theorem not_cacheOk_take {k : ℕ} (hk : k < w.need) :
    ¬ cacheOk (w.file.take k) r.layout r.want r.total := by
  intro hok
  have hsize : (w.file.take k).length = k := by
    rw [List.length_take, length_file]
    omega
  have hk' : k = r.need := by
    rw [cacheOk] at hok
    simp only [Bool.and_eq_true, beq_iff_eq] at hok
    exact hsize.symm.trans hok.1.1.1.1.1
  have hneed : r.need = 16 + r.want.length * 88 + r.total := rfl
  have hhead : Has (w.file.take k) 0 (cacheHead w.layout w.want.length) :=
    w.has_head.take (by rw [length_cacheHead]; omega)
  have hents (hlen : w.want.length = r.want.length) :
      Has (w.file.take k) 16 (w.want.flatMap cacheEnt) :=
    w.has_ents.take (by rw [length_ents, hlen]; omega)
  have hid := ((cacheOk_iff hhead hents).1 hok).2
  have := need_of_identity hid
  omega

end Run

/-! ## Runs -/

/-- The spans of tensors get the pieces of a payload that was built for tensors with the same
keys. -/
theorem map_shadow_registerSpans {smmla : Bool} {ws ts : List ShadowTensorDesc}
    (hkeys : ws.map ShadowTensorDesc.key = ts.map ShadowTensorDesc.key)
    (hlen : ∀ w ∈ ws, (w.shadow smmla).length = w.shadowBytes) :
    (registerSpans smmla ts (ws.flatMap fun w => w.shadow smmla)).map ShadowSpan.shadow =
      ws.map fun w => w.shadow smmla := by
  induction ts generalizing ws with
  | nil =>
    rw [List.map_nil, List.map_eq_nil_iff] at hkeys
    rw [hkeys]
    rfl
  | cons t ts ih =>
    cases ws with
    | nil => cases hkeys
    | cons w ws =>
      have hbytes := shadowBytes_of_key hkeys
      rw [List.map_cons, List.map_cons, List.cons.injEq] at hkeys hbytes
      have hw : (w.shadow smmla).length = t.shadowBytes :=
        (hlen w List.mem_cons_self).trans hbytes.1
      rw [List.flatMap_cons, registerSpans, List.map_cons, List.take_left' hw, List.drop_left' hw,
        ih hkeys.2 fun u hu => hlen u (List.mem_cons_of_mem w hu), List.map_cons]

/-- Tensors with the same keys have the same shadows exactly if they have the same bytes. -/
theorem map_shadow_eq_iff {smmla : Bool} {ws ts : List ShadowTensorDesc}
    (hkeys : ws.map ShadowTensorDesc.key = ts.map ShadowTensorDesc.key)
    (hfmt : ∀ w ∈ ws, w.fmt = .Q4_K ∨ w.fmt = .Q5_0) :
    (ws.map fun w => w.shadow smmla) = (ts.map fun t => t.shadow smmla) ↔
      ws.map ShadowTensorDesc.p = ts.map ShadowTensorDesc.p := by
  induction ts generalizing ws with
  | nil =>
    rw [List.map_nil, List.map_eq_nil_iff] at hkeys
    rw [hkeys]
    exact ⟨fun _ => rfl, fun _ => rfl⟩
  | cons t ts ih =>
    cases ws with
    | nil => cases hkeys
    | cons w ws =>
      rw [List.map_cons, List.map_cons, List.cons.injEq] at hkeys
      obtain ⟨hkey, hrest⟩ := hkeys
      simp only [ShadowTensorDesc.key, Prod.mk.injEq] at hkey
      obtain ⟨-, hf, hc, hr⟩ := hkey
      have hhead : w.shadow smmla = t.shadow smmla ↔ w.p = t.p := by
        constructor
        · exact ShadowTensorDesc.shadow_inj (hfmt w List.mem_cons_self) hf hc hr
        · intro hp
          unfold ShadowTensorDesc.shadow ShadowTensorDesc.buildRows ShadowTensorDesc.packed
          rw [hp, hf, hc, hr]
      simp only [List.map_cons, List.cons.injEq, hhead,
        ih hrest fun u hu => hfmt u (List.mem_cons_of_mem w hu)]

/-- The cache file, and the run whose complete file it is. -/
inductive InPlace : Option (List UInt8) → Option Run → Prop
  | none : InPlace none none
  | cut (w : Run) {k : ℕ} : k < w.need → InPlace (some (w.file.take k)) none
  | whole (w : Run) : InPlace (some w.file) (some w)

namespace Run

variable {f : Option (List UInt8)} {w : Option Run}

/-- What the identity check lets through. -/
def hit (f : Option (List UInt8)) (r : Run) : Option (List UInt8) :=
  f.filter fun f => r.mode == .cache && r.readable && cacheOk f r.layout r.want r.total

theorem hit_eq_some (h : InPlace f w) {r : Run} (hr : r.want ≠ []) {g : List UInt8}
    (hg : r.hit f = some g) : ∃ w' ∈ w, w'.Maps r ∧ g = w'.file := by
  rw [hit, Option.filter_eq_some_iff] at hg
  obtain ⟨hfile, hok⟩ := hg
  simp only [Bool.and_eq_true, beq_iff_eq] at hok
  cases h with
  | none => cases hfile
  | cut w' hk =>
    obtain rfl := Option.some.inj hfile
    exact absurd hok.2 (w'.not_cacheOk_take r hk)
  | whole w' =>
    obtain rfl := Option.some.inj hfile
    exact ⟨w', rfl, ⟨hok.1.1, hr, hok.1.2, (w'.cacheOk_file r).1 hok.2⟩, rfl⟩

theorem hit_of_maps {w' r : Run} (h : w'.Maps r) : r.hit (some w'.file) = some w'.file := by
  obtain ⟨hmode, -, hread, hid⟩ := h
  rw [hit, Option.filter_eq_some_iff]
  refine ⟨rfl, ?_⟩
  rw [hmode, hread, (w'.cacheOk_file r).2 hid]
  rfl

theorem not_maps_of_hit_none (h : InPlace f w) {r : Run} (hg : r.hit f = none) :
    ∀ w' ∈ w, ¬ w'.Maps r := by
  intro w' hw' hmaps
  cases h with
  | none => cases hw'
  | cut => cases hw'
  | whole w₀ =>
    obtain rfl := Option.some.inj hw'
    rw [hit_of_maps hmaps] at hg
    cases hg

theorem flShadowInit_eq (f : Option (List UInt8)) (r : Run) (hoff : r.mode ≠ .off)
    (hr : r.want ≠ []) : flShadowInit f r =
      match r.hit f with
      | some g => (some (registerSpans r.layout r.want (g.drop (16 + r.want.length * 88))), f)
      | none =>
        if ¬ r.malloc then (none, f)
        else
          match r.mode, r.saved with
          | .cache, .renamed k =>
            (some (registerSpans r.layout r.want r.payload), some (r.file.take k))
          | _, _ => (some (registerSpans r.layout r.want r.payload), f) := by
  rw [flShadowInit, if_neg (not_or.2 ⟨hoff, hr⟩), buildParallel_payload]
  rfl

/-- A run leaves the cache as the abstract one. -/
theorem InPlace.step (h : InPlace f w) (r : Run) :
    InPlace (flShadowInit f r).2 (writerAfter w r) := by
  by_cases hskip : r.mode = .off ∨ r.want = []
  · have hw : writerAfter w r = w := by
      rw [writerAfter, if_pos]
      rcases hskip with hoff | hr
      · exact Or.inl (by rw [hoff]; decide)
      · exact Or.inr (Or.inl hr)
    rw [hw, flShadowInit, if_pos hskip]
    exact h
  · obtain ⟨hoff, hr⟩ := not_or.1 hskip
    rw [flShadowInit_eq f r hoff hr]
    cases hg : r.hit f with
    | some g =>
      obtain ⟨w', hw', hmaps, -⟩ := hit_eq_some h hr hg
      rw [writerAfter, if_pos (Or.inr (Or.inr (Or.inr ⟨w', hw', hmaps⟩)))]
      exact h
    | none =>
      have hno := not_maps_of_hit_none h hg
      dsimp only
      by_cases hmalloc : r.malloc = true
      · rw [if_neg (not_not.2 hmalloc)]
        by_cases hmode : r.mode = .cache
        · have hwrite : ¬ (r.mode ≠ .cache ∨ r.want = [] ∨ ¬ r.malloc ∨ ∃ w' ∈ w, w'.Maps r) := by
            rintro (hne | hnil | hno' | ⟨w', hw', hmaps⟩)
            · exact hne hmode
            · exact hr hnil
            · exact hno' hmalloc
            · exact hno w' hw' hmaps
          rw [writerAfter, if_neg hwrite, hmode]
          cases r.saved with
          | notRenamed => exact h
          | renamed k =>
            dsimp only
            split_ifs with hk
            · rw [List.take_of_length_le (by rwa [length_file])]
              exact .whole r
            · exact .cut r (Nat.not_le.1 hk)
        · rw [writerAfter, if_pos (Or.inl hmode)]
          cases hm : r.mode with
          | off => exact absurd hm hoff
          | cache => exact absurd hm hmode
          | build => exact h
      · rw [if_pos hmalloc, writerAfter, if_pos (Or.inr (Or.inr (Or.inl hmalloc)))]
        exact h

/-- A run gets its own shadows, unless it maps the file of a run with other weights. -/
theorem right_iff (h : InPlace f w) (r : Run) : r.Right (flShadowInit f r).1 ↔
    ∀ w' ∈ w, w'.Maps r →
      w'.want.map ShadowTensorDesc.p = r.want.map ShadowTensorDesc.p := by
  by_cases hskip : r.mode = .off ∨ r.want = []
  · rw [flShadowInit, if_pos hskip]
    refine ⟨fun _ w' _ hmaps => ?_, fun _ => nofun⟩
    rcases hskip with hoff | hr
    · rw [hmaps.1] at hoff
      cases hoff
    · exact absurd hr hmaps.2.1
  · obtain ⟨hoff, hr⟩ := not_or.1 hskip
    rw [flShadowInit_eq f r hoff hr]
    cases hg : r.hit f with
    | some g =>
      obtain ⟨w', hw', hmaps, rfl⟩ := hit_eq_some h hr hg
      have hkeys : w'.want.map ShadowTensorDesc.key = r.want.map ShadowTensorDesc.key :=
        congrArg Prod.snd hmaps.2.2.2
      have hlayout : w'.layout = r.layout := (Prod.ext_iff.1 hmaps.2.2.2).1
      have hn : w'.want.length = r.want.length := by
        have := congrArg List.length hkeys
        rwa [List.length_map, List.length_map] at this
      -- the mapped payload is the writer's
      have hdrop : w'.file.drop (16 + r.want.length * 88) =
          w'.want.flatMap fun t => t.shadow r.layout := by
        rw [file, cacheFile, ← hn, List.drop_left']
        · rw [payload, hlayout]
        · rw [List.length_append, length_cacheHead, length_ents]
      have hspans := map_shadow_registerSpans hkeys fun t ht =>
        (hlayout ▸ w'.length_shadow ht : (t.shadow r.layout).length = t.shadowBytes)
      dsimp only
      rw [right_some, hdrop, hspans, map_shadow_eq_iff hkeys fun t ht => w'.fmt_of_mem ht]
      constructor
      · intro heq w'' hw'' _
        obtain rfl := Option.mem_unique hw' hw''
        exact heq
      · intro hall
        exact hall w' hw' hmaps
    | none =>
      have hno := not_maps_of_hit_none h hg
      have hspans : (registerSpans r.layout r.want
          (r.want.flatMap fun t => t.shadow r.layout)).map ShadowSpan.shadow =
          r.want.map fun t => t.shadow r.layout :=
        map_shadow_registerSpans rfl fun t ht => r.length_shadow ht
      refine ⟨fun _ w' hw' hmaps => absurd hmaps (hno w' hw'), fun _ => ?_⟩
      dsimp only
      split_ifs
      · split
        · exact right_some.2 hspans
        · exact right_some.2 hspans
      · exact nofun

end Run

theorem inPlace_fileAfter (runs : List Run) : InPlace (fileAfter runs) (lastWriter runs) := by
  unfold fileAfter lastWriter
  have hgen : ∀ (f : Option (List UInt8)) (w : Option Run), InPlace f w →
      InPlace (runs.foldl (fun f r => (flShadowInit f r).2) f) (runs.foldl writerAfter w) := by
    induction runs with
    | nil => exact fun f w h => h
    | cons r runs ih => exact fun f w h => ih _ _ (Run.InPlace.step h r)
  exact hgen none none .none

/-- Every run of a sequence gets the shadows of its own tensors, exactly if none maps the cache
file of a run whose tensors, with the same names, formats and shapes, had other bytes. -/
theorem shadows_right_iff (runs : List Run) :
    (∀ before r after, runs = before ++ r :: after →
      r.Right (flShadowInit (fileAfter before) r).1) ↔
    ∀ before r after, runs = before ++ r :: after → ∀ w ∈ lastWriter before, w.Maps r →
      w.want.map ShadowTensorDesc.p = r.want.map ShadowTensorDesc.p := by
  constructor
  · intro h before r after hruns
    exact (Run.right_iff (inPlace_fileAfter before) r).1 (h before r after hruns)
  · intro h before r after hruns
    exact (Run.right_iff (inPlace_fileAfter before) r).2 (h before r after hruns)

/-- A run that loads one expert tensor, a block of Q5_0, and writes or maps the cache. -/
def oneBlockRun (b : UInt8) : Run where
  mode := .cache
  smmla := false
  hw := 4
  tensors := [{
    name := [0x77]
    p := List.replicate 21 0 ++ [b]
    fmt := .Q5_0
    cols := 32
    rowsTotal := 1
    size := rfl }]
  readable := true
  malloc := true
  saved := .renamed 1000
  few := Nat.one_lt_two_pow (by decide)

/-- A second model of the same shape gets the shadows of the first. -/
theorem second_model_gets_first_shadows :
    ¬ ∀ (runs before : List Run) (r : Run) (after : List Run), (∀ r' ∈ runs, r'.mode = .cache) →
      runs = before ++ r :: after → r.Right (flShadowInit (fileAfter before) r).1 := by
  intro h
  have hmodes : ∀ r ∈ [oneBlockRun 0, oneBlockRun 1], r.mode = .cache := by
    intro r hr
    rcases List.mem_pair.1 hr with hr | hr
    · exact congrArg Run.mode hr
    · exact congrArg Run.mode hr
  have hright := h [oneBlockRun 0, oneBlockRun 1] [oneBlockRun 0] (oneBlockRun 1) [] hmodes
    List.singleton_append.symm
  have hneed : (oneBlockRun 0).need ≤ 1000 := by decide
  -- the first run finds no file and writes its own
  have hwriter : lastWriter [oneBlockRun 0] = some (oneBlockRun 0) := by
    have hwrite : ¬ ((oneBlockRun 0).mode ≠ .cache ∨ (oneBlockRun 0).want = [] ∨
        ¬ (oneBlockRun 0).malloc ∨ ∃ w' ∈ (none : Option Run), w'.Maps (oneBlockRun 0)) := by
      rintro (hmode | hwant | hmalloc | ⟨w', hw', -⟩)
      · exact hmode rfl
      · cases hwant
      · exact hmalloc rfl
      · cases hw'
    rw [lastWriter, List.foldl_cons, List.foldl_nil, writerAfter, if_neg hwrite]
    exact if_pos hneed
  -- the second has the same names and shapes, and other bytes
  have hpacked := (Run.right_iff (inPlace_fileAfter [oneBlockRun 0]) (oneBlockRun 1)).1 hright
    (oneBlockRun 0) hwriter ⟨rfl, nofun, rfl, by decide⟩
  revert hpacked
  decide

end FastLlm
