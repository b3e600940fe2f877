import FastLlm.Lib.Snprintf
import FastLlm.Model.GgufAccept

/-!
# Split models by name

`open` with the name of a file: `split_parts` recognises the name of a shard and turns it into a
pattern, and the names of all shards are printed from the pattern into a buffer of 1024 bytes.
The file system is a function from names to files, and the names it is asked for are part of the
result.  The shards of the stem that the caller named are opened, in their order and with the
metadata of the named one, exactly if the pattern prints as it reads and fits the buffer
(`opensShards_iff`).

## Main definitions

* `splitParts`, `openPath` — the name and the loop over the shards.
* `shardName` — the name of a shard.
* `OpensShards` — what is promised of the name of a shard.
-/

namespace FastLlm

open Printf (dec5 snprintf)

/-! ## Names -/

def isdigit (c : UInt8) : Bool := 48 ≤ c && c ≤ 57

/-- `atoi` of a text that starts with a digit. -/
def atoi (s : Str) : ℕ := (s.takeWhile isdigit).foldl (fun v c => 10 * v + (c.toNat - 48)) 0

/-- `split_parts`: the number of shards and a pattern for their names, if the name is split. -/
def splitParts (path : Str) : Option (ℕ × Str) :=
  let suf := ascii ".gguf"
  if path.length < suf.length + 14 then none
  else if (path.drop (path.length - suf.length)).take suf.length ≠ suf then none
  else
    let tail := path.length - suf.length
    if tail < 14 then none
    else
      let of := tail - 9
      if (path.drop of).take 4 ≠ ascii "-of-" then none
      else if ¬ ((path.drop (of + 4)).take (tail - (of + 4))).all isdigit then none
      else if of < 6 then none
      else
        let nb := of - 6
        if path.getD nb 0 ≠ 45 then none
        else if ¬ ((path.drop (nb + 1)).take (of - (nb + 1))).all isdigit then none
        else
          let total := atoi (path.drop (of + 4))
          if total < 1 ∨ 999 < total then none
          else some (total, path.take nb ++ ascii "-%05d-of-" ++
            (path.drop (of + 4)).take (tail - (of + 4)) ++ suf)

/-- The name of shard `i` of `n`. -/
def shardName (stem : Str) (i n : ℕ) : Str :=
  stem ++ (ascii "-" ++ dec5 i ++ ascii "-of-" ++ dec5 n ++ ascii ".gguf")

/-- The pattern for the names of `n` shards. -/
def shardPattern (stem : Str) (n : ℕ) : Str :=
  stem ++ (ascii "-%05d-of-" ++ dec5 n ++ ascii ".gguf")

/-- The names of all shards. -/
def shardNames (stem : Str) (n : ℕ) : List Str :=
  (List.range' 1 n).map fun i => shardName stem i n

/-! ## Opening -/

/-- The names that were opened, and the reader, unless a shard was missing or the program ended. -/
abbrev Opening := List Str × Except String (Option Gguf)

section
variable (fs : Str → Option File)

/-- The loop over the shards, from shard `i` on.  No result if the name of one is undefined. -/
def openLoop (path pattern : Str) : ℕ → ℕ → Gguf → Option Opening
  | 0, _, g => some ([], .ok (some g))
  | n + 1, i, g =>
    match snprintf 1024 pattern i with
    | none => none
    | some buf =>
      match fs buf with
      | none => some ([buf], .ok none)
      | some f =>
        match mapOne g f g.shards.length (path == buf) with
        | .error e => some ([buf], .error e)
        | .ok g' => (openLoop path pattern n (i + 1) g').map fun r => (buf :: r.1, r.2)

/-- The check of the number of tensors. -/
def countCheck (g : Gguf) : Except String (Option Gguf) :=
  let want := g.kvI (ascii "split.tensors.count") 0
  if 0 < want ∧ (g.tensors.length : ℤ) ≠ want then
    .error "gguf: split.tensors.count does not match the mapped tensors"
  else .ok (some g)

/-- A name that is not split. -/
def openSingle (path : Str) : Opening :=
  let name := path.takeWhile (· ≠ 0)
  match fs name with
  | none => ([name], .ok none)
  | some f => ([name], (mapOne {} f 0 true).map some)

/-- `open`. -/
def openPath (path : Str) : Option Opening :=
  match splitParts path with
  | none => some (openSingle fs path)
  | some (total, pattern) =>
    if total ≤ 1 then some (openSingle fs path)
    else (openLoop fs path pattern total 1 {}).map fun r =>
      (r.1, r.2 >>= fun
        | none => .ok none
        | some g => countCheck g)

end

/-- Opening the name of shard `I` of `N` opens no other names than those of the shards, in their
order.  Where all of them are there, and `gs i` is what the shard with index `i` holds when it is
read on its own, all are opened, the metadata is that of the named one, and the tensors are those
of all shards in their order, each with the index of its shard. -/
def OpensShards (stem : Str) (I N : ℕ) : Prop :=
  (∀ fs, ∃ r, openPath fs (shardName stem I N) = some r ∧ r.1 <+: shardNames stem N) ∧
  ∀ (fs : Str → Option File) (gs : ℕ → Gguf),
    (∀ i < N, ∃ f, fs (shardName stem (i + 1) N) = some f ∧ mapOne {} f i true = .ok (gs i)) →
    ∃ g, openPath fs (shardName stem I N) = some (shardNames stem N, countCheck g) ∧
      g.kv = (gs (I - 1)).kv ∧ g.align = (gs (I - 1)).align ∧
      g.tensors = (List.range N).flatMap (fun i => (gs i).tensors) ∧
      g.shards = (List.range N).flatMap (fun i => (gs i).shards) ∧
      ∀ i < N, ∀ t ∈ (gs i).tensors, t.shard = i

/-! ## The name of a shard is recognised -/

theorem isdigit_of_mem_dec5 {i : ℕ} {c : UInt8} (hc : c ∈ dec5 i) : isdigit c = true := by
  obtain ⟨h1, h2⟩ := Printf.mem_dec5 hc
  simp only [isdigit, Bool.and_eq_true, decide_eq_true_eq, UInt8.le_iff_toNat_le]
  exact ⟨h1, h2⟩

theorem atoi_dec5 {n : ℕ} (hn : n < 100000) (s : Str) : atoi (dec5 n ++ 46 :: s) = n := by
  have htake : (dec5 n ++ 46 :: s).takeWhile isdigit = dec5 n := by
    rw [List.takeWhile_append_of_pos fun c hc => isdigit_of_mem_dec5 hc, List.takeWhile_cons]
    simp [isdigit]
  rw [atoi, htake]
  simp only [dec5, List.map_cons, List.map_nil, List.foldl_cons, List.foldl_nil,
    Printf.toNat_digit]
  omega

/-- What follows the stem. -/
def shardTail (i n : ℕ) : Str := ascii "-" ++ dec5 i ++ ascii "-of-" ++ dec5 n ++ ascii ".gguf"

theorem shardTail_eq (i n : ℕ) :
    shardTail i n = 45 :: (dec5 i ++ 45 :: 111 :: 102 :: 45 :: (dec5 n ++ [46, 103, 103, 117, 102])) := by
  have h1 : ascii "-" = [45] := by decide
  have h2 : ascii "-of-" = [45, 111, 102, 45] := by decide
  have h3 : ascii ".gguf" = [46, 103, 103, 117, 102] := by decide
  simp [shardTail, h1, h2, h3]

theorem length_shardName (stem : Str) (i n : ℕ) : (shardName stem i n).length = stem.length + 20 := by
  change (stem ++ shardTail i n).length = _
  rw [List.length_append, shardTail_eq]
  rfl

theorem drop_shardName (stem : Str) (i n k : ℕ) :
    (shardName stem i n).drop (stem.length + k) = (shardTail i n).drop k :=
  List.drop_length_add_append k

/-- The names of the shards are told apart. -/
theorem shardName_inj {stem : Str} {i j n : ℕ} (hi : i < 100000) (hj : j < 100000)
    (h : shardName stem i n = shardName stem j n) : i = j := by
  have htail : shardTail i n = shardTail j n := List.append_cancel_left h
  rw [shardTail_eq, shardTail_eq] at htail
  exact Printf.dec5_inj hi hj (List.append_cancel_right (List.cons.inj htail).2)

theorem splitParts_shardName (stem : Str) (i : ℕ) {n : ℕ} (hn : 1 ≤ n) (hn' : n ≤ 999) :
    splitParts (shardName stem i n) = some (n, shardPattern stem n) := by
  have hlen := length_shardName stem i n
  have hsuf : ascii ".gguf" = [46, 103, 103, 117, 102] := by decide
  have hof : ascii "-of-" = [45, 111, 102, 45] := by decide
  have h0 : (shardName stem i n).getD stem.length 0 = 45 := by
    rw [List.getD_eq_getElem?_getD, ← List.head?_drop, ← Nat.add_zero stem.length, drop_shardName,
      shardTail_eq]
    rfl
  have h1 : ((shardName stem i n).drop (stem.length + 1)).take 5 = dec5 i := by
    rw [drop_shardName, shardTail_eq]
    rfl
  have h6 : ((shardName stem i n).drop (stem.length + 6)).take 4 = ascii "-of-" := by
    rw [drop_shardName, shardTail_eq, hof]
    rfl
  have h10 : (shardName stem i n).drop (stem.length + 10) = dec5 n ++ [46, 103, 103, 117, 102] := by
    rw [drop_shardName, shardTail_eq]
    rfl
  have h15 : ((shardName stem i n).drop (stem.length + 15)).take 5 = ascii ".gguf" := by
    rw [drop_shardName, shardTail_eq, hsuf]
    rfl
  have htake : (shardName stem i n).take stem.length = stem := List.take_left
  have hdigits (j : ℕ) : (dec5 j).all isdigit = true :=
    List.all_eq_true.mpr fun c hc => isdigit_of_mem_dec5 hc
  have hatoi := atoi_dec5 (show n < 100000 by omega) [103, 103, 117, 102]
  have hslen : (ascii ".gguf").length = 5 := by decide
  have e1 : stem.length + 20 - 5 = stem.length + 15 := by omega
  have e2 : stem.length + 15 - 9 = stem.length + 6 := by omega
  have e3 : stem.length + 6 - 6 = stem.length := by omega
  have e4 : stem.length + 15 - (stem.length + 6 + 4) = 5 := by omega
  have e5 : stem.length + 6 - (stem.length + 1) = 5 := by omega
  have h10take : (dec5 n ++ [46, 103, 103, 117, 102]).take 5 = dec5 n := rfl
  simp only [splitParts, hlen, hslen, e1, e2, e3, e4, e5, Nat.add_assoc, Nat.reduceAdd, h15, h6, h10,
    h10take, h0, h1, hdigits, hatoi, htake]
  rw [if_neg (by omega), if_neg (by simp), if_neg (by omega), if_neg (by simp), if_neg (by simp),
    if_neg (by omega), if_neg (by simp), if_neg (by simp), if_neg (by omega)]
  simp [shardPattern]

/-! ## What the pattern prints -/

/-- The pattern after the stem. -/
def patternTail (n : ℕ) : Str := ascii "-%05d-of-" ++ dec5 n ++ ascii ".gguf"

theorem patternTail_eq (n : ℕ) : patternTail n =
    45 :: 37 :: 48 :: 53 :: 100 :: 45 :: 111 :: 102 :: 45 :: (dec5 n ++ [46, 103, 103, 117, 102]) := by
  have h1 : ascii "-%05d-of-" = [45, 37, 48, 53, 100, 45, 111, 102, 45] := by decide
  have h2 : ascii ".gguf" = [46, 103, 103, 117, 102] := by decide
  simp [patternTail, h1, h2]

/-- The number of shards and the suffix are text. -/
theorem format_nameEnd (n : ℕ) :
    Printf.format .text none (dec5 n ++ [46, 103, 103, 117, 102]) =
      some (dec5 n ++ [46, 103, 103, 117, 102]) := by
  have hmem : 37 ∉ dec5 n ++ [46, 103, 103, 117, 102] := by
    refine List.not_mem_append (fun h => ?_) (by decide)
    have := (Printf.mem_dec5 h).1
    simp at this
  have h := Printf.format_text hmem none []
  simpa [Printf.format] using h

theorem format_patternTail (i n : ℕ) :
    Printf.format .text (some i) (patternTail n) = some (shardTail i n) := by
  rw [patternTail_eq, shardTail_eq]
  simp [Printf.format, format_nameEnd]

/-- The pattern needs the number. -/
theorem needs_patternTail (i n : ℕ) : Printf.Needs i 20 (patternTail n) where
  text out hout := by
    rw [format_patternTail, Option.some.injEq] at hout
    rw [← hout, shardTail_eq]
    rfl
  directive st hst := by
    rw [patternTail_eq]
    cases st with
    | text => exact absurd rfl hst
    | percent => rfl
    | zero => rfl
    | five => rfl
  spent st := by
    rw [patternTail_eq]
    cases st with
    | text => rfl
    | percent => rfl
    | zero => rfl
    | five => rfl

/-- A stem that a format and the buffer leave as it is. -/
structure Plain (stem : Str) : Prop where
  percent : 37 ∉ stem
  nul : 0 ∉ stem
  fits : stem.length ≤ 1003

theorem zero_notMem_patternTail (n : ℕ) : 0 ∉ patternTail n := by
  rw [patternTail_eq]
  simp only [List.mem_cons, List.mem_append, not_or]
  refine ⟨by decide, by decide, by decide, by decide, by decide, by decide, by decide, by decide,
    by decide, fun h => ?_, by decide⟩
  have := (Printf.mem_dec5 h).1
  simp at this

/-- The pattern of a plain stem prints the name. -/
theorem Plain.snprintf {stem : Str} (h : Plain stem) (i n : ℕ) :
    snprintf 1024 (shardPattern stem n) i = some (shardName stem i n) := by
  have hnul : 0 ∉ shardPattern stem n :=
    List.not_mem_append h.nul (zero_notMem_patternTail n)
  have hfits := h.fits
  rw [Printf.snprintf_eq hnul]
  change (Printf.format .text (some i) (stem ++ patternTail n)).map _ = _
  rw [Printf.format_text h.percent, format_patternTail, Option.map_some, Option.map_some]
  change some ((shardName stem i n).take 1023) = _
  rw [List.take_of_length_le (by rw [length_shardName]; omega)]

/-- If the pattern prints the name of one shard, then the stem is plain. -/
theorem plain_of_snprintf {stem : Str} {i n : ℕ}
    (h : Printf.snprintf 1024 (shardPattern stem n) i = some (shardName stem i n)) :
    Plain stem := by
  have hnul : 0 ∉ stem := fun hmem =>
    Printf.zero_notMem_snprintf h (List.mem_append_left _ hmem)
  have hfits : stem.length ≤ 1003 := by
    have := Printf.length_snprintf_le h
    rw [length_shardName] at this
    omega
  refine ⟨fun hmem => ?_, hnul, hfits⟩
  have hnul' : 0 ∉ shardPattern stem n := List.not_mem_append hnul (zero_notMem_patternTail n)
  rw [Printf.snprintf_eq hnul'] at h
  obtain ⟨out, hout, htake⟩ := Option.map_eq_some_iff.mp h
  have hlt := (((needs_patternTail i n).length_le stem).1 out hout).2 hmem
  have hle : (out.take 1023).length ≤ out.length := List.length_take_le' _ _
  have hlen := congrArg List.length htake
  rw [length_shardName] at hlen
  change (out.take 1023).length = _ at hlen
  omega

/-! ## The loop over the shards -/

section
variable {fs : Str → Option File} {path pattern : Str}

/-- The first name that is opened is the first one printed. -/
theorem openLoop_head {n i : ℕ} {g : Gguf} {r : Opening}
    (h : openLoop fs path pattern (n + 1) i g = some r) :
    ∃ buf, snprintf 1024 pattern i = some buf ∧ r.1.head? = some buf := by
  rw [openLoop] at h
  cases hbuf : snprintf 1024 pattern i with
  | none => simp [hbuf] at h
  | some buf =>
    refine ⟨buf, rfl, ?_⟩
    simp only [hbuf] at h
    split at h
    · rw [← Option.some.inj h]
      rfl
    · split at h
      · rw [← Option.some.inj h]
        rfl
      · obtain ⟨r', -, rfl⟩ := Option.map_eq_some_iff.mp h
        rfl

/-- The names are opened in their order, up to one that ends the loop. -/
theorem openLoop_prefix (fs : Str → Option File) (path : Str) {name : ℕ → Str} {n i : ℕ}
    (h : ∀ j, i ≤ j → j < i + n → snprintf 1024 pattern j = some (name j)) (g : Gguf) :
    ∃ r, openLoop fs path pattern n i g = some r ∧ r.1 <+: (List.range' i n).map name := by
  induction n generalizing i g with
  | zero => exact ⟨_, rfl, List.prefix_rfl⟩
  | succ n ih =>
    rw [openLoop, h i le_rfl (by omega), List.range'_succ, List.map_cons]
    have hone : [name i] <+: name i :: (List.range' (i + 1) n).map name := by simp
    cases hf : fs (name i) with
    | none => exact ⟨([name i], .ok none), by simp [hf], hone⟩
    | some f =>
      cases hm : mapOne g f g.shards.length (path == name i) with
      | error e => exact ⟨([name i], .error e), by simp [hf, hm], hone⟩
      | ok g' =>
        obtain ⟨r, hr, hpre⟩ := ih (i := i + 1) (fun j hj hj' => h j (by omega) (by omega)) g'
        refine ⟨(name i :: r.1, r.2), ?_, List.cons_prefix_cons.mpr ⟨rfl, hpre⟩⟩
        simp only [hf, hm, hr, Option.map_some]

end

/-- The reader after the first `k` shards, of which `named` gives the metadata. -/
structure Opened (gs : ℕ → Gguf) (named k : ℕ) (g : Gguf) : Prop where
  kv : g.kv = if named < k then (gs named).kv else {}
  align : g.align = if named < k then (gs named).align else 32
  tensors : g.tensors = (List.range k).flatMap fun i => (gs i).tensors
  shards : g.shards = (List.range k).flatMap fun i => (gs i).shards
  length : g.shards.length = k

theorem opened_zero (gs : ℕ → Gguf) (named : ℕ) : Opened gs named 0 {} :=
  ⟨rfl, rfl, rfl, rfl, rfl⟩

/-- One more shard, which is read as it would be on its own. -/
theorem Opened.step {gs : ℕ → Gguf} {named k : ℕ} {g : Gguf} (h : Opened gs named k g) {f : File}
    (hf : mapOne {} f k true = .ok (gs k)) :
    ∃ g', mapOne g f k (k = named) = .ok g' ∧ Opened gs named (k + 1) g' := by
  obtain ⟨hd, rest, hv, hfile, hgs⟩ := mapOne_ok_iff.mp hf
  have hkv : (if decide (k = named) = true then g.kv else ({} : Kv)) = {} := by
    split_ifs with hk
    · rw [h.kv, if_neg (by simp at hk; omega)]
    · rfl
  refine ⟨hd.install g f k (k = named), mapOne_ok_iff.mpr ⟨hd, rest, hv, hfile, rfl⟩, ?_, ?_, ?_,
    ?_, ?_⟩
  · simp only [Header.install, hkv]
    by_cases hk : k = named
    · subst hk
      simp [hgs, Header.install]
    · rw [if_neg (by simpa using hk), h.kv]
      exact if_congr (by omega) rfl rfl
  · simp only [Header.install, hkv]
    by_cases hk : k = named
    · subst hk
      simp [hgs, Header.install]
    · rw [if_neg (by simpa using hk), h.align]
      exact if_congr (by omega) rfl rfl
  · simp [Header.install, List.range_succ, hgs, h.tensors]
  · simp only [Header.install, hkv]
    simp [List.range_succ, hgs, h.shards, Header.install]
  · simp [Header.install, h.length]

/-- The named shard is the one whose name is the path. -/
theorem shardName_beq (stem : Str) {I N k : ℕ} (hI : 1 ≤ I) (hIN : I ≤ N) (hN : N < 100000)
    (hk : k < N) :
    (shardName stem I N == shardName stem (k + 1) N) = decide (k = I - 1) := by
  rw [beq_eq_decide]
  refine decide_eq_decide.mpr ⟨fun h => ?_, fun h => ?_⟩
  · have := shardName_inj (by omega) (by omega) h
    omega
  · rw [h, Nat.sub_add_cancel hI]

/-- All shards. -/
theorem openLoop_opened {fs : Str → Option File} {stem : Str} {I N : ℕ} {gs : ℕ → Gguf}
    (hI : 1 ≤ I) (hIN : I ≤ N) (hN : N < 100000) (hplain : Plain stem)
    (hfs : ∀ i < N, ∃ f, fs (shardName stem (i + 1) N) = some f ∧ mapOne {} f i true = .ok (gs i))
    {n k : ℕ} (hk : k + n = N) {g : Gguf} (hg : Opened gs (I - 1) k g) :
    ∃ g', openLoop fs (shardName stem I N) (shardPattern stem N) n (k + 1) g =
      some ((List.range' (k + 1) n).map fun i => shardName stem i N, .ok (some g')) ∧
      Opened gs (I - 1) N g' := by
  induction n generalizing k g with
  | zero =>
    obtain rfl : k = N := hk
    exact ⟨g, rfl, hg⟩
  | succ n ih =>
    obtain ⟨f, hf, hm⟩ := hfs k (by omega)
    obtain ⟨g₁, hm₁, hg₁⟩ := hg.step hm
    obtain ⟨g', hrun, hg'⟩ := ih (by omega) hg₁
    have hkeep := shardName_beq stem hI hIN hN (show k < N by omega)
    refine ⟨g', ?_, hg'⟩
    rw [openLoop, hplain.snprintf, List.range'_succ, List.map_cons]
    simp only [hf, hkeep, hg.length, hm₁, hrun, Option.map_some]

/-- A shard that is read on its own has its index in all its tensors. -/
theorem shard_of_mapOne {f : File} {i : ℕ} {g : Gguf} (h : mapOne {} f i true = .ok g) :
    ∀ t ∈ g.tensors, t.shard = i := by
  obtain ⟨hd, rest, -, -, rfl⟩ := mapOne_ok_iff.mp h
  intro t ht
  simp only [Header.install, List.nil_append, List.mem_map] at ht
  obtain ⟨ti, -, rfl⟩ := ht
  rfl

/-- A name of a split model runs the loop. -/
theorem openPath_shardName (fs : Str → Option File) (stem : Str) (I : ℕ) {N : ℕ} (hN : 2 ≤ N)
    (hN' : N ≤ 999) : openPath fs (shardName stem I N) =
      (openLoop fs (shardName stem I N) (shardPattern stem N) N 1 {}).map fun r =>
        (r.1, r.2 >>= fun
          | none => .ok none
          | some g => countCheck g) := by
  simp only [openPath, splitParts_shardName stem I (show 1 ≤ N by omega) hN']
  rw [if_neg (by omega)]

theorem opensShards_of_plain {stem : Str} {I N : ℕ} (hI : 1 ≤ I) (hIN : I ≤ N) (hN : 2 ≤ N)
    (hN' : N ≤ 999) (h : Plain stem) : OpensShards stem I N := by
  have hopen (fs : Str → Option File) := openPath_shardName fs stem I hN hN'
  constructor
  · intro fs
    have hnames : ∀ j, 1 ≤ j → j < 1 + N →
        snprintf 1024 (shardPattern stem N) j = some (shardName stem j N) :=
      fun j _ _ => h.snprintf j N
    obtain ⟨r, hr, hpre⟩ := openLoop_prefix fs (shardName stem I N) hnames {}
    rw [hopen, hr, Option.map_some]
    exact ⟨_, rfl, hpre⟩
  · intro fs gs hfs
    obtain ⟨g, hrun, hg⟩ := openLoop_opened hI hIN (by omega) h hfs (Nat.zero_add N)
      (opened_zero gs (I - 1))
    refine ⟨g, ?_, ?_, ?_, hg.tensors, hg.shards, fun i hi => ?_⟩
    · rw [hopen, hrun]
      rfl
    · rw [hg.kv, if_pos (by omega)]
    · rw [hg.align, if_pos (by omega)]
    · obtain ⟨f, -, hm⟩ := hfs i hi
      exact shard_of_mapOne hm

/-- The loop is that of a model whose shards are given by their positions. -/
theorem openLoop_eq_mapShards (fs : Str → Option File) {stem : Str} {I N : ℕ} (hI : 1 ≤ I)
    (hIN : I ≤ N) (hN : N < 100000) (hplain : Plain stem) {n k : ℕ} (hk : k + n = N) {g : Gguf}
    (hg : g.shards.length = k) :
    ∃ opened, openLoop fs (shardName stem I N) (shardPattern stem N) n (k + 1) g =
      some (opened, mapShards (I - 1) g
        ((List.range' (k + 1) n).map fun i => fs (shardName stem i N))) := by
  induction n generalizing k g with
  | zero => exact ⟨[], rfl⟩
  | succ n ih =>
    have hkeep := shardName_beq stem hI hIN hN (show k < N by omega)
    rw [openLoop, hplain.snprintf, List.range'_succ, List.map_cons]
    cases hf : fs (shardName stem (k + 1) N) with
    | none => exact ⟨[shardName stem (k + 1) N], by simp only [hf, mapShards]⟩
    | some f =>
      rw [mapShards, hg]
      cases hm : mapOne g f k (k = I - 1) with
      | error e => exact ⟨[shardName stem (k + 1) N], by simp only [hf, hkeep, hm]; rfl⟩
      | ok g' =>
        have hg' : g'.shards.length = k + 1 := by
          obtain ⟨hd, rest, -, -, rfl⟩ := mapOne_ok_iff.mp hm
          simp [Header.install, hg]
        obtain ⟨opened, hrun⟩ := ih (by omega) hg'
        refine ⟨shardName stem (k + 1) N :: opened, ?_⟩
        simp only [hf, hkeep, hm, hrun, Option.map_some]
        rfl

/-- For a plain stem `open` is `openGguf` on the files behind the names. -/
theorem openPath_eq_openGguf (fs : Str → Option File) {stem : Str} {I N : ℕ} (hI : 1 ≤ I)
    (hIN : I ≤ N) (hN : 2 ≤ N) (hN' : N ≤ 999) (h : Plain stem) :
    ∃ opened, openPath fs (shardName stem I N) =
      some (opened, openGguf (.split (I - 1) ((shardNames stem N).map fs))) := by
  have hzero : ({} : Gguf).shards.length = 0 := rfl
  obtain ⟨opened, hrun⟩ := openLoop_eq_mapShards fs hI hIN (by omega) h (Nat.zero_add N) hzero
  refine ⟨opened, ?_⟩
  rw [openPath_shardName fs stem I hN hN', hrun, Option.map_some, shardNames, List.map_map]
  rfl

/-- A file without metadata and tensors. -/
def emptyModel : File where
  bytes := (⟨3, [], []⟩ : Header).encode
  size_lt := by decide

theorem mapOne_emptyModel (i : ℕ) : ∃ g, mapOne {} emptyModel i true = .ok g :=
  mapOne_accepts_iff.mpr ⟨⟨3, [], []⟩, ⟨.inr rfl, by decide, by decide, by simp, by simp⟩,
    List.prefix_rfl⟩

/-- Where the promise is kept, the first shard is opened under its name. -/
theorem OpensShards.snprintf {stem : Str} {I N : ℕ} (hN : 2 ≤ N) (hN' : N ≤ 999)
    (h : OpensShards stem I N) :
    snprintf 1024 (shardPattern stem N) 1 = some (shardName stem 1 N) := by
  choose gs hgs using mapOne_emptyModel
  obtain ⟨g, hrun, -⟩ := h.2 (fun _ => some emptyModel) gs fun i _ => ⟨emptyModel, rfl, hgs i⟩
  rw [openPath_shardName _ stem I hN hN'] at hrun
  obtain ⟨r, hr, hres⟩ := Option.map_eq_some_iff.mp hrun
  obtain ⟨n, rfl⟩ : ∃ n, N = n + 1 := ⟨N - 1, by omega⟩
  obtain ⟨buf, hbuf, hhead⟩ := openLoop_head hr
  rw [(Prod.mk.inj hres).1, shardNames, List.range'_succ, List.map_cons, List.head?_cons,
    Option.some.injEq] at hhead
  rw [hbuf, hhead]

/-- The name of a shard opens the shards of its stem exactly if the stem has no percent sign and no
NUL and leaves room for the rest of the name in the buffer. -/
theorem opensShards_iff (stem : Str) {I N : ℕ} (hI : 1 ≤ I) (hIN : I ≤ N) (hN : 2 ≤ N)
    (hN' : N ≤ 999) :
    OpensShards stem I N ↔ 37 ∉ stem ∧ 0 ∉ stem ∧ stem.length ≤ 1003 := by
  constructor
  · intro h
    obtain ⟨h1, h2, h3⟩ := plain_of_snprintf (h.snprintf hN hN')
    exact ⟨h1, h2, h3⟩
  · rintro ⟨h1, h2, h3⟩
    exact opensShards_of_plain hI hIN hN hN' ⟨h1, h2, h3⟩

/-- The second shard of three. -/
theorem opensShards_iff_flash :
    OpensShards (ascii "models/flash") 2 3 ↔ 37 ∉ ascii "models/flash" ∧ 0 ∉ ascii "models/flash" ∧
      (ascii "models/flash").length ≤ 1003 :=
  opensShards_iff (ascii "models/flash") (by decide) (by decide) (by decide) (by decide)

/-- Two percent signs: the shards of `models/50%` are opened. -/
theorem percent_opens_other_shards : ¬ OpensShards (ascii "models/50%%") 1 2 := fun h =>
  absurd (plain_of_snprintf (h.snprintf (by decide) (by decide))).percent (by decide)

end FastLlm
