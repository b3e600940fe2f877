import FastLlm.Lib.Loop
import FastLlm.Model.Gguf
import FastLlm.Spec.SuffixIndex
import Mathlib.Data.List.GetD

/-!
# Detokenization

The vocabulary holds every token as text in which each byte stands as a printable character.
`build_detok` takes the texts apart, character by character, and puts the bytes back; what is no
such character is copied.  The UTF-8 decoder is written by hand and also meets texts that are not
UTF-8.  It reads no byte past the end of a text (`tokenPiece_eq`), and a text that stands for bytes
gives these bytes (`tokenPiece_encode`).

## Main definitions

* `byteOfCp` — the map from characters to bytes.
* `decodeCp`, `tokenPiece`, `buildDetok`, `detok` — the functions of the source.
* `bytesToUnicode`, `gpt2Encode` — the characters and texts of bytes.
* `units` — the sequences a text is cut into.
-/

namespace FastLlm

/-! ## The map -/

/-- `rng(a, b)`. -/
def rng (a b : ℕ) (direct : ℕ → Bool) : ℕ → Bool := fun i => if a ≤ i ∧ i ≤ b then true else direct i

def direct : ℕ → Bool := rng 174 255 (rng 161 172 (rng 33 126 fun _ => false))

/-- `cp_of_byte` as far as byte `b`, and `next`. -/
def cpTable (b : ℕ) : List ℕ × ℕ :=
  iter b ([], 256) fun b s => if direct b then (s.1 ++ [b], s.2) else (s.1 ++ [s.2], s.2 + 1)

/-- `cp_of_byte[b]`. -/
def cpOfByte (b : ℕ) : ℕ := (cpTable 256).1.getD b 0

/-- `byte_of_cp`. -/
def byteOfCp : ℕ → Option UInt8 :=
  iter 256 (fun _ => none) fun b m => Function.update m (cpOfByte b) (some (UInt8.ofNat b))

/-! ## The decoder -/

/-- One character at byte `j` of `s`, and its length.  No result stands for a read past the end. -/
def decodeCp (s : Str) (j : ℕ) : Option (ℕ × ℕ) := do
  let c0 ← s[j]?
  if c0 < 0x80 then pure (c0.toNat, 1)
  else if c0 >>> 5 = 0x6 ∧ j + 1 < s.length then do
    let c1 ← s[j + 1]?
    pure ((c0 &&& 0x1F).toNat <<< 6 ||| (c1 &&& 0x3F).toNat, 2)
  else if c0 >>> 4 = 0xE ∧ j + 2 < s.length then do
    let c1 ← s[j + 1]?
    let c2 ← s[j + 2]?
    pure ((c0 &&& 0x0F).toNat <<< 12 ||| (c1 &&& 0x3F).toNat <<< 6 ||| (c2 &&& 0x3F).toNat, 3)
  else if c0 >>> 3 = 0x1E ∧ j + 3 < s.length then do
    let c1 ← s[j + 1]?
    let c2 ← s[j + 2]?
    let c3 ← s[j + 3]?
    pure ((c0 &&& 0x07).toNat <<< 18 ||| (c1 &&& 0x3F).toNat <<< 12 |||
      (c2 &&& 0x3F).toNat <<< 6 ||| (c3 &&& 0x3F).toNat, 4)
  else pure (0, 1)

/-- Only what follows matters. -/
theorem decodeCp_drop (s : Str) (j : ℕ) : decodeCp s j = decodeCp (s.drop j) 0 := by
  have hread (k : ℕ) : (s.drop j)[k]? = s[j + k]? := List.getElem?_drop
  have hin (k : ℕ) : k < (s.drop j).length ↔ j + k < s.length := by
    rw [List.length_drop]
    omega
  simp only [decodeCp, hread, Nat.zero_add, Nat.add_zero, hin]

/-- The sequence at the front of a text: it lies within the text, and means the same when the text
ends with it. -/
theorem decodeCp_front (c0 : UInt8) (t : Str) :
    ∃ cp len, decodeCp (c0 :: t) 0 = some (cp, len) ∧ 1 ≤ len ∧ len ≤ (c0 :: t).length ∧
      decodeCp ((c0 :: t).take len) 0 = some (cp, len) := by
  by_cases h0 : c0 < 0x80
  · exact ⟨c0.toNat, 1, by simp [decodeCp, h0], le_rfl, by simp, by simp [decodeCp, h0]⟩
  have hone (h : decodeCp (c0 :: t) 0 = some (0, 1)) : ∃ cp len,
      decodeCp (c0 :: t) 0 = some (cp, len) ∧ 1 ≤ len ∧ len ≤ (c0 :: t).length ∧
        decodeCp ((c0 :: t).take len) 0 = some (cp, len) :=
    ⟨0, 1, h, le_rfl, by simp, by simp [decodeCp, h0]⟩
  cases t with
  | nil => exact hone (by simp [decodeCp, h0])
  | cons c1 t =>
  by_cases h5 : c0 >>> 5 = 0x6
  · exact ⟨(c0 &&& 0x1F).toNat <<< 6 ||| (c1 &&& 0x3F).toNat, 2, by simp [decodeCp, h0, h5],
      by omega, by simp, by simp [decodeCp, h0, h5]⟩
  cases t with
  | nil => exact hone (by simp [decodeCp, h0, h5])
  | cons c2 t =>
  by_cases h4 : c0 >>> 4 = 0xE
  · exact ⟨(c0 &&& 0x0F).toNat <<< 12 ||| (c1 &&& 0x3F).toNat <<< 6 ||| (c2 &&& 0x3F).toNat, 3,
      by simp [decodeCp, h0, h5, h4], by omega, by simp, by simp [decodeCp, h0, h5, h4]⟩
  cases t with
  | nil => exact hone (by simp [decodeCp, h0, h5, h4])
  | cons c3 t =>
  by_cases h3 : c0 >>> 3 = 0x1E
  · exact ⟨(c0 &&& 0x07).toNat <<< 18 ||| (c1 &&& 0x3F).toNat <<< 12 |||
        (c2 &&& 0x3F).toNat <<< 6 ||| (c3 &&& 0x3F).toNat, 4,
      by simp [decodeCp, h0, h5, h4, h3], by omega, by simp, by simp [decodeCp, h0, h5, h4, h3]⟩
  · exact hone (by simp [decodeCp, h0, h5, h4, h3])

/-- A step of the loop goes forward and stays within the text. -/
theorem decodeCp_some {s : Str} {j : ℕ} (hj : j < s.length) :
    ∃ cp len, decodeCp s j = some (cp, len) ∧ 1 ≤ len ∧ j + len ≤ s.length ∧
      decodeCp ((s.drop j).take len) 0 = some (cp, len) := by
  have hsplit : s.drop j = s[j] :: s.drop (j + 1) := List.drop_eq_getElem_cons hj
  obtain ⟨cp, len, heq, hpos, hle, htake⟩ := decodeCp_front s[j] (s.drop (j + 1))
  rw [← hsplit] at heq hle htake
  rw [List.length_drop] at hle
  exact ⟨cp, len, by rw [decodeCp_drop, heq], hpos, by omega, htake⟩

/-! ## The loops -/

/-- What becomes of a sequence: the byte of its character, or the sequence. -/
def render (cp : ℕ) (u : Str) : Str :=
  match byteOfCp cp with
  | some b => [b]
  | none => u

/-- The loop over one text, from byte `j`. -/
def pieceLoop (s : Str) (j : ℕ) (out : Str) : Option Str :=
  if _hj : j < s.length then
    match _h : decodeCp s j with
    | some (cp, len) => pieceLoop s (j + len) (out ++ render cp ((s.drop j).take len))
    | none => none
  else some out
  termination_by s.length - j
  decreasing_by
    obtain ⟨cp', len', heq, hpos, -⟩ := decodeCp_some _hj
    obtain ⟨rfl, rfl⟩ := Prod.mk.inj (Option.some.inj (_h.symm.trans heq))
    omega

/-- The bytes of one token. -/
def tokenPiece (s : Str) : Option Str := pieceLoop s 0 []

/-- `build_detok`: `tok_piece_`, which stays empty without a vocabulary. -/
def buildDetok (toks : Option (List Str)) : Option (List Str) :=
  match toks with
  | some toks => toks.mapM tokenPiece
  | none => some []

/-- `detok`. -/
def detok (tokPiece : List Str) (ids : List Token) : Str :=
  ids.foldl (fun out id =>
    if 0 ≤ id ∧ id.toInt.toNat < tokPiece.length then out ++ tokPiece.getD id.toInt.toNat []
    else out) []

/-! ## What a text becomes -/

/-- The length of the sequence at the front of a text. -/
def frontLength (t : Str) : ℕ := ((decodeCp t 0).getD (0, 1)).2

/-- What becomes of the sequence that a text consists of. -/
def renderUnit (u : Str) : Str := render ((decodeCp u 0).getD (0, 1)).1 u

theorem frontLength_pos (c : UInt8) (t : Str) : 1 ≤ frontLength (c :: t) := by
  obtain ⟨cp, len, heq, hpos, -⟩ := decodeCp_front c t
  simpa [frontLength, heq] using hpos

/-- The sequences of a text. -/
def units : Str → List Str
  | [] => []
  | c :: t => (c :: t).take (frontLength (c :: t)) :: units ((c :: t).drop (frontLength (c :: t)))
  termination_by t => t.length
  decreasing_by
    have := frontLength_pos c t
    simp only [List.length_drop, List.length_cons]
    omega

theorem units_of_lt {s : Str} {j cp len : ℕ} (hj : j < s.length)
    (h : decodeCp s j = some (cp, len)) :
    units (s.drop j) = (s.drop j).take len :: units (s.drop (j + len)) := by
  have hsplit : s.drop j = s[j] :: s.drop (j + 1) := List.drop_eq_getElem_cons hj
  have hfront : frontLength (s.drop j) = len := by
    rw [frontLength, ← decodeCp_drop, h]
    rfl
  rw [hsplit] at hfront ⊢
  rw [units, hfront, ← hsplit, List.drop_drop]

/-- The sequences make up the text. -/
theorem units_flatten (s : Str) : (units s).flatten = s := by
  fun_induction units s with
  | case1 => rfl
  | case2 c t ih => rw [List.flatten_cons, ih, List.take_append_drop]

/-- Each of them is one character for the decoder, up to its own end. -/
theorem units_decode (s : Str) : ∀ u ∈ units s, ∃ cp, decodeCp u 0 = some (cp, u.length) := by
  fun_induction units s with
  | case1 => simp
  | case2 c t ih =>
    intro u hu
    rcases List.mem_cons.mp hu with rfl | hu
    · obtain ⟨cp, len, heq, -, hle, htake⟩ := decodeCp_front c t
      have hfront : frontLength (c :: t) = len := by simp [frontLength, heq]
      refine ⟨cp, ?_⟩
      rw [hfront, htake, List.length_take, Nat.min_eq_left hle]
    · exact ih u hu

theorem pieceLoop_eq (s : Str) (j : ℕ) (out : Str) :
    pieceLoop s j out = some (out ++ (units (s.drop j)).flatMap renderUnit) := by
  fun_induction pieceLoop s j out with
  | case1 j out hj cp len h ih =>
    obtain ⟨cp', len', heq, -, -, htake⟩ := decodeCp_some hj
    obtain ⟨rfl, rfl⟩ := Prod.mk.inj (Option.some.inj (h.symm.trans heq))
    rw [ih, units_of_lt hj h, List.flatMap_cons, renderUnit, htake, Option.getD_some,
      List.append_assoc]
  | case2 j out hj h =>
    obtain ⟨cp, len, heq, -⟩ := decodeCp_some hj
    rw [h] at heq
    cases heq
  | case3 j out hj =>
    rw [List.drop_of_length_le (by omega), units, List.flatMap_nil, List.append_nil]

/-- **The loop over a text ends without a read past the end**, and every sequence has become its
byte, or stayed as it was. -/
theorem tokenPiece_eq (s : Str) : tokenPiece s = some ((units s).flatMap renderUnit) := by
  rw [tokenPiece, pieceLoop_eq, List.nil_append, List.drop_zero]

/-! ## Texts of bytes -/

/-- The character of a byte: itself where it is printable, and else the next one from 256 on. -/
def bytesToUnicode (b : UInt8) : ℕ :=
  let printable (n : ℕ) : Bool := 33 ≤ n ∧ n ≤ 126 ∨ 161 ≤ n ∧ n ≤ 172 ∨ 174 ≤ n ∧ n ≤ 255
  if printable b.toNat then b.toNat
  else 256 + (List.range b.toNat).countP fun n => !printable n

/-- A byte in UTF-8. -/
def encodeByte (b : UInt8) : Str := String.utf8EncodeChar (Char.ofNat (bytesToUnicode b))

/-- The text of a byte string. -/
def gpt2Encode (bs : List UInt8) : Str := bs.flatMap encodeByte

/-- A sequence that the decoder takes whole, whatever follows: of one byte or two. -/
def wholeSequence : Str → Bool
  | [c] => decide (c < 0x80)
  | [c0, _] => decide (¬ c0 < 0x80 ∧ c0 >>> 5 = 0x6)
  | _ => false

/-- Every byte's character, by the loop that builds the table and by the definition, and its
encoding. -/
theorem encodeByte_table : ∀ n < 256, cpOfByte n = bytesToUnicode (UInt8.ofNat n) ∧
    wholeSequence (encodeByte (UInt8.ofNat n)) = true ∧
    decodeCp (encodeByte (UInt8.ofNat n)) 0 =
      some (bytesToUnicode (UInt8.ofNat n), (encodeByte (UInt8.ofNat n)).length) := by
  decide +kernel

theorem cpTable_nodup : (cpTable 256).1.Nodup ∧ (cpTable 256).1.length = 256 := by decide +kernel

/-- Different bytes have different characters. -/
theorem cpOfByte_inj {a b : ℕ} (ha : a < 256) (hb : b < 256) (h : cpOfByte a = cpOfByte b) :
    a = b := by
  obtain ⟨hnd, hlen⟩ := cpTable_nodup
  rw [cpOfByte, cpOfByte, List.getD_eq_getElem _ _ (hlen.symm ▸ ha),
    List.getD_eq_getElem _ _ (hlen.symm ▸ hb)] at h
  exact (hnd.getElem_inj_iff).mp h

/-- The map finds the byte of a character. -/
theorem byteOfCp_cpOfByte {b : ℕ} (hb : b < 256) :
    byteOfCp (cpOfByte b) = some (UInt8.ofNat b) := by
  have hmap : ∀ n ≤ 256, ∀ k < n, iter n (fun _ => none)
      (fun b m => Function.update m (cpOfByte b) (some (UInt8.ofNat b))) (cpOfByte k) =
        some (UInt8.ofNat k) := by
    intro n hn
    induction n with
    | zero => simp
    | succ n ih =>
      intro k hk
      rw [iter_succ]
      rcases Nat.lt_succ_iff_lt_or_eq.mp hk with hlt | rfl
      · have hne : cpOfByte k ≠ cpOfByte n := by
          intro heq
          have := cpOfByte_inj (by omega) (by omega) heq
          omega
        rw [Function.update_of_ne hne, ih (by omega) k hlt]
      · rw [Function.update_self]
  exact hmap 256 le_rfl b hb

theorem decodeCp_whole {u : Str} (h : wholeSequence u = true) (t : Str) :
    decodeCp (u ++ t) 0 = decodeCp u 0 ∧ u ≠ [] := by
  match u, h with
  | [c], h =>
    have h0 : c < 0x80 := by simpa [wholeSequence] using h
    simp [decodeCp, h0]
  | [c0, c1], h =>
    have h0 : ¬ c0 < 0x80 ∧ c0 >>> 5 = 0x6 := of_decide_eq_true h
    simp [decodeCp, h0.1, h0.2]

theorem encodeByte_spec (b : UInt8) (t : Str) :
    decodeCp (encodeByte b ++ t) 0 = some (bytesToUnicode b, (encodeByte b).length) ∧
      encodeByte b ≠ [] ∧ renderUnit (encodeByte b) = [b] := by
  obtain ⟨hcp, hwhole, hdec⟩ := encodeByte_table b.toNat b.toNat_lt
  rw [UInt8.ofNat_toNat] at hcp hwhole hdec
  refine ⟨(decodeCp_whole hwhole t).1.trans hdec, (decodeCp_whole hwhole t).2, ?_⟩
  rw [renderUnit, hdec, Option.getD_some, render, ← hcp, byteOfCp_cpOfByte b.toNat_lt,
    UInt8.ofNat_toNat]

/-- The sequences of such a text are the encodings of the bytes. -/
theorem units_encode (bs : List UInt8) : units (gpt2Encode bs) = bs.map encodeByte := by
  induction bs with
  | nil => rw [gpt2Encode, List.flatMap_nil, units, List.map_nil]
  | cons b bs ih =>
    obtain ⟨hdec, hne, -⟩ := encodeByte_spec b (gpt2Encode bs)
    have hlen : 0 < (encodeByte b ++ gpt2Encode bs).length := by
      rw [List.length_append]
      have := List.length_pos_iff.mpr hne
      omega
    have hunits := units_of_lt hlen hdec
    rw [List.drop_zero, Nat.zero_add, List.take_left, List.drop_left, ih] at hunits
    exact hunits

/-- A text of bytes becomes the bytes. -/
theorem tokenPiece_encode (bs : List UInt8) : tokenPiece (gpt2Encode bs) = some bs := by
  rw [tokenPiece_eq, units_encode, List.flatMap_map]
  have hrender : (fun b => renderUnit (encodeByte b)) = fun b => [b] :=
    funext fun b => (encodeByte_spec b []).2.2
  rw [hrender, List.flatMap_singleton']

/-! ## The vocabulary -/

theorem buildDetok_encode (vocab : List (List UInt8)) :
    buildDetok (some (vocab.map gpt2Encode)) = some vocab := by
  rw [buildDetok]
  induction vocab with
  | nil => rfl
  | cons v vocab ih => simp [List.mapM_cons, tokenPiece_encode, ih]

/-- The answer of `detok`: the pieces of the ids that are in range. -/
theorem detok_eq (tokPiece : List Str) (ids : List Token) :
    detok tokPiece ids =
      ids.flatMap fun id => if 0 ≤ id then tokPiece.getD id.toInt.toNat [] else [] := by
  have hloop (out : Str) : ids.foldl (fun out id =>
      if 0 ≤ id ∧ id.toInt.toNat < tokPiece.length then out ++ tokPiece.getD id.toInt.toNat []
      else out) out =
      out ++ ids.flatMap fun id => if 0 ≤ id then tokPiece.getD id.toInt.toNat [] else [] := by
    induction ids generalizing out with
    | nil => simp
    | cons id ids ih =>
      rw [List.foldl_cons, ih, List.flatMap_cons]
      by_cases hid : 0 ≤ id
      · by_cases hin : id.toInt.toNat < tokPiece.length
        · rw [if_pos ⟨hid, hin⟩, if_pos hid, List.append_assoc]
        · rw [if_neg fun h => hin h.2, if_pos hid,
            List.getD_eq_default _ _ (Nat.le_of_not_lt hin), List.nil_append]
      · rw [if_neg fun h => hid h.1, if_neg hid, List.nil_append]
  rw [detok, hloop, List.nil_append]

/-- **Detokenization.**  The text of a byte string becomes the byte string; with a vocabulary of
such texts ids become the bytes of their tokens, and ids out of range nothing; and every text
whatsoever is cut into sequences, without a read past its end, of which those that are the
character of a byte become the byte and the others are copied. -/
theorem detok_inverts :
    (∀ bs : List UInt8, tokenPiece (gpt2Encode bs) = some bs) ∧
    (∀ (vocab : List (List UInt8)) (ids : List Token),
      ∃ tokPiece, buildDetok (some (vocab.map gpt2Encode)) = some tokPiece ∧
        detok tokPiece ids =
          ids.flatMap fun id => if 0 ≤ id then vocab.getD id.toInt.toNat [] else []) ∧
    ∀ s : Str, ∃ us : List Str, us.flatten = s ∧
      (∀ u ∈ us, ∃ cp, decodeCp u 0 = some (cp, u.length)) ∧
      tokenPiece s = some (us.flatMap fun u =>
        match (decodeCp u 0).bind fun r => byteOfCp r.1 with
        | some b => [b]
        | none => u) := by
  refine ⟨tokenPiece_encode, fun vocab ids => ?_, fun s => ?_⟩
  · exact ⟨vocab, buildDetok_encode vocab, detok_eq vocab ids⟩
  · refine ⟨units s, units_flatten s, units_decode s, ?_⟩
    rw [tokenPiece_eq]
    congr 1
    refine List.flatMap_congr fun u hu => ?_
    obtain ⟨cp, hcp⟩ := units_decode s u hu
    rw [renderUnit, hcp]
    rfl

end FastLlm
