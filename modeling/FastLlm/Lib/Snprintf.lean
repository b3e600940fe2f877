import Mathlib.Data.List.TakeWhile
import Mathlib.Data.UInt

/-!
# `snprintf` with one number

`snprintf` with an `int` argument and the formats that print it with `%05d`.  Text is copied, `%%`
is a percent sign, and the result is cut to the buffer.  Any other directive would take the
argument, and so would a second `%05d`: then the call has no defined result, and neither has it
here.  A format that was made of other text may so lose a character for every `%%`, or its meaning.

## Main definitions

* `dec5` — five digits.
* `format`, `snprintf` — the result as a list of bytes.
-/

namespace Printf

/-- `%05d` of a number below 100000. -/
def dec5 (i : ℕ) : List UInt8 :=
  [i / 10000, i / 1000, i / 100, i / 10, i].map fun d => UInt8.ofNat (48 + d % 10)

/-- What has been read of a directive. -/
inductive Scan
  | text
  | percent
  | zero
  | five

/-- The output for the rest of a format; the argument is gone once it is printed. -/
def format : Scan → Option ℕ → List UInt8 → Option (List UInt8)
  | .text, _, [] => some []
  | _, _, [] => none
  | .text, arg, c :: s => if c = 37 then format .percent arg s else (format .text arg s).map (c :: ·)
  | .percent, arg, c :: s =>
    if c = 37 then (format .text arg s).map (37 :: ·)
    else if c = 48 then format .zero arg s
    else none
  | .zero, arg, c :: s => if c = 53 then format .five arg s else none
  | .five, some i, c :: s => if c = 100 then (format .text none s).map (dec5 i ++ ·) else none
  | .five, none, _ :: _ => none

/-- `snprintf(buf, size, fmt, arg)`, where `fmt` ends at its first NUL. -/
def snprintf (size : ℕ) (fmt : List UInt8) (arg : ℕ) : Option (List UInt8) :=
  (format .text (some arg) (fmt.takeWhile (· ≠ 0))).map fun out => out.take (size - 1)

/-! ## Digits -/

@[simp] theorem length_dec5 (i : ℕ) : (dec5 i).length = 5 := rfl

theorem toNat_digit (d : ℕ) : (UInt8.ofNat (48 + d % 10)).toNat = 48 + d % 10 := by
  rw [UInt8.toNat_ofNat']
  omega

theorem mem_dec5 {i : ℕ} {c : UInt8} (hc : c ∈ dec5 i) : 48 ≤ c.toNat ∧ c.toNat ≤ 57 := by
  obtain ⟨d, -, rfl⟩ := List.mem_map.mp hc
  rw [toNat_digit]
  omega

/-- Numbers below 100000 are told apart. -/
theorem dec5_inj {i j : ℕ} (hi : i < 100000) (hj : j < 100000) (h : dec5 i = dec5 j) : i = j := by
  simp only [dec5, List.map_cons, List.map_nil, List.cons.injEq, and_true] at h
  obtain ⟨h1, h2, h3, h4, h5⟩ := h
  replace h1 := congrArg UInt8.toNat h1
  replace h2 := congrArg UInt8.toNat h2
  replace h3 := congrArg UInt8.toNat h3
  replace h4 := congrArg UInt8.toNat h4
  replace h5 := congrArg UInt8.toNat h5
  rw [toNat_digit, toNat_digit] at h1 h2 h3 h4 h5
  omega

/-! ## Text and directives -/

/-- Text without a percent sign is copied. -/
theorem format_text {s : List UInt8} (hs : 37 ∉ s) (arg : Option ℕ) (r : List UInt8) :
    format .text arg (s ++ r) = (format .text arg r).map (s ++ ·) := by
  induction s with
  | nil => simp
  | cons c s ih =>
    rw [List.mem_cons, not_or] at hs
    rw [List.cons_append, format, if_neg (Ne.symm hs.1), ih hs.2, Option.map_map]
    rfl

/-- The end of a format that still needs the argument, whatever stands before it. -/
structure Needs (i n : ℕ) (r : List UInt8) : Prop where
  text : ∀ out, format .text (some i) r = some out → out.length ≤ n
  directive : ∀ st, st ≠ Scan.text → format st (some i) r = none
  spent : ∀ st, format st none r = none

namespace Needs
variable {i n : ℕ} {r : List UInt8}

/-- The argument was printed before. -/
theorem spent_append (h : Needs i n r) (s : List UInt8) (st : Scan) :
    format st none (s ++ r) = none := by
  induction s generalizing st with
  | nil => exact h.spent st
  | cons c s ih =>
    cases st with
    | five => rw [List.cons_append, format]
    | text => simp [format, ih]
    | percent => simp [format, ih]
    | zero => simp [format, ih]

theorem five_append (h : Needs i n r) (s : List UInt8) : format .five (some i) (s ++ r) = none := by
  cases s with
  | nil => exact h.directive _ (by simp)
  | cons c s => simp [format, h.spent_append s]

theorem zero_append (h : Needs i n r) (s : List UInt8) : format .zero (some i) (s ++ r) = none := by
  cases s with
  | nil => exact h.directive _ (by simp)
  | cons c s => simp [format, h.five_append s]

/-- The output is no longer than text of the same length, and a percent sign makes it shorter. -/
theorem length_le (h : Needs i n r) (s : List UInt8) :
    (∀ out, format .text (some i) (s ++ r) = some out →
      out.length ≤ s.length + n ∧ (37 ∈ s → out.length < s.length + n)) ∧
    ∀ out, format .percent (some i) (s ++ r) = some out → out.length ≤ s.length + n := by
  induction s with
  | nil =>
    refine ⟨fun out hout => ⟨by simpa using h.text out hout, by simp⟩, fun out hout => ?_⟩
    rw [List.nil_append, h.directive _ (by simp)] at hout
    simp at hout
  | cons c s ih =>
    obtain ⟨ihtext, ihpercent⟩ := ih
    constructor
    · intro out hout
      rw [List.cons_append, format] at hout
      split at hout
      · have := ihpercent out hout
        simp only [List.length_cons]
        exact ⟨by omega, fun _ => by omega⟩
      · rename_i hc
        obtain ⟨out', hout', rfl⟩ := Option.map_eq_some_iff.mp hout
        obtain ⟨hle, hlt⟩ := ihtext out' hout'
        simp only [List.length_cons]
        refine ⟨by omega, fun hmem => ?_⟩
        have := hlt ((List.mem_cons.mp hmem).resolve_left (Ne.symm hc))
        omega
    · intro out hout
      rw [List.cons_append, format] at hout
      split at hout
      · obtain ⟨out', hout', rfl⟩ := Option.map_eq_some_iff.mp hout
        have := (ihtext out' hout').1
        simp only [List.length_cons]
        omega
      · simp [h.zero_append] at hout

end Needs

/-- The output of a C string is a C string. -/
theorem zero_notMem_format {s : List UInt8} (hs : 0 ∉ s) {st : Scan} {arg : Option ℕ}
    {out : List UInt8} (h : format st arg s = some out) : 0 ∉ out := by
  fun_induction format st arg s generalizing out with
  | case1 =>
    obtain rfl := Option.some.inj h
    simp
  | case2 => simp at h
  | case3 arg s ih => exact ih (List.not_mem_of_not_mem_cons hs) h
  | case4 arg c s hc ih =>
    obtain ⟨out', hout', rfl⟩ := Option.map_eq_some_iff.mp h
    rw [List.mem_cons, not_or] at hs ⊢
    exact ⟨hs.1, ih hs.2 hout'⟩
  | case5 arg s ih =>
    obtain ⟨out', hout', rfl⟩ := Option.map_eq_some_iff.mp h
    rw [List.mem_cons, not_or]
    exact ⟨by decide, ih (List.not_mem_of_not_mem_cons hs) hout'⟩
  | case6 arg s _ ih => exact ih (List.not_mem_of_not_mem_cons hs) h
  | case7 => simp at h
  | case8 arg s ih => exact ih (List.not_mem_of_not_mem_cons hs) h
  | case9 => simp at h
  | case10 i s ih =>
    obtain ⟨out', hout', rfl⟩ := Option.map_eq_some_iff.mp h
    rw [List.mem_append, not_or]
    refine ⟨fun hmem => ?_, ih (List.not_mem_of_not_mem_cons hs) hout'⟩
    have := (mem_dec5 hmem).1
    simp at this
  | case11 => simp at h
  | case12 => simp at h

/-! ## The buffer -/

theorem length_snprintf_le {size arg : ℕ} {fmt out : List UInt8}
    (h : snprintf size fmt arg = some out) : out.length ≤ size - 1 := by
  obtain ⟨out', -, rfl⟩ := Option.map_eq_some_iff.mp h
  exact List.length_take_le _ _

/-- The buffer holds a C string. -/
theorem zero_notMem_snprintf {size arg : ℕ} {fmt out : List UInt8}
    (h : snprintf size fmt arg = some out) : 0 ∉ out := by
  obtain ⟨out', hout', rfl⟩ := Option.map_eq_some_iff.mp h
  have hfmt : 0 ∉ fmt.takeWhile (· ≠ 0) := fun hmem => by
    simpa using List.mem_takeWhile_imp hmem
  exact fun hmem => zero_notMem_format hfmt hout' (List.mem_of_mem_take hmem)

/-- A C string as a format. -/
theorem snprintf_eq {size arg : ℕ} {fmt : List UInt8} (h : 0 ∉ fmt) :
    snprintf size fmt arg = (format .text (some arg) fmt).map fun out => out.take (size - 1) := by
  have hfmt : fmt.takeWhile (· ≠ 0) = fmt := by
    rw [List.takeWhile_eq_self_iff]
    intro c hc
    simpa using fun h0 : c = 0 => h (h0 ▸ hc)
  rw [snprintf, hfmt]

end Printf
