import Mathlib.Data.Nat.Notation

/-!
# Weight formats and the layout of an activation buffer

## Main definitions

* `Fmt` — storage format of a weight tensor, with its block sizes.
* `rowBytes` — bytes of one weight row.
* `xqOf`, `xqkOf` — where the q8_1 and q8_K appendices of an activation column lie.
* `xAllocBytes` — the size of a column with both appendices.
-/

namespace FastLlm

/-- Weight storage format. -/
inductive Fmt
  | F32 | Q8_0 | Q5_0 | Q4_K | Q6_K | IQ2_XXS | IQ3_XXS
  deriving DecidableEq, Repr

/-- Formats whose blocks hold indices into a fixed grid. -/
def fmtIsCodebook (f : Fmt) : Bool := f = .IQ2_XXS ∨ f = .IQ3_XXS

/-- Weights in one block. -/
def blkElems : Fmt → ℕ
  | .F32 => 1
  | .Q8_0 | .Q5_0 => 32
  | .Q4_K | .Q6_K | .IQ2_XXS | .IQ3_XXS => 256

/-- Bytes of one block. -/
def blkBytes : Fmt → ℕ
  | .F32 => 4
  | .Q8_0 => 34
  | .Q5_0 => 22
  | .Q4_K => 144
  | .Q6_K => 210
  | .IQ2_XXS => 66
  | .IQ3_XXS => 98

/-- Bytes of one weight row. -/
def rowBytes (f : Fmt) (cols : ℕ) : ℕ := cols / blkElems f * blkBytes f

theorem blkElems_pos (f : Fmt) : 0 < blkElems f := by cases f <;> decide

/-- Round up to a multiple of 16. -/
def align16 (n : ℕ) : ℕ := (n + 15) / 16 * 16

/-- Bytes of the q8_1 blocks of a column. -/
def xqBytes (cols : ℕ) : ℕ := cols / 32 * 36

/-- Byte offset of the q8_1 appendix of a column. -/
def xqOf (cols : ℕ) : ℕ := align16 (cols * 4)

/-- Byte offset of the q8_K appendix of a column. -/
def xqkOf (cols : ℕ) : ℕ := align16 (cols * 4) + align16 (xqBytes cols)

/-- Bytes of a column with both appendices. -/
def xAllocBytes (cols : ℕ) : ℕ :=
  align16 (cols * 4) + align16 (xqBytes cols) + cols / 256 * 292

/-- The appendices start behind the floats and do not overlap. -/
theorem appendix_layout (cols : ℕ) :
    cols * 4 ≤ xqOf cols ∧ xqOf cols + cols / 32 * 36 ≤ xqkOf cols ∧
      xqkOf cols + cols / 256 * 292 = xAllocBytes cols := by
  refine ⟨?_, ?_, rfl⟩
  · simp only [xqOf, align16]
    omega
  · simp only [xqOf, xqkOf, xqBytes, align16]
    omega

/-- Both appendices start at a word boundary. -/
theorem four_dvd_appendix (cols : ℕ) : 4 ∣ xqOf cols ∧ 4 ∣ xqkOf cols := by
  simp only [xqOf, xqkOf, align16]
  exact ⟨by omega, by omega⟩

end FastLlm
