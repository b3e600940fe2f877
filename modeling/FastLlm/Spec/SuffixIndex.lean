import Mathlib.Data.List.Basic
import Mathlib.Data.Int.Basic

/-!
# The suffix index

`SuffixIndex` is the draft source of the speculative driver.  It indexes the
live token stream by a hash of every trailing gram of three tokens and keeps, for
each end position, the previous end position with the same hash.  A draft walks
that chain from the current tail gram, keeps the longest full suffix match (ties
to the more recent end) and proposes the tokens that followed it.

The stream `toks` is the specification view: `push` appends to it and nothing
else writes it.
-/

namespace FastLlm

/-- A token id, `int32_t` in the source. -/
abbrev Token := Int32

/-- The stream, the chain links per end position, and the latest end position of
every gram hash. -/
structure SuffixIndex where
  toks : List Token
  prev : List ℤ
  head : UInt64 → Option ℤ
  chainCap : ℕ
  minMatch : ℕ

namespace SuffixIndex

/-- The gram length. -/
def H : ℕ := 3

/-- An empty index, with the driver's chain cap and minimum match. -/
def init (chainCap minMatch : ℕ) : SuffixIndex :=
  ⟨[], [], fun _ => none, chainCap, minMatch⟩

/-- Forget the stream; the two bounds stay. -/
def reset (s : SuffixIndex) : SuffixIndex := init s.chainCap s.minMatch

/-- The token at a position, zero past the end. -/
def tokAt (toks : List Token) (i : ℕ) : Token := toks.getD i 0

/-- The seed and round constant of `gram_hash`. -/
def golden : UInt64 := 0x9e3779b97f4a7c15

/-- One mixing round of `gram_hash`. -/
def mix (x : UInt64) (t : Token) : UInt64 :=
  x ^^^ (t.toUInt32.toUInt64 + golden + (x <<< 6) + (x >>> 2))

/-- Hash of the gram starting at `start`. -/
def gramHash (toks : List Token) (start : ℕ) : UInt64 :=
  (List.range H).foldl (fun x i => mix x (tokAt toks (start + i))) golden

/-- The two grams starting at `a` and `b` agree token by token. -/
def gramEq (toks : List Token) (a b : ℕ) : Bool :=
  (List.range H).all fun i => tokAt toks (a + i) == tokAt toks (b + i)

/-- Append one token and index the gram that ends at it. -/
def push (s : SuffixIndex) (t : Token) : SuffixIndex :=
  let toks := s.toks ++ [t]
  let n := toks.length
  if n < H then { s with toks := toks, prev := s.prev ++ [-1] }
  else
    let h := gramHash toks (n - H)
    { s with
      toks := toks
      prev := s.prev ++ [(s.head h).getD (-1)]
      head := fun k => if k = h then some ((n : ℤ) - 1) else s.head k }

/-- Extend a gram match ending at `e` backward, from length `len` on. -/
def extend (toks : List Token) (e : ℕ) : ℕ → ℕ → ℕ
  | 0, len => len
  | fuel + 1, len =>
      if len < e + 1 ∧ len < toks.length - 1 ∧
          tokAt toks (e - len) = tokAt toks (toks.length - 1 - len) then
        extend toks e fuel (len + 1)
      else len

/-- The walk over the chain of prior ends, at most `cap` steps: the best end and
the best length so far, `-1` and `0` when there is none. -/
def walk (s : SuffixIndex) : ℕ → ℤ → ℤ × ℕ → ℤ × ℕ
  | 0, _, best => best
  | cap + 1, e, best =>
      if e < 0 then best
      else
        let n := s.toks.length
        let next := s.prev.getD e.toNat (-1)
        if e.toNat = n - 1 then walk s cap next best
        else if !gramEq s.toks (e.toNat + 1 - H) (n - H) then walk s cap next best
        else
          let len := extend s.toks e.toNat n H
          walk s cap next (if best.2 < len then (e, len) else best)

/-- The longest-suffix-match draft: at most `nMax` tokens that followed the best
match of the current tail, none when the match is shorter than `minMatch`. -/
def draft (s : SuffixIndex) (nMax : ℕ) : List Token :=
  let n := s.toks.length
  if n < H ∨ nMax = 0 then []
  else
    match s.head (gramHash s.toks (n - H)) with
    | none => []
    | some e =>
        let best := walk s s.chainCap e (-1, 0)
        if best.1 < 0 ∨ best.2 < s.minMatch then []
        else (s.toks.drop (best.1.toNat + 1)).take nMax

@[simp] theorem toks_init (c m : ℕ) : (init c m).toks = [] := rfl

@[simp] theorem toks_reset (s : SuffixIndex) : s.reset.toks = [] := rfl

@[simp] theorem toks_push (s : SuffixIndex) (t : Token) :
    (s.push t).toks = s.toks ++ [t] := by
  simp only [push]
  split <;> rfl

@[simp] theorem toks_foldl_push (ts : List Token) (s : SuffixIndex) :
    (ts.foldl push s).toks = s.toks ++ ts := by
  induction ts generalizing s with
  | nil => simp
  | cons t ts ih => simp [ih]

/-- A draft is never longer than requested. -/
theorem length_draft_le (s : SuffixIndex) (nMax : ℕ) : (s.draft nMax).length ≤ nMax := by
  simp only [draft]
  split
  · simp
  · split
    · simp
    · split
      · simp
      · exact List.length_take_le _ _

end SuffixIndex
end FastLlm
